import Laghu.EvaluatorScanning

/-!
The loop over the children of an object or array, for whatever a child is: what it reads is a
list of children with commas between them, and it reads every such list.
-/

namespace Laghu.Evaluator

open FallibleSteps JsonTexts JsonDocument List
open BigEndian (Byte)

variable {d d' : JsonDocument} {rest text : Text}

/-- What a child is, how it is written and what it does to the tables. -/
structure ChildSpec (child : Parser Unit) (ξ : Type) where
  Good : JsonTables → Prop
  Written : ξ → Text → Prop
  Fits : JsonTables → ξ → Prop
  next : JsonTables → ξ → JsonTables
  next_good : ∀ {tables x}, Good tables → Fits tables x → Good (next tables x)
  tight : ∀ {x piece}, Written x piece → ∀ rest, Tight (piece ++ rest)
  nonempty : ∀ {x piece}, Written x piece → piece ≠ []
  halts : ∀ {d : JsonDocument}, Good d.tables → Halts child d
  reads : ∀ {d d' : JsonDocument}, Good d.tables → Tight d.remaining → Yields child d () d' →
    ∃ x piece rest, d.remaining = piece ++ rest ∧ Written x piece ∧ Fits d.tables x ∧
      d' = d.put (next d.tables x) piece.length
  accepts : ∀ {d : JsonDocument} {x piece rest}, Good d.tables → d.remaining = piece ++ rest →
    Written x piece → Ended rest → Fits d.tables x →
    Yields child d () (d.put (next d.tables x) piece.length)

/-- Each child fits into the tables as the children before it leave them. -/
def FitsAll {ξ : Type} (Fits : JsonTables → ξ → Prop) (next : JsonTables → ξ → JsonTables) :
    JsonTables → List ξ → Prop
  | _, [] => True
  | tables, x :: xs => Fits tables x ∧ FitsAll Fits next (next tables x) xs

namespace ChildSpec

variable {child : Parser Unit} {ξ : Type} (spec : ChildSpec child ξ)

/-- The children are in the text, which ends with the closing bracket. -/
structure Read (close : Byte) (d : JsonDocument) (xs : List ξ) (inner rest : Text) : Prop where
  text : d.remaining = inner ++ close :: rest
  written : ∃ pieces, Layout pieces inner ∧ List.Forall₂ spec.Written xs pieces
  fits : FitsAll spec.Fits spec.next d.tables xs

end ChildSpec

namespace Parser

variable {child : Parser Unit} {ξ : Type} (spec : ChildSpec child ξ) {close : Byte} {fuel : ℕ}

theorem skipSpace_reads {u : Unit} (h : Yields skipSpace d u d') :
    ∃ blank rest, d.remaining = blank ++ rest ∧ Blank blank ∧ Tight rest ∧
      d' = d.put d.tables blank.length ∧ d'.remaining = rest := by
  obtain ⟨rest, ht, hblank, htight⟩ := exists_blank d.remaining
  rw [yields_skipSpace] at h
  refine ⟨_, rest, ht, hblank, htight, h, ?_⟩
  rw [h]
  exact remaining_put _ ht

theorem parseColon_reads {u : Unit} (h : Yields parseColon d u d') :
    ∃ before after rest, d.remaining = before ++ colon :: (after ++ rest) ∧ Blank before ∧
      Blank after ∧ Tight rest ∧
      d' = d.put d.tables (before.length + (1 + after.length)) ∧ d'.remaining = rest := by
  obtain ⟨_, d₁, hskip, h⟩ := yields_bind.mp h
  obtain ⟨before, rest, ht, hpre, _, rfl, hleft⟩ := skipSpace_reads hskip
  rw [yields_look_bind, hleft, yields_check_bind, yields_advance_bind] at h
  obtain ⟨hcolon, h⟩ := h
  obtain ⟨more, rfl⟩ := head?_eq_some_iff.mp hcolon
  obtain ⟨after, rest, hr, ha, htight, rfl, hleft'⟩ := skipSpace_reads h
  have hmore : more = after ++ rest :=
    (remaining_advance [colon] hleft).symm.trans hr
  refine ⟨before, after, rest, ?_, hpre, ha, htight, ?_, hleft'⟩
  · rw [ht, hmore]
  · simp only [advance_eq_put, put_put, tables_put, add_assoc]

theorem parseColon_accepts {before after : Text}
    (ht : d.remaining = before ++ colon :: (after ++ rest)) (hpre : Blank before)
    (ha : Blank after) (htight : Tight rest) :
    Yields parseColon d () (d.put d.tables (before.length + (1 + after.length))) := by
  have hcolon : isSpace colon = false := by decide
  refine yields_bind.mpr ⟨(), _, (yields_skipSpace_of ht hpre (tight_cons hcolon)).mpr rfl, ?_⟩
  have hleft := remaining_advance _ ht
  have hafterColon := remaining_advance [colon] hleft
  rw [yields_look_bind, hleft, yields_check_bind, yields_advance_bind]
  refine ⟨rfl, (yields_skipSpace_of hafterColon ha htight).mpr ?_⟩
  simp only [advance_eq_put, put_put, tables_put, length_singleton, add_assoc]

theorem parseChildren_reads (hgood : spec.Good d.tables) (htight : Tight d.remaining)
    (h : Yields (parseChildren close child fuel) d () d') :
    ∃ xs inner rest, xs ≠ [] ∧ spec.Read close d xs inner rest ∧
      d' = d.put (xs.foldl spec.next d.tables) (inner.length + 1) := by
  induction fuel generalizing d with
  | zero => cases h
  | succ fuel ih =>
    unfold parseChildren at h
    simp only [yields_look_bind, yields_check_bind] at h
    obtain ⟨_, d₁, hchild, h⟩ := yields_bind.mp h.2
    obtain ⟨_, d₂, hskip, h⟩ := yields_bind.mp h
    rw [yields_look_bind] at h
    obtain ⟨x, piece, text, ht, hw, hf, rfl⟩ := spec.reads hgood htight hchild
    obtain ⟨blank, rest, hr, hblank, _, rfl, hleft⟩ := skipSpace_reads hskip
    rw [remaining_put _ ht] at hr
    rw [hleft] at h
    split at h
    · rename_i hclose
      obtain ⟨more, rfl⟩ := head?_eq_some_iff.mp hclose
      rw [yields_advance] at h
      refine ⟨[x], piece ++ blank, more, cons_ne_nil _ _, ⟨?_, ⟨[piece], ?_, ?_⟩, ?_⟩, ?_⟩
      · rw [ht, hr, append_assoc]
      · exact .last blank_nil hblank
      · exact .cons hw .nil
      · exact ⟨hf, trivial⟩
      · rw [h]
        simp [add_assoc]
    rw [yields_check_bind, yields_advance_bind] at h
    obtain ⟨hcomma, h⟩ := h
    obtain ⟨_, d₃, hskip', h⟩ := yields_bind.mp h
    obtain ⟨more, rfl⟩ := head?_eq_some_iff.mp hcomma
    obtain ⟨before, text', ht', hpre, htight', rfl, hleft'⟩ := skipSpace_reads hskip'
    have hmore : more = before ++ text' :=
      (remaining_advance [comma] hleft).symm.trans ht'
    obtain ⟨xs, inner, rest', hne, ⟨hinner, ⟨pieces, hlay, hp⟩, hall⟩, hd⟩ :=
      ih (spec.next_good hgood hf) (by rw [hleft']; exact htight') h
    rw [hleft'] at hinner
    refine ⟨x :: xs, piece ++ (blank ++ comma :: (before ++ inner)), rest', cons_ne_nil _ _,
      ⟨?_, ⟨piece :: pieces, ?_, .cons hw hp⟩, hf, hall⟩, ?_⟩
    · rw [ht, hr, hmore, hinner]
      simp
    · cases hp with
      | nil => exact (hne rfl).elim
      | cons _ _ =>
        exact .more blank_nil hblank (hlay.blank_append hpre)
    rw [hd]
    simp only [advance_eq_put, put_put, tables_put, foldl_cons, length_append, length_cons]
    congr 1
    omega

/-- How a closing bracket has to differ from what may stand before it. -/
structure Closing (close : Byte) : Prop where
  space : isSpace close = false
  digit : isDigit close = false
  comma : close ≠ JsonTexts.comma

theorem parseChildren_accepts (hclose : Closing close) {xs : List ξ} {inner : Text} (hne : xs ≠ [])
    (hgood : spec.Good d.tables) (htight : Tight d.remaining) (h : spec.Read close d xs inner rest)
    (hfuel : d.remaining.length < fuel) :
    Yields (parseChildren close child fuel) d ()
      (d.put (xs.foldl spec.next d.tables) (inner.length + 1)) := by
  induction fuel generalizing d xs inner with
  | zero => omega
  | succ fuel ih =>
    obtain ⟨ht, ⟨pieces, hlay, hp⟩, hall⟩ := h
    have hcommaSpace : isSpace comma = false := by decide
    have hcommaDigit : isDigit comma = false := by decide
    unfold parseChildren
    rw [yields_look_bind, yields_check_bind]
    refine ⟨by rw [ht]; simp, ?_⟩
    rw [yields_bind]
    cases hlay with
    | none _ =>
      cases hp
      exact (hne rfl).elim
    | @last before piece blank hpre hblank =>
      obtain ⟨x, xs, hw, hn, rfl⟩ := forall₂_cons_right_iff.mp hp
      obtain rfl := forall₂_nil_right_iff.mp hn
      rw [ht, append_assoc, append_assoc] at htight
      obtain rfl := hpre.eq_nil htight
      have hpiece : d.remaining = piece ++ (blank ++ close :: rest) := by
        rw [ht]
        simp
      refine ⟨(), _, spec.accepts hgood hpiece hw (hblank.ended hclose.digit) hall.1, ?_⟩
      have hleft := remaining_put (spec.next d.tables x) hpiece
      rw [yields_bind]
      refine ⟨(), _, (yields_skipSpace_of hleft hblank (tight_cons hclose.space)).mpr rfl, ?_⟩
      rw [yields_look_bind, remaining_advance _ hleft, head?_cons, if_pos rfl, yields_advance]
      simp [add_assoc]
    | @more before piece blank following text pieces hpre hblank hlay =>
      obtain ⟨x, xs, hw, hmore, rfl⟩ := forall₂_cons_right_iff.mp hp
      rw [ht, append_assoc, append_assoc] at htight
      obtain rfl := hpre.eq_nil htight
      have hpiece : d.remaining = piece ++ (blank ++ comma :: (text ++ close :: rest)) := by
        rw [ht]
        simp
      refine ⟨(), _, spec.accepts hgood hpiece hw (hblank.ended hcommaDigit) hall.1, ?_⟩
      have hleft := remaining_put (spec.next d.tables x) hpiece
      rw [yields_bind]
      refine ⟨(), _, (yields_skipSpace_of hleft hblank (tight_cons hcommaSpace)).mpr rfl, ?_⟩
      have hcomma := remaining_advance _ hleft
      have ho : some comma ≠ some close := fun heq => hclose.comma (Option.some.inj heq).symm
      rw [yields_look_bind, hcomma, head?_cons, if_neg ho, yields_check_bind,
        yields_advance_bind, yields_bind]
      obtain ⟨blank', text', rfl, hblank', hlay'⟩ := hlay.strip
      obtain ⟨y, ys, hy, hys, rfl⟩ := forall₂_cons_right_iff.mp hmore
      have ht' : (((d.put (spec.next d.tables x) piece.length).advance blank.length).advance
          1).remaining = blank' ++ (following ++ text' ++ close :: rest) := by
        rw [← append_assoc]
        exact remaining_advance [comma] hcomma
      have htight' : Tight (following ++ text' ++ close :: rest) := by
        rw [append_assoc]
        exact spec.tight hy _
      refine ⟨rfl, (), _, (yields_skipSpace_of ht' hblank' htight').mpr rfl, ?_⟩
      have hnext := remaining_advance _ ht'
      have hlen := congrArg List.length hpiece
      simp only [length_append, length_cons] at hlen
      have h := ih (cons_ne_nil y ys) (spec.next_good hgood hall.1) (by rw [hnext]; exact htight')
        ⟨hnext, ⟨_, hlay', .cons hy hys⟩, hall.2⟩ (by
          rw [hnext]
          simp only [length_append, length_cons]
          omega)
      convert h using 1
      simp only [advance_eq_put, put_put, tables_put,
        foldl_cons, length_append, length_cons, length_nil]
      congr 1
      omega

theorem halts_look : Halts look d := halts_perform

theorem halts_advance {count : ℕ} : Halts (advance count) d := halts_perform

theorem halts_skipSpace : Halts skipSpace d := halts_perform

theorem parseChildren_halts (hgood : spec.Good d.tables) (htight : Tight d.remaining)
    (hfuel : d.remaining.length < fuel) : Halts (parseChildren close child fuel) d := by
  induction fuel generalizing d with
  | zero => omega
  | succ fuel ih =>
    apply halts_bind halts_look
    intro _ _ hlook
    rw [(yields_look.mp hlook).2]
    apply halts_bind halts_check
    intro _ _ hcheck
    rw [(yields_check.mp hcheck).2]
    apply halts_bind (spec.halts hgood)
    intro _ d₁ hchild
    obtain ⟨x, piece, text, ht, hw, hf, rfl⟩ := spec.reads hgood htight hchild
    have hpiece := length_pos_iff.mpr (spec.nonempty hw)
    have hlen := congrArg List.length ht
    apply halts_bind halts_skipSpace
    intro _ d₂ hskip
    obtain ⟨blank, rest, hr, _, _, rfl, hleft⟩ := skipSpace_reads hskip
    rw [remaining_put _ ht] at hr
    apply halts_bind halts_look
    intro _ _ hlook
    rw [(yields_look.mp hlook).1, (yields_look.mp hlook).2, hleft]
    split
    · exact halts_advance
    apply halts_bind halts_check
    intro _ _ hcheck
    obtain ⟨hcomma, rfl⟩ := yields_check.mp hcheck
    obtain ⟨more, rfl⟩ := head?_eq_some_iff.mp hcomma
    apply halts_bind halts_advance
    intro _ _ hadv
    rw [yields_advance.mp hadv]
    apply halts_bind halts_skipSpace
    intro _ d₃ hskip'
    obtain ⟨blank', text', ht', _, htight', rfl, hleft'⟩ := skipSpace_reads hskip'
    have hmore : more = blank' ++ text' :=
      (remaining_advance [comma] hleft).symm.trans ht'
    refine ih (spec.next_good hgood hf) (by rw [hleft']; exact htight') ?_
    rw [hleft']
    rw [hr, hmore] at hlen
    simp only [length_append, length_cons] at hlen
    omega

theorem parseSequence_halts (hgood : spec.Good d.tables) : Halts (parseSequence close child) d := by
  apply halts_bind halts_advance
  intro _ _ hadv
  rw [yields_advance.mp hadv]
  apply halts_bind halts_skipSpace
  intro _ d₁ hskip
  obtain ⟨blank, rest, _, _, htight, rfl, hleft⟩ := skipSpace_reads hskip
  apply halts_bind halts_look
  intro _ _ hlook
  rw [(yields_look.mp hlook).1, (yields_look.mp hlook).2, hleft]
  split
  · exact halts_advance
  refine parseChildren_halts (d := (d.advance 1).put (d.advance 1).tables blank.length) spec hgood
    ?_ ?_
  · rw [hleft]
    exact htight
  · rw [hleft]
    exact Nat.lt_succ_self _

theorem parseSequence_reads (hgood : spec.Good d.tables)
    (h : Yields (parseSequence close child) d () d') :
    ∃ xs inner rest, spec.Read close (d.advance 1) xs inner rest ∧
      d' = d.put (xs.foldl spec.next d.tables) (inner.length + 2) := by
  unfold parseSequence at h
  rw [yields_advance_bind] at h
  obtain ⟨_, d₁, hskip, h⟩ := yields_bind.mp h
  obtain ⟨blank, rest, ht, hblank, htight, rfl, hr⟩ := skipSpace_reads hskip
  rw [yields_look_bind, hr] at h
  split at h
  · rename_i hhead
    obtain ⟨more, rfl⟩ := head?_eq_some_iff.mp hhead
    rw [yields_advance] at h
    refine ⟨[], blank, more, ⟨ht, ⟨[], .none hblank, .nil⟩, trivial⟩, ?_⟩
    rw [h]
    simp only [advance_eq_put, put_put, tables_put, foldl_nil]
    congr 1
    omega
  rw [← hr] at htight
  obtain ⟨xs, inner, more, hne, ⟨hinner, ⟨pieces, hlay, hp⟩, hall⟩, hd⟩ :=
    parseChildren_reads (d := (d.advance 1).put (d.advance 1).tables blank.length) spec hgood
      htight h
  rw [hr] at hinner
  refine ⟨xs, blank ++ inner, more, ⟨?_, ⟨pieces, ?_, hp⟩, hall⟩, ?_⟩
  · rw [ht, hinner, append_assoc]
  · cases hp with
    | nil => exact (hne rfl).elim
    | cons _ _ => exact hlay.blank_append hblank
  rw [hd]
  simp only [advance_eq_put, put_put, tables_put, length_append]
  congr 1
  omega

theorem parseSequence_accepts (hclose : Closing close)
    (hopen : ∀ {x piece}, spec.Written x piece → ∀ rest, (piece ++ rest).head? ≠ some close)
    (hgood : spec.Good d.tables) {xs : List ξ} {inner : Text}
    (h : spec.Read close (d.advance 1) xs inner rest) :
    Yields (parseSequence close child) d ()
      (d.put (xs.foldl spec.next d.tables) (inner.length + 2)) := by
  obtain ⟨ht, ⟨pieces, hlay, hp⟩, hall⟩ := h
  unfold parseSequence
  rw [yields_advance_bind, yields_bind]
  cases hp with
  | nil =>
    cases hlay with
    | none hblank =>
      refine ⟨(), _, (yields_skipSpace_of ht hblank (tight_cons hclose.space)).mpr rfl, ?_⟩
      rw [yields_look_bind, remaining_advance _ ht, head?_cons, if_pos rfl, yields_advance]
      simp only [advance_eq_put, put_put, tables_put, foldl_nil]
      congr 1
      omega
  | @cons x piece xs pieces hw hmore =>
    obtain ⟨blank, text, rfl, hblank, hlay'⟩ := hlay.strip
    rw [append_assoc] at ht
    have htight : Tight (piece ++ text ++ close :: rest) := by
      rw [append_assoc]
      exact spec.tight hw _
    refine ⟨(), _, (yields_skipSpace_of ht hblank htight).mpr rfl, ?_⟩
    have hleft := remaining_advance _ ht
    have hhead : (piece ++ text ++ close :: rest).head? ≠ some close := by
      rw [append_assoc]
      exact hopen hw _
    rw [yields_look_bind, hleft, if_neg hhead]
    have h := parseChildren_accepts (d := (d.advance 1).advance blank.length) spec hclose
      (cons_ne_nil x xs) hgood (by rw [hleft]; exact htight)
      ⟨hleft, ⟨_, hlay', .cons hw hmore⟩, hall⟩
      (by rw [hleft]; exact Nat.lt_succ_self _)
    convert h using 1
    simp only [advance_eq_put, put_put, tables_put, length_append]
    congr 1
    omega

end Parser

end Laghu.Evaluator
