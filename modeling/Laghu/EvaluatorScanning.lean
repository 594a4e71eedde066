import Laghu.EvaluatorDocuments

/-!
What the parts of the evaluator's parser read that do not call it: blanks, strings, numbers,
and the loop over the children of an object or array, for whatever a child is. Each is an
equivalence, so what is accepted is well formed and what is well formed is accepted.
-/

namespace Laghu.Evaluator

open FallibleSteps JsonTexts List Option

variable {d d' : JsonDocument} {rest text : Text}

namespace JsonDocument

theorem remaining_advance (text : Text) (h : d.remaining = text ++ rest) :
    (d.advance text.length).remaining = rest := by
  change d.storage.drop (d.cursor + text.length) = rest
  rw [← drop_drop]
  change d.remaining.drop text.length = rest
  rw [h, drop_left]

theorem remaining_string {body : Text} (h : d.remaining = quote :: (body ++ quote :: rest)) :
    (d.advance (body.length + 2)).remaining = rest := by
  have hsplit : d.remaining = quote :: (body ++ [quote]) ++ rest := by
    rw [h]
    simp
  have hleft := remaining_advance _ hsplit
  simpa using hleft

/-- New tables, and a cursor that has come further. -/
def put (d : JsonDocument) (tables : JsonTables) (count : ℕ) : JsonDocument :=
  { d with tables := tables, cursor := d.cursor + count }

@[simp] theorem put_put (tables more : JsonTables) (count further : ℕ) :
    (d.put tables count).put more further = d.put more (count + further) := by
  unfold put
  simp only [Nat.add_assoc]

@[simp] theorem advance_eq_put (count : ℕ) : d.advance count = d.put d.tables count := rfl

@[simp] theorem tables_put (tables : JsonTables) (count : ℕ) :
    (d.put tables count).tables = tables := rfl

theorem remaining_put (tables : JsonTables) (h : d.remaining = text ++ rest) :
    (d.put tables text.length).remaining = rest :=
  remaining_advance text h

end JsonDocument

namespace Parser

@[simp] theorem yields_look : Yields look d text d' ↔ text = d.remaining ∧ d' = d := by
  unfold look
  simp only [yields_perform, some.injEq, Prod.mk.injEq]
  exact ⟨fun h => ⟨h.1.symm, h.2.symm⟩, fun h => ⟨h.1.symm, h.2.symm⟩⟩

variable {u : Unit} {tables : JsonTables} {count : ℕ}

@[simp] theorem yields_advance :
    Yields (advance count) d u d' ↔ d' = d.advance count := by
  unfold advance
  simp only [yields_perform, some.injEq, Prod.mk.injEq, true_and]
  exact eq_comm

@[simp] theorem yields_getTables :
    Yields getTables d tables d' ↔ tables = d.tables ∧ d' = d := by
  unfold getTables
  simp only [yields_perform, some.injEq, Prod.mk.injEq]
  exact ⟨fun h => ⟨h.1.symm, h.2.symm⟩, fun h => ⟨h.1.symm, h.2.symm⟩⟩

@[simp] theorem yields_setTables :
    Yields (setTables tables) d u d' ↔ d' = { d with tables := tables } := by
  unfold setTables
  simp only [yields_perform, some.injEq, Prod.mk.injEq, true_and]
  exact eq_comm

@[simp] theorem yields_skipSpace :
    Yields skipSpace d u d' ↔ d' = d.advance (d.remaining.takeWhile isSpace).length := by
  unfold skipSpace
  simp only [yields_perform, some.injEq, Prod.mk.injEq, true_and]
  exact eq_comm

section

variable {α : Type} {a : α}

@[simp] theorem yields_look_bind {f : Text → Parser α} :
    Yields (look >>= f) d a d' ↔ Yields (f d.remaining) d a d' := by
  simp

variable {f : Unit → Parser α}

@[simp] theorem yields_advance_bind :
    Yields (advance count >>= f) d a d' ↔ Yields (f ()) (d.advance count) a d' := by
  simp only [yields_bind, yields_advance, exists_eq_left]
  constructor
  · rintro ⟨_, h⟩
    exact h
  · intro h
    exact ⟨(), h⟩

@[simp] theorem yields_getTables_bind {f : JsonTables → Parser α} :
    Yields (getTables >>= f) d a d' ↔ Yields (f d.tables) d a d' := by
  simp

@[simp] theorem yields_setTables_bind :
    Yields (setTables tables >>= f) d a d' ↔ Yields (f ()) { d with tables := tables } a d' := by
  simp only [yields_bind, yields_setTables, exists_eq_left]
  constructor
  · rintro ⟨_, h⟩
    exact h
  · intro h
    exact ⟨(), h⟩

end

/-- The blank in front is skipped, and nothing else. -/
theorem yields_skipSpace_of {blank : Text} (hleft : d.remaining = blank ++ rest)
    (hblank : Blank blank) (htight : Tight rest) :
    Yields skipSpace d u d' ↔ d' = d.advance blank.length := by
  rw [yields_skipSpace, hleft, takeWhile_isSpace hblank htight]

theorem scanString_of_body {body : Text} (h : StringBody body) (rest : Text) :
    scanString (body ++ quote :: rest) = some body.length := by
  induction h with
  | nil => simp [scanString.eq_def]
  | @plain c more hcontrol hquote hescape _ ih =>
    rw [cons_append, scanString.eq_def]
    simp [hquote, BitVec.not_lt.mpr hcontrol, hescape, ih]
  | @escape e more he _ ih =>
    have hne : e ≠ 0x75#8 := by
      intro heq
      rw [heq] at he
      exact absurd he (by decide)
    rw [cons_append, cons_append, scanString.eq_def]
    simp [hne, he, ih, show backslash ≠ quote by decide]
  | @unicode digits more hlen hhex _ ih =>
    obtain ⟨a, b, c, e, rfl⟩ : ∃ a b c e, digits = [a, b, c, e] := by
      match digits, hlen with
      | [a, b, c, e], _ => exact ⟨a, b, c, e, rfl⟩
    rw [scanString.eq_def]
    simp [hhex, ih, show backslash ≠ quote by decide]

theorem body_of_scanString (text : Text) (h : scanString text = some count) :
    ∃ body rest, text = body ++ quote :: rest ∧ StringBody body ∧ count = body.length := by
  fun_induction scanString text generalizing count with
  | case1 => cases h
  | case2 rest => exact ⟨[], rest, rfl, .nil, (some.inj h).symm⟩
  | case3 => cases h
  | case4 => cases h
  | case5 a b c e rest hhex _ _ ih =>
    obtain ⟨n, hn, hcount⟩ := map_eq_some_iff.mp h
    obtain ⟨body, more, ht, hbody, hlen⟩ := ih hn
    simp only [Bool.and_eq_true] at hhex
    refine ⟨backslash :: 0x75#8 :: ([a, b, c, e] ++ body), more, ?_, .unicode rfl ?_ hbody, ?_⟩
    · rw [ht]
      rfl
    · simp only [forall_mem_cons]
      exact ⟨hhex.1.1.1, hhex.1.1.2, hhex.1.2, hhex.2, fun _ h => by cases h⟩
    · simp only [cons_append, nil_append, length_cons]
      omega
  | case6 => cases h
  | case7 => cases h
  | case8 e rest _ he _ _ ih =>
    obtain ⟨n, hn, hcount⟩ := map_eq_some_iff.mp h
    obtain ⟨body, more, ht, hbody, hlen⟩ := ih hn
    refine ⟨backslash :: e :: body, more, ?_, .escape he hbody, ?_⟩
    · rw [ht]
      rfl
    · simp only [length_cons]
      omega
  | case9 => cases h
  | case10 c rest hquote hcontrol hescape ih =>
    obtain ⟨n, hn, hcount⟩ := map_eq_some_iff.mp h
    obtain ⟨body, more, ht, hbody, hlen⟩ := ih hn
    refine ⟨c :: body, more, ?_, .plain (BitVec.not_lt.mp hcontrol) hquote hescape hbody, ?_⟩
    · rw [ht]
      rfl
    · simp only [length_cons]
      omega

theorem yields_parseString {body : Text} : Yields parseString d body d' ↔
      ∃ rest, d.remaining = quote :: (body ++ quote :: rest) ∧ StringBody body ∧
        d' = d.advance (body.length + 2) := by
  unfold parseString
  simp only [yields_look_bind, yields_check_bind]
  constructor
  · intro h
    obtain ⟨hhead, h⟩ := h
    obtain ⟨text, ht⟩ := head?_eq_some_iff.mp hhead
    rw [ht] at h ⊢
    split at h
    · exact (not_yields_throw h).elim
    rename_i count hscan
    simp only [yields_advance_bind, yields_pure] at h
    obtain ⟨hbody, rfl⟩ := h
    obtain ⟨found, rest, hfound, hstr, hn⟩ := body_of_scanString _ hscan
    rw [tail_cons] at hfound hbody
    rw [hfound, hn, take_left] at hbody
    rw [hfound, hn, hbody]
    exact ⟨rest, rfl, hstr, rfl⟩
  · intro h
    obtain ⟨rest, hleft, hstr, rfl⟩ := h
    refine ⟨?_, ?_⟩
    · rw [hleft]
      rfl
    rw [hleft, tail_cons, scanString_of_body hstr]
    simp only [yields_advance_bind, yields_pure]
    exact ⟨take_left.symm, trivial⟩

theorem takeWhile_isDigit {digits : Text} (hdig : ∀ c ∈ digits, isDigit c = true)
    (hended : Ended rest) : (digits ++ rest).takeWhile isDigit = digits := by
  have hr : rest.takeWhile isDigit = [] := by
    cases rest with
    | nil => rfl
    | cons c more =>
      exact takeWhile_cons_of_neg (by rw [hended c rfl]; exact Bool.false_ne_true)
  rw [takeWhile_append_of_pos hdig, hr, append_nil]

theorem yields_parseNumber {number : ℕ} : Yields parseNumber d number d' ↔
      ∃ digits rest, d.remaining = digits ++ rest ∧ Decimal digits ∧ Ended rest ∧
        decimalValue digits < 2 ^ 64 ∧ number = decimalValue digits ∧
        d' = d.advance digits.length := by
  unfold parseNumber
  simp only [yields_look_bind, yields_check_bind, yields_advance_bind, yields_pure]
  constructor
  · intro h
    obtain ⟨hne, h0, hf, rfl, rfl⟩ := h
    refine ⟨_, d.remaining.dropWhile isDigit, takeWhile_append_dropWhile.symm,
      ⟨hne, List.all_eq_true.mp all_takeWhile, ?_⟩, ?_, hf, rfl, rfl⟩
    · intro hhead
      obtain ⟨tail, htail⟩ := head?_eq_some_iff.mp hhead
      have hlen := h0 hhead
      rw [htail] at hlen ⊢
      rw [length_eq_zero_iff.mp (Nat.succ.inj hlen)]
    · intro c hc
      have h := head?_dropWhile_not isDigit d.remaining
      rw [hc] at h
      simpa using h
  · intro h
    obtain ⟨digits, rest, hleft, hdec, hended, hf, rfl, rfl⟩ := h
    have hdig : d.remaining.takeWhile isDigit = digits := by
      rw [hleft]
      exact takeWhile_isDigit hdec.numerals hended
    rw [hdig]
    refine ⟨hdec.nonempty, ?_, hf, rfl, rfl⟩
    intro hhead
    rw [hdec.leading hhead]
    rfl

end Parser

end Laghu.Evaluator
