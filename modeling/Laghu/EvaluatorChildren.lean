import Laghu.EvaluatorSequences
import Laghu.EvaluatorTables

/-!
The children of an object or array, given a parser for values: how they are written, what
they need in the tables, and that the parsers of an element and of a member read them.
-/

namespace Laghu.Evaluator

open FallibleSteps JsonTexts List JsonTables JsonDocument Evaluator.Parser

/-- No member of the object has the key yet. -/
def KeyFresh (parent : ℕ) (tables : JsonTables) (key : Text) : Prop :=
  ∀ member ∈ tables.members, member.parent = parent → member.key ≠ key

/-- There is room for the child, and no other child has its key. -/
structure ChildFits (parent : ℕ) (tables : JsonTables) (child : Option Text × Json) : Prop where
  fresh : ∀ key, child.1 = some key → KeyFresh parent tables key
  room : tables.RoomForAll [child]

section

variable {tables : JsonTables} {parent : ℕ} {child : Option Text × Json}
  {children : List (Option Text × Json)}

/-- The members of the values in a child are not the object's own. -/
theorem keyFresh_recordChild (hpar : parent < tables.nodes.length) (key : Text) :
    KeyFresh parent (tables.recordChild parent child) key ↔
      KeyFresh parent tables key ∧ child.1 ≠ some key := by
  have hmems : (tables.recordChild parent child).members =
      tables.members ++ (memberRows (links tables.nodes.length child.2) ++
        memberRows [⟨parent, child.1, tables.nodes.length⟩]) := by
    simp [recordChild, extend, memberRows]
  have hown : ∀ member ∈ memberRows (links tables.nodes.length child.2),
      member.parent ≠ parent := by
    intro member hm
    obtain ⟨link, hl, hrow⟩ := mem_filterMap.mp hm
    obtain ⟨_, _, rfl⟩ := Option.map_eq_some_iff.mp hrow
    have h := (links_parent child.2 _ link hl).1
    change link.parent ≠ parent
    omega
  unfold KeyFresh
  rw [hmems]
  constructor
  · intro h
    refine ⟨fun member hm => h member (mem_append_left _ hm), ?_⟩
    intro hkey
    refine h ⟨parent, key, tables.nodes.length⟩ ?_ rfl rfl
    refine mem_append_right _ (mem_append_right _ ?_)
    simp [memberRows, hkey]
  intro h member hm hmine
  rcases mem_append.mp hm with hm | hm
  · exact h.1 member hm hmine
  rcases mem_append.mp hm with hm | hm
  · exact (hown member hm hmine).elim
  intro heq
  obtain ⟨link, hl, hrow⟩ := mem_filterMap.mp hm
  rw [mem_singleton.mp hl] at hrow
  obtain ⟨other, ho, rfl⟩ := Option.map_eq_some_iff.mp hrow
  exact h.2 (ho.trans (congrArg some heq))

theorem sound_recordChild (hs : tables.Sound) (hpar : parent < tables.nodes.length)
    (hr : tables.RoomForAll [child]) : (tables.recordChild parent child).Sound := by
  have hrows := rows_length_children [child] parent tables.nodes.length
  refine hs.extend ?_ ?_
  · have hall : Json.preorderAll [child] = child.2.preorder := append_nil _
    change tables.Room child.2.preorder.length
      (memberRows (linkChildren parent tables.nodes.length [child])).length
      (elementRows (linkChildren parent tables.nodes.length [child])).length
    rw [hrows.1, hrows.2, ← hall]
    exact hr
  · intro link hl
    rcases mem_append.mp hl with hl | hl
    · exact (links_parent child.2 _ link hl).2
    · rw [mem_singleton.mp hl]
      exact Nat.lt_add_right _ hpar

/-- All children fit exactly if there is room for all and their keys differ. -/
theorem fitsAll_iff (hs : tables.Sound) (hpar : parent < tables.nodes.length) :
    FitsAll (ChildFits parent) (recordChild parent) tables children ↔
      tables.RoomForAll children ∧ (children.filterMap Prod.fst).Nodup ∧
        ∀ key ∈ children.filterMap Prod.fst, KeyFresh parent tables key := by
  induction children generalizing tables with
  | nil =>
    refine ⟨fun _ => ⟨⟨?_, ?_, ?_⟩, nodup_nil, fun _ h => by cases h⟩, fun _ => trivial⟩
    · exact hs.nodes_le
    · exact hs.members_le
    · exact hs.elements_le
  | cons child rest ih =>
    have hgrows : parent < (tables.recordChild parent child).nodes.length := by
      rw [recordChild, nodes_extend]
      omega
    have hkeys : ∀ {key : Text}, KeyFresh parent (tables.recordChild parent child) key ↔
        KeyFresh parent tables key ∧ child.1 ≠ some key := keyFresh_recordChild hpar _
    rw [FitsAll]
    constructor
    · intro h
      obtain ⟨hchild, hr⟩ := h
      obtain ⟨hroom, hnodup, hfresh⟩ :=
        (ih (sound_recordChild hs hpar hchild.room) hgrows).mp hr
      refine ⟨(roomForAll_cons parent).mpr hroom, ?_, ?_⟩
      · rw [filterMap_cons]
        split
        · exact hnodup
        · rename_i key hkey
          exact nodup_cons.mpr ⟨fun hmem => (hkeys.mp (hfresh key hmem)).2 hkey, hnodup⟩
      intro key hmem
      obtain ⟨other, ho, hkey⟩ := mem_filterMap.mp hmem
      rcases mem_cons.mp ho with rfl | ho
      · exact hchild.fresh key hkey
      · exact (hkeys.mp (hfresh key (mem_filterMap.mpr ⟨other, ho, hkey⟩))).1
    intro h
    obtain ⟨hroom, hnodup, hfresh⟩ := h
    have hchild : ChildFits parent tables child := by
      refine ⟨fun key hkey => hfresh key ?_, hroom.head⟩
      exact mem_filterMap.mpr ⟨child, mem_cons_self .., hkey⟩
    refine ⟨hchild, (ih (sound_recordChild hs hpar hchild.room) hgrows).mpr ⟨?_, ?_, ?_⟩⟩
    · exact (roomForAll_cons parent).mp hroom
    · rw [filterMap_cons] at hnodup
      split at hnodup
      · exact hnodup
      · exact (nodup_cons.mp hnodup).2
    intro key hmem
    refine hkeys.mpr ⟨hfresh key ?_, ?_⟩
    · obtain ⟨other, ho, hkey⟩ := mem_filterMap.mp hmem
      exact mem_filterMap.mpr ⟨other, mem_cons_of_mem _ ho, hkey⟩
    intro hkey
    rw [filterMap_cons_some hkey] at hnodup
    exact (nodup_cons.mp hnodup).1 hmem

end

/-- What a parser for values does; `levels` says how deep they may be. -/
structure ValueSpec (value : Parser ℕ) (levels : ℕ) : Prop where
  halts : ∀ {d : JsonDocument}, d.tables.Sound → Halts value d
  reads : ∀ {d d' : JsonDocument} {output : ℕ}, d.tables.Sound → Yields value d output d' →
    ∃ blank t rest, d.remaining = blank ++ (t.raw ++ rest) ∧ Blank blank ∧ WellFormed t ∧
      t.height < levels ∧ d.tables.RoomFor t ∧ output = d.tables.nodes.length ∧
      d' = d.put (d.tables.record t) (blank.length + t.raw.length)
  accepts : ∀ {d : JsonDocument} {blank rest : Text} {t : Json}, d.tables.Sound →
    d.remaining = blank ++ (t.raw ++ rest) → Blank blank → WellFormed t → t.height < levels →
    Ended rest → d.tables.RoomFor t →
    Yields value d d.tables.nodes.length (d.put (d.tables.record t) (blank.length + t.raw.length))

section

variable {value : Parser ℕ} {levels parent : ℕ} {d d' : JsonDocument}

theorem yields_appendElement {element : JsonElement} {u : Unit} :
    Yields (appendElement element) d u d' ↔ d.tables.elements.length ≠ maximumJsonElements ∧
        d' = { d with
          tables := { d.tables with elements := d.tables.elements ++ [element] } } := by
  unfold appendElement
  simp

theorem yields_appendMember {member : JsonMember} {u : Unit} :
    Yields (appendMember member) d u d' ↔ d.tables.members.length ≠ maximumJsonMembers ∧
        d' = { d with
          tables := { d.tables with members := d.tables.members ++ [member] } } := by
  unfold appendMember
  simp

/-- An element is a value without a key. -/
structure ElementWritten (levels : ℕ) (child : Option Text × Json) (piece : Text) : Prop where
  key : child.1 = none
  value : WellFormed child.2
  height : child.2.height < levels
  piece : piece = child.2.raw

structure MemberWritten (levels : ℕ) (child : Option Text × Json) (piece : Text) : Prop where
  value : WellFormed child.2
  height : child.2.height < levels
  piece : ∃ key, child.1 = some key ∧ MemberText key child.2.raw piece

section

variable {tables : JsonTables} {t : Json}

theorem recordChild_element : tables.recordChild parent (none, t) = { tables.record t with
        elements := (tables.record t).elements ++ [⟨parent, tables.nodes.length⟩] } := by
  simp [recordChild, record, extend, memberRows, elementRows]

theorem recordChild_member {key : Text} : tables.recordChild parent (some key, t) =
      { tables.record t with
        members := (tables.record t).members ++ [⟨parent, key, tables.nodes.length⟩] } := by
  simp [recordChild, record, extend, memberRows, elementRows]

theorem roomForAll_element : tables.RoomForAll [(none, t)] ↔
      tables.RoomFor t ∧ (tables.record t).elements.length ≠ maximumJsonElements := by
  have hall : Json.preorderAll [(none, t)] = t.preorder := append_nil _
  have hlen : (tables.record t).elements.length =
      tables.elements.length + elementSum t.preorder := by
    rw [← (rows_length t tables.nodes.length).2]
    exact length_append
  rw [RoomForAll, hall, hlen]
  change tables.Room _ (memberSum t.preorder + 0) (elementSum t.preorder + 1) ↔ _
  rw [room_iff, RoomFor, room_iff]
  omega

theorem roomForAll_member {key : Text} : tables.RoomForAll [(some key, t)] ↔
      tables.RoomFor t ∧ (tables.record t).members.length ≠ maximumJsonMembers := by
  have hall : Json.preorderAll [(some key, t)] = t.preorder := append_nil _
  have hlen : (tables.record t).members.length = tables.members.length + memberSum t.preorder := by
    rw [← (rows_length t tables.nodes.length).1]
    exact length_append
  rw [RoomForAll, hall, hlen]
  change tables.Room _ (memberSum t.preorder + 1) (elementSum t.preorder + 0) ↔ _
  rw [room_iff, RoomFor, room_iff]
  omega

end

theorem parseElement_reads (h : ValueSpec value levels) (hs : d.tables.Sound)
    (htight : Tight d.remaining) (hyields : Yields (parseElement value parent) d () d') :
    ∃ child piece rest, d.remaining = piece ++ rest ∧ ElementWritten levels child piece ∧
      ChildFits parent d.tables child ∧
      d' = d.put (d.tables.recordChild parent child) piece.length := by
  obtain ⟨output, d₁, hv, happend⟩ := yields_bind.mp hyields
  obtain ⟨blank, t, rest, htext, hblank, hwell, hh, hr, rfl, rfl⟩ := h.reads hs hv
  rw [htext] at htight
  obtain rfl := hblank.eq_nil htight
  obtain ⟨hlen, rfl⟩ := yields_appendElement.mp happend
  refine ⟨(none, t), t.raw, rest, htext, ⟨rfl, hwell, hh, rfl⟩, ⟨?_, ?_⟩, ?_⟩
  · intro key hkey
    cases hkey
  · exact roomForAll_element.mpr ⟨hr, hlen⟩
  · rw [recordChild_element]
    simp only [put, length_nil, Nat.zero_add]

variable {child : Option Text × Json}

theorem parseElement_accepts (h : ValueSpec value levels) (hs : d.tables.Sound)
    {piece rest : Text} (htext : d.remaining = piece ++ rest)
    (hwritten : ElementWritten levels child piece) (hended : Ended rest)
    (hfits : ChildFits parent d.tables child) :
    Yields (parseElement value parent) d ()
      (d.put (d.tables.recordChild parent child) piece.length) := by
  obtain ⟨key, t⟩ := child
  obtain ⟨rfl, hwell, hh, rfl⟩ := hwritten
  obtain ⟨hr, hlen⟩ := roomForAll_element.mp hfits.room
  have hblank : d.remaining = [] ++ (t.raw ++ rest) := htext
  have hv := h.accepts hs hblank blank_nil hwell hh hended hr
  refine yields_bind.mpr ⟨_, _, hv, yields_appendElement.mpr ⟨hlen, ?_⟩⟩
  rw [recordChild_element]
  simp only [put, length_nil, Nat.zero_add]

/-- A key, a colon and a value, with blanks around the colon. -/
theorem parseMember_reads (h : ValueSpec value levels) (hs : d.tables.Sound)
    (hyields : Yields (parseMember value parent) d () d') :
    ∃ child piece rest, d.remaining = piece ++ rest ∧ MemberWritten levels child piece ∧
      ChildFits parent d.tables child ∧
      d' = d.put (d.tables.recordChild parent child) piece.length := by
  obtain ⟨key, d₁, hkey, hyields⟩ := yields_bind.mp hyields
  obtain ⟨text, htext, hstr, rfl⟩ := yields_parseString.mp hkey
  rw [yields_getTables_bind, yields_check_bind] at hyields
  obtain ⟨hfresh, hyields⟩ := hyields
  obtain ⟨_, d₂, hcolon, hyields⟩ := yields_bind.mp hyields
  obtain ⟨before, after, rest, hr, hpre, ha, htight, rfl, hleft⟩ :=
    parseColon_reads hcolon
  obtain ⟨output, d₃, hv, happend⟩ := yields_bind.mp hyields
  simp only [advance_eq_put, put_put, tables_put] at hv
  simp only [advance_eq_put, put_put, tables_put] at hleft
  obtain ⟨blank, t, last, hl, hblank, hwell, hh, hroom, rfl, rfl⟩ :=
    h.reads (d := d.put d.tables _) hs hv
  rw [hleft] at hl
  rw [hl] at htight
  obtain rfl := hblank.eq_nil htight
  obtain ⟨hlen, rfl⟩ := yields_appendMember.mp happend
  have hpiece : text = before ++ colon :: (after ++ rest) :=
    (remaining_string htext).symm.trans hr
  refine ⟨(some key, t), quote :: (key ++ quote :: (before ++ colon :: (after ++ t.raw))), last, ?_,
    ⟨hwell, hh, key, rfl, .intro hstr hpre ha⟩, ⟨?_, ?_⟩, ?_⟩
  · rw [htext, hpiece, hl]
    simp
  · intro other ho member hm hpar heq
    cases ho
    exact hfresh ⟨member, hm, hpar, heq⟩
  · exact roomForAll_member.mpr ⟨hroom, hlen⟩
  rw [recordChild_member]
  simp only [JsonDocument.put, JsonDocument.mk.injEq, length_nil, length_cons,
    length_append, and_true, true_and]
  omega

theorem parseMember_accepts (h : ValueSpec value levels) (hs : d.tables.Sound) {piece rest : Text}
    (htext : d.remaining = piece ++ rest) (hwritten : MemberWritten levels child piece)
    (hended : Ended rest) (hfits : ChildFits parent d.tables child) :
    Yields (parseMember value parent) d ()
      (d.put (d.tables.recordChild parent child) piece.length) := by
  obtain ⟨label, t⟩ := child
  obtain ⟨hwell, hh, key, rfl, ⟨hstr, hpre, ha⟩⟩ := hwritten
  rename_i before after
  obtain ⟨hr, hlen⟩ := roomForAll_member.mp hfits.room
  have hkey : d.remaining = quote :: (key ++ quote :: (before ++ colon :: (after ++
      (t.raw ++ rest)))) := by
    rw [htext]
    simp
  refine yields_bind.mpr ⟨key, _, yields_parseString.mpr ⟨_, hkey, hstr, rfl⟩, ?_⟩
  rw [yields_getTables_bind, yields_check_bind]
  refine ⟨?_, ?_⟩
  · intro hrepeated
    obtain ⟨member, hm, hpar, heq⟩ := hrepeated
    exact hfits.fresh key rfl member hm hpar heq
  have hcolon := remaining_string hkey
  refine yields_bind.mpr ⟨(), _, parseColon_accepts hcolon hpre ha (hwell.tight rest), ?_⟩
  have hsplit : (d.advance (key.length + 2)).remaining =
      (before ++ colon :: after) ++ (t.raw ++ rest) := by
    rw [hcolon]
    simp
  have hleft := remaining_put d.tables hsplit
  have hn : (before ++ colon :: after).length = before.length + (1 + after.length) := by
    simp only [length_append, length_cons]
    omega
  rw [hn] at hleft
  have hblank : ((d.advance (key.length + 2)).put d.tables
      (before.length + (1 + after.length))).remaining = [] ++ (t.raw ++ rest) := hleft
  have hv := h.accepts (d := (d.advance (key.length + 2)).put d.tables _) hs hblank
    blank_nil hwell hh hended hr
  refine yields_bind.mpr ⟨_, _, hv, yields_appendMember.mpr ⟨hlen, ?_⟩⟩
  rw [recordChild_member]
  simp only [JsonDocument.put, JsonDocument.advance, JsonDocument.mk.injEq, length_nil,
    length_cons, length_append, and_true, true_and]
  omega

theorem parseString_halts : Halts parseString d := by
  refine halts_bind halts_look fun _ _ _ => halts_bind halts_check fun _ _ _ => ?_
  split
  · exact halts_throw
  · exact halts_bind halts_advance fun _ _ _ => halts_pure

theorem parseColon_halts : Halts parseColon d := by
  refine halts_bind halts_skipSpace fun _ _ _ => halts_bind halts_look fun _ _ _ => ?_
  refine halts_bind halts_check fun _ _ _ => halts_bind halts_advance fun _ _ _ => ?_
  exact halts_skipSpace

theorem halts_getTables : Halts getTables d := halts_perform

theorem halts_setTables {tables : JsonTables} : Halts (setTables tables) d := halts_perform

theorem parseElement_halts (h : ValueSpec value levels) (hs : d.tables.Sound) :
    Halts (parseElement value parent) d := by
  refine halts_bind (h.halts hs) fun _ _ _ => halts_bind halts_getTables fun _ _ _ => ?_
  exact halts_bind halts_check fun _ _ _ => halts_setTables

theorem parseMember_halts (h : ValueSpec value levels) (hs : d.tables.Sound) :
    Halts (parseMember value parent) d := by
  apply halts_bind parseString_halts
  intro _ _ hstr
  obtain ⟨_, _, _, rfl⟩ := yields_parseString.mp hstr
  apply halts_bind halts_getTables
  intro _ _ htables
  rw [(yields_getTables.mp htables).2]
  apply halts_bind halts_check
  intro _ _ hcheck
  rw [(yields_check.mp hcheck).2]
  apply halts_bind parseColon_halts
  intro _ _ hcolon
  obtain ⟨_, _, _, _, _, _, _, rfl, _⟩ := parseColon_reads hcolon
  refine halts_bind (h.halts hs) fun _ _ _ => halts_bind halts_getTables fun _ _ _ => ?_
  exact halts_bind halts_check fun _ _ _ => halts_setTables

/-- Where the children of an object or array are recorded. -/
def Parented (parent : ℕ) (tables : JsonTables) : Prop :=
  tables.Sound ∧ parent < tables.nodes.length

theorem parented_recordChild {tables : JsonTables} (h : Parented parent tables)
    (hfits : ChildFits parent tables child) :
    Parented parent (tables.recordChild parent child) := by
  refine ⟨sound_recordChild h.1 h.2 hfits.room, ?_⟩
  rw [recordChild, nodes_extend]
  exact Nat.lt_add_right _ h.2

def elementSpec (h : ValueSpec value levels) (parent : ℕ) :
    ChildSpec (Parser.parseElement value parent) (Option Text × Json) where
  Good := Parented parent
  Written := ElementWritten levels
  Fits := ChildFits parent
  next := JsonTables.recordChild parent
  next_good := parented_recordChild
  tight hwritten rest := by
    rw [hwritten.piece]
    exact hwritten.value.tight rest
  nonempty hwritten := by
    rw [hwritten.piece]
    exact hwritten.value.raw_ne_nil
  halts hgood := parseElement_halts h hgood.1
  reads hgood htight hyields := parseElement_reads h hgood.1 htight hyields
  accepts hgood htext hwritten hended hfits :=
    parseElement_accepts h hgood.1 htext hwritten hended hfits

def memberSpec (h : ValueSpec value levels) (parent : ℕ) :
    ChildSpec (Parser.parseMember value parent) (Option Text × Json) where
  Good := Parented parent
  Written := MemberWritten levels
  Fits := ChildFits parent
  next := JsonTables.recordChild parent
  next_good := parented_recordChild
  tight hwritten rest := by
    obtain ⟨_, _, _, _, ⟨_, _, _⟩⟩ := hwritten
    exact tight_cons (by decide)
  nonempty hwritten := by
    obtain ⟨_, _, _, _, ⟨_, _, _⟩⟩ := hwritten
    exact List.cons_ne_nil _ _
  halts hgood := parseMember_halts h hgood.1
  reads hgood _ hyields := parseMember_reads h hgood.1 hyields
  accepts hgood htext hwritten hended hfits :=
    parseMember_accepts h hgood.1 htext hwritten hended hfits

end

end Laghu.Evaluator
