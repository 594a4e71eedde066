import Laghu.EvaluatorChildren

/-!
What `parse_value` reads: a blank and a well-formed value that is not too deep, for which the
tables have room; and it reads every such value. By induction on the levels that are left,
with the children of an object or array read at one level less.
-/

namespace Laghu.Evaluator

open FallibleSteps JsonTexts List JsonTables JsonDocument Json Evaluator.Parser
open BigEndian (Byte)

namespace JsonTables

variable {tables : JsonTables} {t : Json} {type : JsonType}

/-- As `append_node` leaves the tables. -/
def push (tables : JsonTables) (type : JsonType) : JsonTables :=
  { tables with nodes := tables.nodes ++ [{ type := type }] }

/-- The tables before `parse_value` sets the text of the value. -/
def enter (tables : JsonTables) (t : Json) : JsonTables :=
  { tables.record t with
    nodes := tables.nodes ++ { nodeOf t with raw := [] } ::
      (Json.preorderAll t.children).map nodeOf }

theorem sound_push (h : tables.Sound) (hlen : tables.nodes.length ≠ maximumJsonNodes) :
    (tables.push type).Sound := by
  have hnodes := h.nodes_le
  have hgrows : (tables.push type).nodes.length = tables.nodes.length + 1 := length_append
  refine ⟨by omega, h.members_le, h.elements_le, fun member hm => ?_⟩
  have hpar := h.parents member hm
  omega

theorem roomFor_iff (type : JsonType) :
    tables.RoomFor t ↔ (tables.push type).RoomForAll t.children := by
  have hgrows : (tables.push type).nodes.length = tables.nodes.length + 1 := length_append
  have hmems : (tables.push type).members.length = tables.members.length := rfl
  have helts : (tables.push type).elements.length = tables.elements.length := rfl
  have hkeyed := memberCount_eq t
  have hunkeyed := elementCount_eq t
  rw [RoomFor, RoomForAll, preorder_eq]
  simp only [memberSum, elementSum, map_cons, sum_cons, length_cons]
  constructor
  · rintro ⟨h₁, h₂, h₃⟩
    exact ⟨by omega, by omega, by omega⟩
  rintro ⟨h₁, h₂, h₃⟩
  exact ⟨by omega, by omega, by omega⟩

theorem modify_append {α : Type} (before after : List α) (x : α) (f : α → α) :
    (before ++ x :: after).modify before.length f = before ++ f x :: after := by
  induction before with
  | nil => rfl
  | cons y before ih => exact congrArg (cons y) ih

/-- With the text of the value, the value is recorded. -/
theorem record_of_enter : ({ tables.enter t with
      nodes := (tables.enter t).nodes.modify tables.nodes.length
        fun n => { n with raw := t.raw } } : JsonTables) = tables.record t := by
  have hraw : (nodeOf t).raw = t.raw := by cases t <;> rfl
  have hnode : ({ { nodeOf t with raw := [] } with raw := t.raw } : JsonNode) = nodeOf t := by
    rw [← hraw]
  have hnodes : (tables.record t).nodes =
      tables.nodes ++ nodeOf t :: (preorderAll t.children).map nodeOf := by
    change tables.nodes ++ t.preorder.map nodeOf = _
    rw [preorder_eq, map_cons]
  unfold enter
  rw [modify_append, hnode, ← hnodes]

/-- The children, behind the node of the value they are in. -/
theorem extend_push (htype : ({ nodeOf t with raw := [] } : JsonNode) = { type := type }) :
    (tables.push type).extend (preorderAll t.children)
      (linkChildren tables.nodes.length (tables.push type).nodes.length t.children) =
      tables.enter t := by
  have hgrows : (tables.push type).nodes.length = tables.nodes.length + 1 := length_append
  unfold enter record
  rw [links_eq, hgrows, htype]
  simp [push, extend]

end JsonTables

section

variable {value : Parser ℕ} {levels : ℕ} {d d' : JsonDocument} {rest text : Text} {t : Json}
  {output : ℕ} {type : JsonType}

theorem yields_appendNode_bind {α : Type} {a : α} {f : ℕ → Parser α} :
    Yields (appendNode type >>= f) d a d' ↔ d.tables.nodes.length ≠ maximumJsonNodes ∧
        Yields (f d.tables.nodes.length) (d.put (d.tables.push type) 0) a d' := by
  unfold appendNode
  simp only [bind_assoc, yields_getTables_bind, yields_check_bind,
    yields_setTables_bind, pure_bind]
  rfl

variable {index count : ℕ} {change : JsonNode → JsonNode}

theorem yields_setNode_bind {α : Type} {a : α} {f : Unit → Parser α} :
    Yields (setNode index change >>= f) d a d' ↔
      Yields (f ()) (d.put { d.tables with nodes := d.tables.nodes.modify index change } 0)
        a d' := by
  rfl

/-- There is room for a value without children exactly if there is room for a node. -/
theorem roomFor_leaf (hs : d.tables.Sound) (hleaf : t.children = []) :
    d.tables.RoomFor t ↔ d.tables.nodes.length ≠ maximumJsonNodes := by
  have hnodes := hs.nodes_le
  have hgrows : (d.tables.push .nullValue).nodes.length = d.tables.nodes.length + 1 :=
    length_append
  rw [roomFor_iff .nullValue, hleaf]
  constructor
  · intro h
    have hr : (d.tables.push .nullValue).nodes.length + 0 ≤ maximumJsonNodes := h.nodes
    omega
  intro h
  refine ⟨?_, hs.members_le, hs.elements_le⟩
  change (d.tables.push .nullValue).nodes.length + 0 ≤ maximumJsonNodes
  omega

/-- The tables with a node that has no children. -/
theorem enter_leaf (change : JsonNode → JsonNode) (hleaf : t.children = [])
    (hnode : change { type := type } = { nodeOf t with raw := [] }) :
    ({ d.tables.push type with
      nodes := (d.tables.push type).nodes.modify d.tables.nodes.length change } : JsonTables) =
      d.tables.enter t := by
  unfold push enter record
  rw [modify_append, hnode, links_eq, hleaf]
  simp [linkChildren, extend, memberRows, elementRows, preorderAll]

theorem enter_push (hleaf : t.children = [])
    (hnode : ({ type := type } : JsonNode) = { nodeOf t with raw := [] }) :
    d.tables.push type = d.tables.enter t := by
  unfold push enter record
  rw [hnode, links_eq, hleaf]
  simp [linkChildren, extend, memberRows, elementRows, preorderAll]

/-- What the branches of `parse_value` have in common. -/
def TokenRead (levels : ℕ) (d : JsonDocument) (output : ℕ) (d' : JsonDocument) : Prop :=
  ∃ t rest, d.remaining = t.raw ++ rest ∧ WellFormed t ∧ t.height ≤ levels ∧ d.tables.RoomFor t ∧
    output = d.tables.nodes.length ∧ d' = d.put (d.tables.enter t) t.raw.length

theorem remaining_put_zero {tables : JsonTables} : (d.put tables 0).remaining = d.remaining := rfl

theorem height_leaf (hleaf : t.children = []) : t.height ≤ levels := by
  rw [height_le_iff, hleaf]
  intro child hchild
  cases hchild

theorem literal_reads (hs : d.tables.Sound) (ht : d.remaining.take count = t.raw)
    (hn : t.raw.length = count) (hwell : WellFormed t) (hleaf : t.children = [])
    (hlen : d.tables.nodes.length ≠ maximumJsonNodes) :
    TokenRead levels d d.tables.nodes.length (d.put (d.tables.enter t) count) := by
  refine ⟨t, d.remaining.drop count, ?_, hwell, height_leaf hleaf,
    (roomFor_leaf hs hleaf).mpr hlen, rfl, ?_⟩
  · rw [← ht, take_append_drop]
  · rw [hn]

variable {children : List (Option Text × Json)} {pieces : List Text}

/-- The children of an array are its items. -/
theorem items_of_written (h : Forall₂ (ElementWritten levels) children pieces) :
    ∃ items : List Json, children = items.map (fun item => (none, item)) ∧
      pieces = items.map raw ∧ ∀ item ∈ items, WellFormed item := by
  induction h with
  | nil => exact ⟨[], rfl, rfl, fun _ h => by cases h⟩
  | @cons child piece _ _ hchild _ ih =>
    obtain ⟨items, rfl, rfl, hitems⟩ := ih
    obtain ⟨key, t⟩ := child
    obtain ⟨rfl, hwell, _, rfl⟩ := hchild
    exact ⟨t :: items, rfl, rfl, forall_mem_cons.mpr ⟨hwell, hitems⟩⟩

theorem members_of_written (h : Forall₂ (MemberWritten levels) children pieces) :
    ∃ members : List (Text × Json), children = members.map (fun m => (some m.1, m.2)) ∧
      Forall₂ (fun member piece => MemberText member.1 member.2.raw piece) members pieces ∧
      ∀ member ∈ members, WellFormed member.2 := by
  induction h with
  | nil => exact ⟨[], rfl, .nil, fun _ h => by cases h⟩
  | @cons child piece _ _ hchild _ ih =>
    obtain ⟨members, rfl, hp, hmems⟩ := ih
    obtain ⟨label, t⟩ := child
    obtain ⟨hwell, _, key, rfl, ht⟩ := hchild
    exact ⟨(key, t) :: members, rfl, .cons ht hp, forall_mem_cons.mpr ⟨hwell, hmems⟩⟩

theorem heights_of_written {Written : Option Text × Json → Text → Prop}
    (hh : ∀ child piece, Written child piece → child.2.height < levels)
    (h : Forall₂ Written children pieces) : ∀ child ∈ children, child.2.height < levels := by
  induction h with
  | nil => exact fun _ h => by cases h
  | cons hchild _ ih => exact forall_mem_cons.mpr ⟨hh _ _ hchild, ih⟩

variable {close first : Byte} {inner : Text} {child : Parser Unit} {items : List Json}

/-- An object or array, from what the loop over its children has read. -/
theorem container_reads (spec : ChildSpec child (Option Text × Json))
    (hf : spec.Fits = ChildFits d.tables.nodes.length)
    (hn : spec.next = recordChild d.tables.nodes.length) (hs : d.tables.Sound)
    (hlen : d.tables.nodes.length ≠ maximumJsonNodes) (hfirst : d.remaining = first :: text)
    (hread : spec.Read close ((d.put (d.tables.push type) 0).advance 1) children inner rest)
    (hchildren : t.children = children) (hraw : t.raw = first :: (inner ++ [close]))
    (htype : ({ nodeOf t with raw := [] } : JsonNode) = { type := type })
    (hwell : (children.filterMap Prod.fst).Nodup → WellFormed t)
    (hh : ∀ child ∈ children, child.2.height < levels) :
    TokenRead levels d d.tables.nodes.length
      ((d.put (d.tables.push type) 0).put (children.foldl spec.next (d.tables.push type))
        (inner.length + 2)) := by
  have hpar : d.tables.nodes.length < (d.tables.push type).nodes.length := by
    rw [show (d.tables.push type).nodes.length = d.tables.nodes.length + 1 from length_append]
    omega
  have hall := hread.fits
  rw [hf, hn] at hall
  obtain ⟨hr, hnodup, _⟩ :=
    (fitsAll_iff (sound_push hs hlen) hpar).mp hall
  refine ⟨t, rest, ?_, hwell hnodup, ?_, ?_, rfl, ?_⟩
  · have ht : text = inner ++ close :: rest :=
      (remaining_advance [first] hfirst).symm.trans hread.text
    rw [hfirst, ht, hraw]
    simp
  · rw [height_le_iff, hchildren]
    exact hh
  · rw [roomFor_iff type, hchildren]
    exact hr
  · rw [hn, foldl_recordChild, ← hchildren, extend_push htype, hraw]
    simp

theorem token_reads (h : ValueSpec value levels) (hs : d.tables.Sound)
    (hy : Yields (parseToken value d.remaining) d output d') :
    TokenRead levels d output d' := by
  unfold parseToken at hy
  split at hy
  · rw [yields_appendNode_bind] at hy
    obtain ⟨hlen, hy⟩ := hy
    obtain ⟨body, d₁, hstr, hy⟩ := yields_bind.mp hy
    obtain ⟨rest, ht, hbody, rfl⟩ := yields_parseString.mp hstr
    rw [yields_setNode_bind, yields_pure] at hy
    obtain ⟨rfl, rfl⟩ := hy
    refine ⟨.string body, rest, ?_, .string hbody, height_leaf rfl,
      (roomFor_leaf hs rfl).mpr hlen, rfl, ?_⟩
    · rw [remaining_put_zero] at ht
      rw [ht]
      simp [raw]
    have htables := enter_leaf (d := d) (t := .string body) (fun n => { n with string := body })
      rfl rfl
    rw [advance_eq_put, put_put, put_put]
    refine congrArg₂ d.put htables ?_
    simp [raw]
  split at hy
  · rename_i hhead
    obtain ⟨text, hfirst⟩ := head?_eq_some_iff.mp hhead
    rw [yields_appendNode_bind] at hy
    obtain ⟨hlen, hy⟩ := hy
    obtain ⟨_, d₁, hobject, hy⟩ := yields_bind.mp hy
    rw [yields_pure] at hy
    obtain ⟨rfl, rfl⟩ := hy
    obtain ⟨children, inner, rest, hread, rfl⟩ :=
      parseSequence_reads (memberSpec h d.tables.nodes.length)
        ⟨sound_push hs hlen, by simp [push]⟩ hobject
    obtain ⟨pieces, hlay, hp⟩ := hread.written
    obtain ⟨members, hmems, htexts, hwell⟩ := members_of_written hp
    refine container_reads (memberSpec h d.tables.nodes.length)
      (t := .object (openBrace :: (inner ++ [closeBrace])) members) rfl rfl hs hlen hfirst
      hread hmems.symm rfl rfl ?_ (heights_of_written (fun _ _ hw => hw.height) hp)
    intro hnodup
    refine .object hwell ?_ htexts hlay
    rw [hmems] at hnodup
    simpa [filterMap_map, Function.comp_def] using hnodup
  split at hy
  · rename_i hhead
    obtain ⟨text, hfirst⟩ := head?_eq_some_iff.mp hhead
    rw [yields_appendNode_bind] at hy
    obtain ⟨hlen, hy⟩ := hy
    obtain ⟨_, d₁, harray, hy⟩ := yields_bind.mp hy
    rw [yields_pure] at hy
    obtain ⟨rfl, rfl⟩ := hy
    obtain ⟨children, inner, rest, hread, rfl⟩ :=
      parseSequence_reads (elementSpec h d.tables.nodes.length)
        ⟨sound_push hs hlen, by simp [push]⟩ harray
    obtain ⟨pieces, hlay, hp⟩ := hread.written
    obtain ⟨items, hitems, htexts, hwell⟩ := items_of_written hp
    refine container_reads (elementSpec h d.tables.nodes.length)
      (t := .array (openBracket :: (inner ++ [closeBracket])) items) rfl rfl hs hlen hfirst
      hread hitems.symm rfl rfl ?_ (heights_of_written (fun _ _ hw => hw.height) hp)
    intro _
    rw [htexts] at hlay
    exact .array hwell hlay
  split at hy
  · rename_i ht
    rw [yields_appendNode_bind, yields_setNode_bind, yields_advance_bind, yields_pure] at hy
    obtain ⟨hlen, rfl, rfl⟩ := hy
    have htables := enter_leaf (d := d) (t := .boolean true) (fun n => { n with boolean := true })
      rfl rfl
    exact htables ▸ literal_reads (t := .boolean true) hs ht rfl (.boolean true) rfl hlen
  split at hy
  · rename_i ht
    rw [yields_appendNode_bind, yields_advance_bind, yields_pure] at hy
    obtain ⟨hlen, rfl, rfl⟩ := hy
    have htables := enter_push (d := d) (t := .boolean false) rfl rfl
    exact htables ▸ literal_reads (t := .boolean false) hs ht rfl (.boolean false) rfl hlen
  split at hy
  · rename_i ht
    rw [yields_appendNode_bind, yields_advance_bind, yields_pure] at hy
    obtain ⟨hlen, rfl, rfl⟩ := hy
    have htables := enter_push (d := d) (t := .null) rfl rfl
    exact htables ▸ literal_reads (t := .null) hs ht rfl .null rfl hlen
  rw [yields_appendNode_bind] at hy
  obtain ⟨hlen, hy⟩ := hy
  obtain ⟨number, d₁, hnum, hy⟩ := yields_bind.mp hy
  obtain ⟨digits, rest, ht, hdec, _, hf, rfl, rfl⟩ :=
    yields_parseNumber.mp hnum
  rw [yields_setNode_bind, yields_pure] at hy
  obtain ⟨rfl, rfl⟩ := hy
  refine ⟨.number digits, rest, ht, .number hdec hf, height_leaf rfl,
    (roomFor_leaf hs rfl).mpr hlen, rfl, ?_⟩
  have htables := enter_leaf (d := d) (t := .number digits)
    (fun n => { n with number := decimalValue digits }) rfl rfl
  rw [advance_eq_put, put_put, put_put]
  refine congrArg₂ d.put htables ?_
  simp [raw]

theorem take_ne_of_head {literal : Text} (other : Byte) (hhead : text.head? = some first)
    (hliteral : literal.head? = some other) (hne : first ≠ other) (hn : count ≠ 0) :
    text.take count ≠ literal := by
  intro h
  have hf := head?_take (l := text) (i := count)
  rw [h, hliteral, hhead, if_neg hn] at hf
  exact hne (Option.some.inj hf).symm

theorem node_of_room (hr : d.tables.RoomFor t) : d.tables.nodes.length ≠ maximumJsonNodes := by
  have hnodes := hr.nodes
  rw [preorder_eq, length_cons] at hnodes
  omega

/-- An object or array is read if the loop over its children reads them. -/
theorem container_accepts (spec : ChildSpec child (Option Text × Json))
    (hgood : spec.Good = Parented d.tables.nodes.length)
    (hf : spec.Fits = ChildFits d.tables.nodes.length)
    (hnext : spec.next = recordChild d.tables.nodes.length)
    (hclose : Closing close)
    (hopen : ∀ {x piece}, spec.Written x piece → ∀ rest, (piece ++ rest).head? ≠ some close)
    (hs : d.tables.Sound) (hr : d.tables.RoomFor t)
    (hraw : t.raw = first :: (inner ++ [close])) (ht : d.remaining = t.raw ++ rest)
    (htype : ({ nodeOf t with raw := [] } : JsonNode) = { type := type })
    (hlay : Layout pieces inner) (hw : Forall₂ spec.Written t.children pieces)
    (hkeys : (t.children.filterMap Prod.fst).Nodup) :
    Yields (parseSequence close child) (d.put (d.tables.push type) 0) ()
      (d.put (d.tables.enter t) t.raw.length) := by
  have hgrows : (d.tables.push type).nodes.length = d.tables.nodes.length + 1 := length_append
  have hlen := node_of_room hr
  have hparented : Parented d.tables.nodes.length (d.tables.push type) :=
    ⟨sound_push hs hlen, by omega⟩
  have hfirst : d.remaining = [first] ++ (inner ++ close :: rest) := by
    rw [ht, hraw]
    simp
  have hread :
      spec.Read close ((d.put (d.tables.push type) 0).advance 1) t.children inner rest := by
    refine ⟨remaining_advance [first] hfirst, ⟨pieces, hlay, hw⟩, ?_⟩
    rw [hf, hnext]
    refine (fitsAll_iff hparented.1 hparented.2).mpr ⟨(roomFor_iff type).mp hr, hkeys, ?_⟩
    intro key _ member hm hpar
    have hold := hs.parents member hm
    omega
  have hseq := parseSequence_accepts (d := d.put (d.tables.push type) 0) spec hclose
    hopen (hgood ▸ hparented) hread
  rw [hnext, put_put, tables_put, foldl_recordChild, extend_push htype] at hseq
  have hn : 0 + (inner.length + 2) = t.raw.length := by
    rw [hraw]
    simp
  rwa [hn] at hseq

/-- No value begins with the bracket that ends an array. -/
theorem head_ne_closeBracket (hwell : WellFormed t) (rest : Text) :
    (t.raw ++ rest).head? ≠ some closeBracket := by
  intro h
  cases hwell with
  | null | string _ | array _ _ | object _ _ _ _ => exact absurd (Option.some.inj h) (by decide)
  | boolean value => cases value <;> exact absurd (Option.some.inj h) (by decide)
  | number hdig _ =>
    obtain ⟨d, more, rfl, hd⟩ := hdig.cons
    rw [show d = closeBracket from Option.some.inj h] at hd
    exact absurd hd (by decide)

theorem elements_written (hitems : ∀ item ∈ items, WellFormed item)
    (hh : ∀ item ∈ items, item.height < levels) :
    Forall₂ (ElementWritten levels) (items.map fun item => (none, item))
      (items.map raw) := by
  induction items with
  | nil => exact .nil
  | cons item rest ih =>
    rw [forall_mem_cons] at hitems hh
    exact .cons ⟨rfl, hitems.1, hh.1, rfl⟩ (ih hitems.2 hh.2)

variable {members : List (Text × Json)}

theorem members_written (hmems : ∀ member ∈ members, WellFormed member.2)
    (hh : ∀ member ∈ members, member.2.height < levels)
    (hp : Forall₂ (fun member piece => MemberText member.1 member.2.raw piece)
      members pieces) :
    Forall₂ (MemberWritten levels) (members.map fun m => (some m.1, m.2)) pieces := by
  induction hp with
  | nil => exact .nil
  | @cons member _ _ _ hpiece _ ih =>
    rw [forall_mem_cons] at hmems hh
    exact .cons ⟨hmems.1, hh.1, member.1, rfl, hpiece⟩ (ih hmems.2 hh.2)

theorem array_accepts (h : ValueSpec value levels) (hs : d.tables.Sound)
    (hitems : ∀ item ∈ items, WellFormed item) (hlay : Layout (items.map raw) inner)
    (hh : ∀ item ∈ items, item.height < levels)
    (ht : d.remaining = openBracket :: (inner ++ [closeBracket]) ++ rest)
    (hr : d.tables.RoomFor (.array (openBracket :: (inner ++ [closeBracket])) items)) :
    Yields (do
      let output ← appendNode .array
      parseArray value output
      pure output) d d.tables.nodes.length
      (d.put (d.tables.enter (.array (openBracket :: (inner ++ [closeBracket])) items))
        (openBracket :: (inner ++ [closeBracket])).length) := by
  rw [yields_appendNode_bind]
  refine ⟨node_of_room hr, yields_bind.mpr ⟨(), _, ?_, yields_pure.mpr ⟨rfl, rfl⟩⟩⟩
  refine container_accepts (elementSpec h d.tables.nodes.length)
    (t := .array (openBracket :: (inner ++ [closeBracket])) items) rfl rfl rfl
    ⟨by decide, by decide, by decide⟩ ?_ hs hr rfl ht rfl hlay
    (elements_written hitems hh) ?_
  · intro child piece hw rest
    rw [hw.piece]
    exact head_ne_closeBracket hw.value rest
  · simp [children, filterMap_map]

theorem object_accepts (h : ValueSpec value levels) (hs : d.tables.Sound)
    (hmems : ∀ member ∈ members, WellFormed member.2) (hkeys : (members.map Prod.fst).Nodup)
    (hp : Forall₂ (fun member piece => MemberText member.1 member.2.raw piece) members pieces)
    (hlay : Layout pieces inner) (hh : ∀ member ∈ members, member.2.height < levels)
    (ht : d.remaining = openBrace :: (inner ++ [closeBrace]) ++ rest)
    (hr : d.tables.RoomFor (.object (openBrace :: (inner ++ [closeBrace])) members)) :
    Yields (do
      let output ← appendNode .object
      parseObject value output
      pure output) d d.tables.nodes.length
      (d.put (d.tables.enter (.object (openBrace :: (inner ++ [closeBrace])) members))
        (openBrace :: (inner ++ [closeBrace])).length) := by
  rw [yields_appendNode_bind]
  refine ⟨node_of_room hr, yields_bind.mpr ⟨(), _, ?_, yields_pure.mpr ⟨rfl, rfl⟩⟩⟩
  refine container_accepts (memberSpec h d.tables.nodes.length)
    (t := .object (openBrace :: (inner ++ [closeBrace])) members) rfl rfl rfl
    ⟨by decide, by decide, by decide⟩ ?_ hs hr rfl ht rfl hlay
    (members_written hmems hh hp) ?_
  · intro child piece hw rest
    obtain ⟨_, _, key, _, hpiece⟩ := hw
    cases hpiece
    exact fun hquote => absurd (Option.some.inj hquote) (by decide)
  · simpa [children, filterMap_map, Function.comp_def] using hkeys

theorem token_accepts (h : ValueSpec value levels) (hs : d.tables.Sound)
    (ht : d.remaining = t.raw ++ rest) (hwell : WellFormed t) (hh : t.height ≤ levels)
    (hended : Ended rest) (hr : d.tables.RoomFor t) :
    Yields (parseToken value d.remaining) d d.tables.nodes.length
      (d.put (d.tables.enter t) t.raw.length) := by
  rw [height_le_iff] at hh
  unfold parseToken
  cases hwell with
  | null =>
    have hhead : d.remaining.head? = some 0x6e#8 := by rw [ht]; rfl
    have htake : d.remaining.take 4 = ascii "null" := by rw [ht]; rfl
    rw [if_neg (by rw [hhead]; decide), if_neg (by rw [hhead]; decide),
      if_neg (by rw [hhead]; decide), if_neg (by rw [htake]; decide),
      if_neg (take_ne_of_head 0x66#8 hhead rfl (by decide) (by decide)), if_pos htake,
      yields_appendNode_bind, yields_advance_bind, yields_pure]
    exact ⟨(roomFor_leaf hs rfl).mp hr, rfl,
      congrArg₂ d.put (enter_push (d := d) (t := .null) rfl rfl).symm rfl⟩
  | boolean value =>
    cases value with
    | false =>
      have hhead : d.remaining.head? = some 0x66#8 := by rw [ht]; rfl
      have htake : d.remaining.take 5 = ascii "false" := by rw [ht]; rfl
      rw [if_neg (by rw [hhead]; decide), if_neg (by rw [hhead]; decide),
        if_neg (by rw [hhead]; decide),
        if_neg (take_ne_of_head 0x74#8 hhead rfl (by decide) (by decide)), if_pos htake,
        yields_appendNode_bind, yields_advance_bind, yields_pure]
      exact ⟨(roomFor_leaf hs rfl).mp hr, rfl,
        congrArg₂ d.put (enter_push (d := d) (t := .boolean false) rfl rfl).symm rfl⟩
    | true =>
      have hhead : d.remaining.head? = some 0x74#8 := by rw [ht]; rfl
      have htake : d.remaining.take 4 = ascii "true" := by rw [ht]; rfl
      rw [if_neg (by rw [hhead]; decide), if_neg (by rw [hhead]; decide),
        if_neg (by rw [hhead]; decide), if_pos htake, yields_appendNode_bind, yields_setNode_bind,
        yields_advance_bind, yields_pure]
      exact ⟨(roomFor_leaf hs rfl).mp hr, rfl, congrArg₂ d.put
        (enter_leaf (d := d) (t := .boolean true) (fun n => { n with boolean := true }) rfl
          rfl).symm rfl⟩
  | @number digits hdig hf =>
    obtain ⟨first, more, hcons, hfirst⟩ := hdig.cons
    have hhead : d.remaining.head? = some first := by
      rw [ht]
      rw [hcons]
      rfl
    have ho {c : Byte} (hc : isDigit c = false) : first ≠ c := by
      intro heq
      rw [heq, hc] at hfirst
      cases hfirst
    rw [hhead, if_neg (fun heq => ho (by decide) (Option.some.inj heq)),
      if_neg (fun heq => ho (by decide) (Option.some.inj heq)),
      if_neg (fun heq => ho (by decide) (Option.some.inj heq)),
      if_neg (take_ne_of_head 0x74#8 hhead rfl (ho (by decide)) (by decide)),
      if_neg (take_ne_of_head 0x66#8 hhead rfl (ho (by decide)) (by decide)),
      if_neg (take_ne_of_head 0x6e#8 hhead rfl (ho (by decide)) (by decide)),
      yields_appendNode_bind]
    refine ⟨(roomFor_leaf hs rfl).mp hr, yields_bind.mpr ⟨decimalValue digits, _,
      yields_parseNumber.mpr ⟨digits, rest, ht, hdig, hended, hf, rfl, rfl⟩, ?_⟩⟩
    rw [yields_setNode_bind, yields_pure]
    refine ⟨rfl, congrArg₂ d.put (enter_leaf (d := d) (t := .number digits)
      (fun n => { n with number := decimalValue digits }) rfl rfl).symm ?_⟩
    simp [raw]
  | @string body hbody =>
    have hhead : d.remaining.head? = some quote := by rw [ht]; rfl
    have hstr : d.remaining = quote :: (body ++ quote :: rest) := by
      rw [ht]
      simp [raw]
    rw [if_pos hhead, yields_appendNode_bind]
    refine ⟨(roomFor_leaf hs rfl).mp hr, yields_bind.mpr ⟨body, _,
      yields_parseString.mpr ⟨rest, hstr, hbody, rfl⟩, ?_⟩⟩
    rw [yields_setNode_bind, yields_pure]
    refine ⟨rfl, congrArg₂ d.put (enter_leaf (d := d) (t := .string body)
      (fun n => { n with string := body }) rfl rfl).symm ?_⟩
    simp [raw]
  | @array inner items hitems hlay =>
    have hhead : d.remaining.head? = some openBracket := by rw [ht]; rfl
    rw [if_neg (by rw [hhead]; decide), if_neg (by rw [hhead]; decide), if_pos hhead]
    exact array_accepts h hs hitems hlay
      (fun item hitem => hh (none, item) (mem_map_of_mem hitem)) ht hr
  | @object inner members pieces hmems hkeys hp hlay =>
    have hhead : d.remaining.head? = some openBrace := by rw [ht]; rfl
    rw [if_neg (by rw [hhead]; decide), if_pos hhead]
    exact object_accepts h hs hmems hkeys hp hlay (fun member hm =>
      hh (some member.1, member.2) (mem_map_of_mem hm)) ht hr

theorem appendNode_halts : Halts (appendNode type) d := by
  refine halts_bind halts_getTables fun _ _ _ => halts_bind halts_check fun _ _ _ => ?_
  exact halts_bind halts_setTables fun _ _ _ => halts_pure

theorem setNode_halts : Halts (setNode index change) d :=
  halts_bind halts_getTables fun _ _ _ => halts_setTables

theorem parseNumber_halts : Halts parseNumber d := by
  refine halts_bind halts_look fun _ _ _ => halts_bind halts_check fun _ _ _ => ?_
  refine halts_bind halts_check fun _ _ _ => halts_bind halts_check fun _ _ _ => ?_
  exact halts_bind halts_advance fun _ _ _ => halts_pure

/-- The loop over the children ends, whatever they are. -/
theorem container_halts {child : ℕ → Parser Unit}
    (spec : ∀ parent, ChildSpec (child parent) (Option Text × Json))
    (hgood : ∀ parent, (spec parent).Good = Parented parent) (hs : d.tables.Sound) :
    Halts (do
      let output ← appendNode type
      parseSequence close (child output)
      pure output) d := by
  apply halts_bind appendNode_halts
  intro output d₁ happend
  rw [← bind_pure (appendNode type), yields_appendNode_bind, yields_pure] at happend
  obtain ⟨hlen, rfl, rfl⟩ := happend
  refine halts_bind (parseSequence_halts (spec d.tables.nodes.length) ?_)
    fun _ _ _ => halts_pure
  rw [hgood]
  exact ⟨sound_push hs hlen, by simp [push]⟩

theorem token_halts (h : ValueSpec value levels) (hs : d.tables.Sound) :
    Halts (parseToken value text) d := by
  unfold parseToken
  split
  · refine halts_bind appendNode_halts fun _ _ _ => halts_bind parseString_halts fun _ _ _ => ?_
    exact halts_bind setNode_halts fun _ _ _ => halts_pure
  split
  · exact container_halts (memberSpec h) (fun _ => rfl) hs
  split
  · exact container_halts (elementSpec h) (fun _ => rfl) hs
  split
  · refine halts_bind appendNode_halts fun _ _ _ => halts_bind setNode_halts fun _ _ _ => ?_
    exact halts_bind halts_advance fun _ _ _ => halts_pure
  iterate 2
    split
    · refine halts_bind appendNode_halts fun _ _ _ => ?_
      exact halts_bind halts_advance fun _ _ _ => halts_pure
  · refine halts_bind appendNode_halts fun _ _ _ => halts_bind parseNumber_halts fun _ _ _ => ?_
    exact halts_bind setNode_halts fun _ _ _ => halts_pure

end

section

variable {levels : ℕ}

theorem parseValue_halts (h : ValueSpec (parseValue levels) levels) {d : JsonDocument}
    (hs : d.tables.Sound) : Halts (parseValue (levels + 1)) d := by
  apply halts_bind halts_skipSpace
  intro _ _ hskip
  obtain ⟨blank, _, _, _, _, rfl, _⟩ := skipSpace_reads hskip
  apply halts_bind halts_look
  intro _ _ hlook
  rw [(yields_look.mp hlook).2]
  apply halts_bind halts_check
  intro _ _ hcheck
  rw [(yields_check.mp hcheck).2]
  apply halts_bind (token_halts (d := d.put d.tables blank.length) h hs)
  intro _ _ _
  refine halts_bind halts_look fun _ _ _ => halts_bind setNode_halts fun _ _ _ => ?_
  exact halts_pure

/-- The text of a value is what has been read of the text that was left. -/
theorem raw_of_lengths (raw rest : Text) :
    (raw ++ rest).take ((raw ++ rest).length - rest.length) = raw := by
  rw [length_append, Nat.add_sub_cancel]
  exact take_left

theorem parseValue_reads (h : ValueSpec (parseValue levels) levels) {d d' : JsonDocument}
    {output : ℕ} (hs : d.tables.Sound) (hy : Yields (parseValue (levels + 1)) d output d') :
    ∃ blank t rest, d.remaining = blank ++ (t.raw ++ rest) ∧ Blank blank ∧ WellFormed t ∧
      t.height < levels + 1 ∧ d.tables.RoomFor t ∧ output = d.tables.nodes.length ∧
      d' = d.put (d.tables.record t) (blank.length + t.raw.length) := by
  obtain ⟨_, d₁, hskip, hy⟩ := yields_bind.mp hy
  obtain ⟨blank, text, ht, hblank, _, rfl, hleft⟩ := skipSpace_reads hskip
  rw [yields_look_bind, yields_check_bind] at hy
  obtain ⟨_, hy⟩ := hy
  obtain ⟨_, d₂, htoken, hy⟩ := yields_bind.mp hy
  obtain ⟨t, rest, hraw, hwell, hh, hr, rfl, rfl⟩ :=
    token_reads (d := d.put d.tables blank.length) h hs htoken
  rw [hleft] at hraw
  have ha := remaining_put ((d.put d.tables blank.length).tables.enter t) (hleft.trans hraw)
  rw [yields_look_bind, yields_setNode_bind, yields_pure, hleft, ha, hraw,
    raw_of_lengths] at hy
  obtain ⟨rfl, rfl⟩ := hy
  refine ⟨blank, t, rest, by rw [ht, hraw], hblank, hwell, by omega, hr, rfl, ?_⟩
  rw [put_put, put_put, tables_put, tables_put, record_of_enter]
  rfl

theorem parseValue_accepts (h : ValueSpec (parseValue levels) levels) {d : JsonDocument}
    {blank rest : Text} {t : Json} (hs : d.tables.Sound)
    (ht : d.remaining = blank ++ (t.raw ++ rest)) (hblank : Blank blank) (hwell : WellFormed t)
    (hh : t.height < levels + 1) (hended : Ended rest) (hr : d.tables.RoomFor t) :
    Yields (parseValue (levels + 1)) d d.tables.nodes.length
      (d.put (d.tables.record t) (blank.length + t.raw.length)) := by
  have hleft := remaining_put d.tables ht
  have htoken := token_accepts (d := d.put d.tables blank.length) h hs hleft hwell
    (by omega) hended hr
  have ha := remaining_put ((d.put d.tables blank.length).tables.enter t) hleft
  refine yields_bind.mpr ⟨(), d.put d.tables blank.length,
    (yields_skipSpace_of ht hblank (hwell.tight rest)).mpr rfl, ?_⟩
  rw [yields_look_bind, yields_check_bind]
  refine ⟨?_, yields_bind.mpr ⟨_, _, htoken, ?_⟩⟩
  · rw [hleft]
    exact fun hnil => hwell.raw_ne_nil (append_eq_nil_iff.mp hnil).1
  rw [yields_look_bind, yields_setNode_bind, yields_pure, ha, hleft, raw_of_lengths,
    put_put, put_put, tables_put, tables_put,
    record_of_enter]
  exact ⟨rfl, rfl⟩

theorem parseValue_spec (levels : ℕ) : ValueSpec (parseValue levels) levels := by
  induction levels with
  | zero =>
    refine ⟨fun _ => halts_throw, fun _ h => (not_yields_throw h).elim, ?_⟩
    intro d blank rest t _ _ _ _ hh
    omega
  | succ levels ih =>
    exact ⟨parseValue_halts ih, parseValue_reads ih, parseValue_accepts ih⟩

end

end Laghu.Evaluator
