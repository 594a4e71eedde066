import Laghu.EvaluatorDocuments

/-!
What a tree leaves in the tables of a document. Its values stand there in preorder, and the
entries of an object or array in between those of the values in it, as the parser comes past
them; `Room` is what the tables must have left for it.
-/

namespace Laghu.JsonTexts.Json

/-- The values in an object or array, with their keys if they have one. -/
def children : Json → List (Option Text × Json)
  | .array _ items => items.map fun item => (none, item)
  | .object _ members => members.map fun member => (some member.1, member.2)
  | _ => []

theorem induction_children {P : Json → Prop} (h : ∀ t, (∀ child ∈ t.children, P child.2) → P t)
    (t : Json) : P t := by
  induction t using childrenInduction with
  | null | boolean value | number digits | string body => exact h _ fun _ hmem => by cases hmem
  | array raw items ih =>
    apply h
    intro child hmem
    obtain ⟨item, hitem, rfl⟩ := List.mem_map.mp hmem
    exact ih item hitem
  | object raw members ih =>
    apply h
    intro child hmem
    obtain ⟨member, hm, rfl⟩ := List.mem_map.mp hmem
    exact ih member hm

def preorderAll (children : List (Option Text × Json)) : List Json :=
  children.flatMap fun child => child.2.preorder

@[simp] theorem preorderAll_cons (child : Option Text × Json) (rest : List (Option Text × Json)) :
    preorderAll (child :: rest) = child.2.preorder ++ preorderAll rest := rfl

theorem preorder_eq (t : Json) : t.preorder = t :: preorderAll t.children := by
  have hitems : ∀ items : List Json,
      preorderItems items = preorderAll (items.map fun item => (none, item)) := by
    intro items
    induction items with
    | nil => rfl
    | cons item rest ih => rw [preorderItems, ih, List.map_cons, preorderAll_cons]
  have hmems : ∀ members : List (Text × Json),
      preorderMembers members = preorderAll (members.map fun m => (some m.1, m.2)) := by
    intro members
    induction members with
    | nil => rfl
    | cons member rest ih => rw [preorderMembers, ih, List.map_cons, preorderAll_cons]
  cases t with
  | array raw items => rw [preorder, hitems, children]
  | object raw members => rw [preorder, hmems, children]
  | _ => rfl

theorem height_le_iff (t : Json) (n : ℕ) :
    t.height ≤ n ↔ ∀ child ∈ t.children, child.2.height < n := by
  have hitems : ∀ items : List Json, heightItems items ≤ n ↔ ∀ item ∈ items, item.height < n := by
    intro items
    induction items with
    | nil => simp [heightItems]
    | cons item rest ih =>
      rw [heightItems, List.forall_mem_cons, ← ih]
      omega
  have hmems : ∀ members : List (Text × Json),
      heightMembers members ≤ n ↔ ∀ member ∈ members, member.2.height < n := by
    intro members
    induction members with
    | nil => simp [heightMembers]
    | cons member rest ih =>
      rw [heightMembers, List.forall_mem_cons, ← ih]
      omega
  cases t with
  | array raw items =>
    rw [height, hitems, children, List.forall_mem_map]
  | object raw members =>
    rw [height, hmems, children, List.forall_mem_map]
  | _ => simp [height, children]

end Laghu.JsonTexts.Json

namespace Laghu.Evaluator

open JsonTexts List Json

/-- A member, or an element if it has no key. -/
structure Link where
  parent : ℕ
  key : Option Text
  value : ℕ

-- The entries of a tree whose root has index `base`.
mutual
def links (base : ℕ) : Json → List Link
  | .array _ items => linkItems base (base + 1) items
  | .object _ members => linkMembers base (base + 1) members
  | _ => []

def linkItems (parent next : ℕ) : List Json → List Link
  | [] => []
  | item :: rest => links next item ++ ⟨parent, none, next⟩ ::
      linkItems parent (next + item.preorder.length) rest

def linkMembers (parent next : ℕ) : List (Text × Json) → List Link
  | [] => []
  | (key, value) :: rest => links next value ++ ⟨parent, some key, next⟩ ::
      linkMembers parent (next + value.preorder.length) rest
end

def linkChildren (parent next : ℕ) : List (Option Text × Json) → List Link
  | [] => []
  | (key, value) :: rest => links next value ++ ⟨parent, key, next⟩ ::
      linkChildren parent (next + value.preorder.length) rest

theorem links_eq (base : ℕ) (t : Json) :
    links base t = linkChildren base (base + 1) t.children := by
  have hitems : ∀ (items : List Json) (next : ℕ),
      linkItems base next items = linkChildren base next (items.map fun item => (none, item)) := by
    intro items
    induction items with
    | nil => exact fun _ => rfl
    | cons item rest ih =>
      intro next
      rw [linkItems, ih, map_cons, linkChildren]
  have hmems : ∀ (members : List (Text × Json)) (next : ℕ), linkMembers base next members =
        linkChildren base next (members.map fun m => (some m.1, m.2)) := by
    intro members
    induction members with
    | nil => exact fun _ => rfl
    | cons member rest ih =>
      intro next
      rw [linkMembers, ih, map_cons, linkChildren]
  cases t with
  | array raw items => rw [links, hitems, children]
  | object raw members => rw [links, hmems, children]
  | _ => rfl

/-- The entries of a tree are those of its own values. -/
theorem links_parent (t : Json) (base : ℕ) :
    ∀ link ∈ links base t, base ≤ link.parent ∧ link.parent < base + t.preorder.length := by
  induction t using induction_children generalizing base with
  | h t ih =>
    rw [links_eq, preorder_eq, length_cons]
    suffices hchildren : ∀ (children : List (Option Text × Json)) (next : ℕ),
        (∀ child ∈ children, child ∈ t.children) → base < next →
        ∀ link ∈ linkChildren base next children, base ≤ link.parent ∧
          link.parent < next + (preorderAll children).length ∧
          (link.parent = base ∨ next ≤ link.parent) by
      intro link hl
      have h := hchildren t.children (base + 1) (fun _ h => h) (Nat.lt_succ_self base) link hl
      omega
    intro children
    induction children with
    | nil =>
      intro _ _ _ link hl
      cases hl
    | cons child rest ihrest =>
      intro next hsub hn link hl
      rw [preorderAll_cons, length_append]
      rw [linkChildren] at hl
      rcases mem_append.mp hl with hl | hl
      · have h := ih child (hsub child (mem_cons_self ..)) next link hl
        omega
      rcases mem_cons.mp hl with rfl | hl
      · change base ≤ base ∧ base < _ ∧ (base = base ∨ _)
        omega
      have h := ihrest (next + child.2.preorder.length)
        (fun other h => hsub other (mem_cons_of_mem _ h)) (by omega) link hl
      omega

def nodeOf (t : Json) : JsonNode :=
  match t with
  | .null => { type := .nullValue, raw := t.raw }
  | .boolean value => { type := .boolean, raw := t.raw, boolean := value }
  | .number digits => { type := .number, raw := t.raw, number := decimalValue digits }
  | .string body => { type := .string, raw := t.raw, string := body }
  | .array _ _ => { type := .array, raw := t.raw }
  | .object _ _ => { type := .object, raw := t.raw }

def memberRows (links : List Link) : List JsonMember :=
  links.filterMap fun link => link.key.map fun key => ⟨link.parent, key, link.value⟩

def elementRows (links : List Link) : List JsonElement :=
  links.filterMap fun link =>
    match link.key with
    | none => some ⟨link.parent, link.value⟩
    | some _ => none

/-- How many members and elements there are in some values. -/
def memberSum (trees : List Json) : ℕ := (trees.map Json.memberCount).sum

def elementSum (trees : List Json) : ℕ := (trees.map Json.elementCount).sum

/-- How many of the children are members, and how many elements. -/
def keyed (children : List (Option Text × Json)) : ℕ :=
  (children.filter fun child => child.1.isSome).length

def unkeyed (children : List (Option Text × Json)) : ℕ :=
  (children.filter fun child => child.1.isNone).length

theorem memberCount_eq (t : Json) : t.memberCount = keyed t.children := by
  cases t <;> simp [memberCount, keyed, children, filter_map, Function.comp_def]

theorem elementCount_eq (t : Json) : t.elementCount = unkeyed t.children := by
  cases t <;> simp [elementCount, unkeyed, children, filter_map, Function.comp_def]

theorem rows_length_of_children (children : List (Option Text × Json)) (parent next : ℕ)
    (h : ∀ child ∈ children, ∀ base,
      (memberRows (links base child.2)).length = memberSum child.2.preorder ∧
        (elementRows (links base child.2)).length = elementSum child.2.preorder) :
    (memberRows (linkChildren parent next children)).length =
        memberSum (preorderAll children) + keyed children ∧
      (elementRows (linkChildren parent next children)).length =
        elementSum (preorderAll children) + unkeyed children := by
  induction children generalizing next with
  | nil => exact ⟨rfl, rfl⟩
  | cons child rest ih =>
    obtain ⟨key, value⟩ := child
    have hv := h _ (mem_cons_self ..) next
    have hr := ih (next + value.preorder.length)
      (fun other ho => h other (mem_cons_of_mem _ ho))
    simp only [memberRows, elementRows, memberSum, elementSum, keyed, unkeyed] at hv hr ⊢
    cases key <;>
      simp only [linkChildren, filterMap_append, filterMap_cons, Option.map_none,
        Option.map_some, length_append, preorderAll_cons, map_append,
        sum_append, Option.isSome_none, Option.isSome_some, Option.isNone_none,
        Option.isNone_some, Bool.false_eq_true, not_false_eq_true, filter_cons_of_neg,
        filter_cons_of_pos, length_cons] <;>
      omega

/-- The rows of a tree are as many as its members and elements. -/
theorem rows_length (t : Json) (base : ℕ) :
    (memberRows (links base t)).length = memberSum t.preorder ∧
      (elementRows (links base t)).length = elementSum t.preorder := by
  induction t using induction_children generalizing base with
  | h t ih =>
    have hrows := rows_length_of_children t.children base (base + 1) fun child hchild =>
      ih child hchild
    have hmems := memberCount_eq t
    have helts := elementCount_eq t
    rw [links_eq, preorder_eq]
    simp only [memberSum, elementSum, map_cons, sum_cons] at hrows ⊢
    omega

theorem rows_length_children (children : List (Option Text × Json)) (parent next : ℕ) :
    (memberRows (linkChildren parent next children)).length =
        memberSum (preorderAll children) + keyed children ∧
      (elementRows (linkChildren parent next children)).length =
        elementSum (preorderAll children) + unkeyed children :=
  rows_length_of_children children parent next fun child _ => rows_length child.2

namespace JsonTables

variable {tables : JsonTables}

def extend (tables : JsonTables) (trees : List Json) (links : List Link) : JsonTables where
  nodes := tables.nodes ++ trees.map nodeOf
  members := tables.members ++ memberRows links
  elements := tables.elements ++ elementRows links

def record (tables : JsonTables) (t : Json) : JsonTables :=
  tables.extend t.preorder (links tables.nodes.length t)

def recordChild (parent : ℕ) (tables : JsonTables) (child : Option Text × Json) : JsonTables :=
  tables.extend child.2.preorder
    (links tables.nodes.length child.2 ++ [⟨parent, child.1, tables.nodes.length⟩])

@[simp] theorem extend_extend (trees more : List Json) (first second : List Link) :
    (tables.extend trees first).extend more second =
      tables.extend (trees ++ more) (first ++ second) := by
  simp [extend, memberRows, elementRows]

@[simp] theorem nodes_extend (trees : List Json) (first : List Link) :
    (tables.extend trees first).nodes.length = tables.nodes.length + trees.length := by
  simp [extend]

theorem foldl_recordChild (parent : ℕ) (children : List (Option Text × Json)) :
    children.foldl (recordChild parent) tables = tables.extend (preorderAll children)
        (linkChildren parent tables.nodes.length children) := by
  induction children generalizing tables with
  | nil => simp [preorderAll, linkChildren, extend, memberRows, elementRows]
  | cons child rest ih =>
    rw [foldl_cons, ih, recordChild]
    simp [linkChildren]

/-- The tables hold no more than they can, and entries are of nodes that are there. -/
structure Sound (tables : JsonTables) : Prop where
  nodes_le : tables.nodes.length ≤ maximumJsonNodes
  members_le : tables.members.length ≤ maximumJsonMembers
  elements_le : tables.elements.length ≤ maximumJsonElements
  parents : ∀ member ∈ tables.members, member.parent < tables.nodes.length

/-- There is room for so many values, members and elements. -/
@[mk_iff]
structure Room (tables : JsonTables) (values members elements : ℕ) : Prop where
  nodes : tables.nodes.length + values ≤ maximumJsonNodes
  members : tables.members.length + members ≤ maximumJsonMembers
  elements : tables.elements.length + elements ≤ maximumJsonElements

abbrev RoomFor (tables : JsonTables) (t : Json) : Prop :=
  tables.Room t.preorder.length (memberSum t.preorder) (elementSum t.preorder)

abbrev RoomForAll (tables : JsonTables) (children : List (Option Text × Json)) : Prop :=
  tables.Room (Json.preorderAll children).length
    (memberSum (Json.preorderAll children) + keyed children)
    (elementSum (Json.preorderAll children) + unkeyed children)

variable {members elements values : ℕ} {trees : List Json} {links : List Link}

theorem room_extend :
    (tables.extend trees links).Room values members elements ↔
      tables.Room (trees.length + values) ((memberRows links).length + members)
        ((elementRows links).length + elements) := by
  have hnodes := tables.nodes_extend trees links
  have hmems : (tables.extend trees links).members.length =
      tables.members.length + (memberRows links).length := length_append
  have helts : (tables.extend trees links).elements.length =
      tables.elements.length + (elementRows links).length := length_append
  rw [room_iff, room_iff]
  omega

theorem Room.mono {values' members' elements' : ℕ} (h : tables.Room values members elements)
    (hvals : values' ≤ values) (hmems : members' ≤ members) (helts : elements' ≤ elements) :
    tables.Room values' members' elements' := by
  obtain ⟨h₁, h₂, h₃⟩ := h
  exact ⟨by omega, by omega, by omega⟩

variable {child : Option Text × Json} {rest : List (Option Text × Json)}

/-- The first child takes its room, and the others need theirs. -/
theorem roomForAll_cons (parent : ℕ) :
    tables.RoomForAll (child :: rest) ↔ (tables.recordChild parent child).RoomForAll rest := by
  have hall := rows_length_children (child :: rest) parent tables.nodes.length
  have hr := rows_length_children rest parent (tables.nodes.length + child.2.preorder.length)
  have hlinks : linkChildren parent tables.nodes.length (child :: rest) =
      links tables.nodes.length child.2 ++ [⟨parent, child.1, tables.nodes.length⟩] ++
        linkChildren parent (tables.nodes.length + child.2.preorder.length) rest := by
    simp [linkChildren]
  have hmems (first second : List Link) : (memberRows (first ++ second)).length =
      (memberRows first).length + (memberRows second).length := by
    rw [memberRows, filterMap_append, length_append]
    rfl
  have helts (first second : List Link) : (elementRows (first ++ second)).length =
      (elementRows first).length + (elementRows second).length := by
    rw [elementRows, filterMap_append, length_append]
    rfl
  rw [recordChild, RoomForAll, RoomForAll, room_extend, ← hall.1, ← hall.2, ← hr.1, ← hr.2,
    hlinks, hmems (_ ++ _), helts (_ ++ _), preorderAll_cons, length_append]

theorem RoomForAll.head (h : tables.RoomForAll (child :: rest)) : tables.RoomForAll [child] := by
  refine h.mono ?_ ?_ ?_
  · simp [preorderAll]
  · simp only [preorderAll_cons, memberSum, map_append, sum_append, keyed,
      filter_cons, filter_nil]
    split <;> simp [preorderAll] <;> omega
  simp only [preorderAll_cons, elementSum, map_append, sum_append, unkeyed,
    filter_cons, filter_nil]
  split <;> simp [preorderAll] <;> omega

theorem Sound.extend (h : tables.Sound)
    (hr : tables.Room trees.length (memberRows links).length (elementRows links).length)
    (hparents : ∀ link ∈ links, link.parent < tables.nodes.length + trees.length) :
    (tables.extend trees links).Sound := by
  refine ⟨?_, ?_, ?_, ?_⟩
  · rw [nodes_extend]
    exact hr.nodes
  · change (tables.members ++ memberRows links).length ≤ _
    rw [length_append]
    exact hr.members
  · change (tables.elements ++ elementRows links).length ≤ _
    rw [length_append]
    exact hr.elements
  intro member hm
  rw [nodes_extend]
  rcases mem_append.mp hm with hm | hm
  · have h := h.parents member hm
    omega
  obtain ⟨link, hl, hrow⟩ := mem_filterMap.mp hm
  obtain ⟨key, _, rfl⟩ := Option.map_eq_some_iff.mp hrow
  exact hparents link hl

end JsonTables

end Laghu.Evaluator
