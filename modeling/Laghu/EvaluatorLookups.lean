import Laghu.EvaluatorParsing

/-!
What the lookups of a document find. The entries of a value stand between those of the values
in it, but entries of one parent are in the order of its children, and no other value has
that parent: the lookups find the children, and the children's lookups find theirs.
-/

namespace Laghu.Evaluator

open FallibleSteps JsonTexts List Option JsonDocument Json Evaluator.Parser

/-- A tree is found at a node: its text and contents, and its children in their order. -/
inductive Represents (tables : JsonTables) : ℕ → Json → Prop
  | intro {index : ℕ} {t : Json} (child : ℕ → ℕ)
      (hnode : tables.nodes[index]? = some (nodeOf t))
      (hcount : tables.elementCount (some index) = t.elementCount)
      (helement : ∀ k, tables.element (some index) k =
        if k < t.elementCount then some (child k) else none)
      (hfield : ∀ key, tables.field (some index) key =
        (t.children.findIdx? fun c => c.1 = some key).map child)
      (hchildren : ∀ k c, t.children[k]? = some c → Represents tables (child k) c.2) :
      Represents tables index t

section

variable {base next : ℕ} {t : Json} {children : List (Option Text × Json)} {tables : JsonTables}

/-- Where the `k`-th child stands if the first stands at `next`. -/
def childIndex (next : ℕ) (children : List (Option Text × Json)) (k : ℕ) : ℕ :=
  next + (Json.preorderAll (children.take k)).length

theorem childIndex_succ (child : Option Text × Json) (k : ℕ) :
    childIndex next (child :: children) (k + 1) =
      childIndex (next + child.2.preorder.length) children k := by
  unfold childIndex
  rw [take_succ_cons, preorderAll_cons, length_append]
  omega

/-- The entries of the children themselves. -/
def ownLinks (base next : ℕ) : List (Option Text × Json) → List Link
  | [] => []
  | (key, value) :: rest => ⟨base, key, next⟩ :: ownLinks base (next + value.preorder.length) rest

/-- The entries with a parent from `low` on and below `high`. -/
def between (low high : ℕ) (entries : List Link) : List Link :=
  entries.filter fun link => low ≤ link.parent ∧ link.parent < high

theorem between_append (low high : ℕ) (first second : List Link) :
    between low high (first ++ second) = between low high first ++ between low high second :=
  filter_append first second

theorem between_all {low high : ℕ} {entries : List Link}
    (h : ∀ link ∈ entries, low ≤ link.parent ∧ link.parent < high) :
    between low high entries = entries :=
  filter_eq_self.mpr fun link hl => decide_eq_true (h link hl)

theorem between_none {low high : ℕ} {entries : List Link}
    (h : ∀ link ∈ entries, ¬ (low ≤ link.parent ∧ link.parent < high)) :
    between low high entries = [] :=
  filter_eq_nil_iff.mpr fun link hl => by simpa using h link hl

theorem between_between {low high low' high' : ℕ} (entries : List Link) (hlow : low ≤ low')
    (hhigh : high' ≤ high) :
    between low' high' (between low high entries) = between low' high' entries := by
  unfold between
  rw [List.filter_filter]
  apply filter_congr
  intro link _
  simp only [decide_eq_decide, ← Bool.decide_and]
  omega

theorem linkChildren_parent (hn : base < next) :
    ∀ link ∈ linkChildren base next children, link.parent = base ∨ next ≤ link.parent := by
  induction children generalizing next with
  | nil =>
    intro link hl
    cases hl
  | cons child rest ih =>
    intro link hl
    rcases mem_append.mp hl with hl | hl
    · exact .inr (links_parent child.2 next link hl).1
    rcases mem_cons.mp hl with rfl | hl
    · exact .inl rfl
    · have h := @ih (next + child.2.preorder.length) (by omega) link hl
      omega

theorem between_own (hn : base < next) :
    between base (base + 1) (linkChildren base next children) = ownLinks base next children := by
  induction children generalizing next with
  | nil => rfl
  | cons child rest ih =>
    have hv : between base (base + 1) (links next child.2) = [] := by
      apply between_none
      intro link hl
      have h := (links_parent child.2 next link hl).1
      omega
    have hr := @ih (next + child.2.preorder.length) (by omega)
    rw [linkChildren, between_append, hv, ownLinks, ← hr]
    unfold between
    rw [nil_append, filter_cons_of_pos]
    simp

/-- The entries of a child's tree are those whose parents are in it. -/
theorem between_child (hn : base < next) {k : ℕ} {child : Option Text × Json}
    (hchild : children[k]? = some child) :
    between (childIndex next children k) (childIndex next children k + child.2.preorder.length)
      (linkChildren base next children) = links (childIndex next children k) child.2 := by
  induction children generalizing next k with
  | nil => cases hchild
  | cons first rest ih =>
    rw [linkChildren, between_append]
    cases k with
    | zero =>
      obtain rfl := some.inj hchild
      change between next (next + first.2.preorder.length) (links next first.2) ++ _ = _
      rw [between_all (links_parent first.2 next), between_none]
      · exact append_nil _
      intro link hl
      rcases mem_cons.mp hl with rfl | hl
      · change ¬ (next ≤ base ∧ _)
        omega
      have hr : base < next + first.2.preorder.length := by omega
      have h := linkChildren_parent hr link hl
      change ¬ (next + 0 ≤ link.parent ∧ link.parent < next + 0 + first.2.preorder.length)
      omega
    | succ k =>
      have hr := @ih (next + first.2.preorder.length) (by omega) k hchild
      rw [childIndex_succ]
      have hlow : next + first.2.preorder.length ≤
          childIndex (next + first.2.preorder.length) rest k := Nat.le_add_right _ _
      rw [between_none, nil_append, ← hr]
      · apply filter_cons_of_neg
        simp only [decide_eq_true_eq]
        omega
      intro link hl
      have h := (links_parent first.2 next link hl).2
      omega

/-- The tables hold the tree at `base`: its nodes, and no other entries of them than its own. -/
structure Holds (tables : JsonTables) (entries : List Link) (base : ℕ) (t : Json) : Prop where
  nodes : ∃ before after, tables.nodes = before ++ (t.preorder.map nodeOf ++ after) ∧
    before.length = base
  entries : between base (base + t.preorder.length) entries = links base t

theorem Holds.node {entries : List Link} (h : Holds tables entries base t) :
    tables.nodes[base]? = some (nodeOf t) := by
  obtain ⟨before, after, hnodes, rfl⟩ := h.nodes
  rw [hnodes, preorder_eq]
  simp

theorem Holds.child {entries : List Link} (h : Holds tables entries base t) {k : ℕ}
    {child : Option Text × Json} (hchild : t.children[k]? = some child) :
    Holds tables entries (childIndex (base + 1) t.children k) child.2 := by
  obtain ⟨before, after, hnodes, hbase⟩ := h.nodes
  have hsplit : t.children.take k ++ child :: t.children.drop (k + 1) = t.children := by
    obtain ⟨hk, rfl⟩ := List.getElem?_eq_some_iff.mp hchild
    rw [← drop_eq_getElem_cons hk, take_append_drop]
  have hpreorder : preorderAll t.children = preorderAll (t.children.take k) ++
      (child.2.preorder ++ preorderAll (t.children.drop (k + 1))) := by
    rw [← preorderAll_cons, preorderAll, preorderAll, preorderAll,
      ← flatMap_append, hsplit]
  have hlen := congrArg List.length hpreorder
  simp only [length_append] at hlen
  refine ⟨⟨before ++ nodeOf t :: (preorderAll (t.children.take k)).map nodeOf,
    (preorderAll (t.children.drop (k + 1))).map nodeOf ++ after, ?_, ?_⟩, ?_⟩
  · rw [hnodes, preorder_eq t, hpreorder]
    simp
  · simp only [length_append, length_cons, length_map, childIndex]
    omega
  have hentries := h.entries
  rw [links_eq, preorder_eq, length_cons] at hentries
  rw [← between_child (Nat.lt_succ_self base) hchild, ← hentries, between_between]
  · unfold childIndex
    omega
  · unfold childIndex
    omega

theorem between_single (entries : List Link) :
    between base (base + 1) entries = entries.filter fun link => link.parent = base := by
  apply filter_congr
  intro link _
  simp only [decide_eq_decide]
  omega

theorem Holds.own {entries : List Link} (h : Holds tables entries base t) :
    (entries.filter fun link => link.parent = base) = ownLinks base (base + 1) t.children := by
  have hentries := h.entries
  rw [links_eq, preorder_eq, length_cons] at hentries
  rw [← between_own (Nat.lt_succ_self base), ← hentries, between_between _ (le_refl base),
    between_single]
  omega

/-- A child stands in the tables. -/
theorem Holds.node_child {entries : List Link} (h : Holds tables entries base t) {k : ℕ}
    {child : Option Text × Json} (hchild : t.children[k]? = some child) :
    tables.node (childIndex (base + 1) t.children k) =
      some (childIndex (base + 1) t.children k) := by
  have hlen := (List.getElem?_eq_some_iff.mp (h.child hchild).node).1
  exact if_pos hlen

theorem filter_memberRows (entries : List Link) :
    ((memberRows entries).filter fun member => member.parent = base) =
      memberRows (entries.filter fun link => link.parent = base) := by
  unfold memberRows
  rw [filter_filterMap, filterMap_filter]
  congr 1
  funext link
  cases hkey : link.key <;> simp [Option.filter]

theorem filter_elementRows (entries : List Link) :
    ((elementRows entries).filter fun element => element.parent = base) =
      elementRows (entries.filter fun link => link.parent = base) := by
  unfold elementRows
  rw [filter_filterMap, filterMap_filter]
  congr 1
  funext link
  cases hkey : link.key <;> simp [Option.filter]

theorem getElem?_elementRows (hkeys : ∀ child ∈ children, child.1 = none) (k : ℕ) :
    (elementRows (ownLinks base next children))[k]? =
      children[k]?.map fun _ => ⟨base, childIndex next children k⟩ := by
  induction children generalizing next k with
  | nil => rfl
  | cons child rest ih =>
    obtain ⟨key, value⟩ := child
    rw [forall_mem_cons] at hkeys
    obtain ⟨rfl, hr⟩ := hkeys
    cases k with
    | zero => rfl
    | succ k =>
      rw [getElem?_cons_succ, childIndex_succ]
      exact ih hr k

theorem length_elementRows (hkeys : ∀ child ∈ children, child.1 = none) :
    (elementRows (ownLinks base next children)).length = children.length := by
  induction children generalizing next with
  | nil => rfl
  | cons child rest ih =>
    obtain ⟨key, value⟩ := child
    rw [forall_mem_cons] at hkeys
    obtain ⟨rfl, hr⟩ := hkeys
    exact congrArg (· + 1) (ih hr)

theorem find?_memberRows (base next : ℕ) (children : List (Option Text × Json)) (key : Text) :
    ((memberRows (ownLinks base next children)).find? fun member => member.key = key).map
        JsonMember.value =
      (children.findIdx? fun child => child.1 = some key).map (childIndex next children) := by
  induction children generalizing next with
  | nil => rfl
  | cons child rest ih =>
    obtain ⟨label, value⟩ := child
    have hr := @ih (next + value.preorder.length)
    have hn : childIndex next ((label, value) :: rest) ∘ (· + 1) =
        childIndex (next + value.preorder.length) rest := by
      funext k
      exact childIndex_succ (label, value) k
    rw [findIdx?_cons]
    by_cases hkey : label = some key
    · rw [if_pos (by simpa using hkey), hkey]
      simp [memberRows, ownLinks, childIndex, preorderAll]
    rw [if_neg (by simpa using hkey), Option.map_map, hn, ← hr]
    cases label with
    | none => rfl
    | some other =>
      have ho : other ≠ key := fun heq => hkey (congrArg some heq)
      simp [memberRows, ownLinks, ho]

section

variable {entries : List Link}

theorem Holds.elements (h : Holds tables entries base t)
    (helts : tables.elements = elementRows entries) :
    (tables.elements.filter fun e => e.parent = base) =
      elementRows (ownLinks base (base + 1) t.children) := by
  rw [helts, filter_elementRows, h.own]

theorem keys_array (raw : Text) (items : List Json) :
    ∀ child ∈ (array raw items).children, child.1 = none := by
  simp [children]

theorem length_array (raw : Text) (items : List Json) :
    (array raw items).children.length = items.length := by
  simp [children]

variable (h : Holds tables entries base t)
include h

theorem Holds.elementCount (helts : tables.elements = elementRows entries) :
    tables.elementCount (some base) = t.elementCount := by
  unfold JsonTables.elementCount
  simp only [h.node, h.elements helts]
  cases t with
  | array raw items =>
    change (elementRows _).length = items.length
    rw [length_elementRows (keys_array raw items), length_array]
  | _ => rfl

theorem Holds.element (helts : tables.elements = elementRows entries) (k : ℕ) :
    tables.element (some base) k =
      if k < t.elementCount then some (childIndex (base + 1) t.children k) else none := by
  unfold JsonTables.element
  simp only [bind_eq_bind, bind_some, h.node, h.elements helts]
  cases t with
  | array raw items =>
    change (elementRows _)[k]?.bind _ = if k < items.length then _ else none
    rw [getElem?_elementRows (keys_array raw items), ← length_array raw items]
    cases hchild : (array raw items).children[k]? with
    | none =>
      have hlen := List.getElem?_eq_none_iff.mp hchild
      rw [if_neg (by omega)]
      rfl
    | some child =>
      rw [if_pos (List.getElem?_eq_some_iff.mp hchild).1]
      exact h.node_child hchild
  | _ => exact (if_neg (Nat.not_lt_zero k)).symm

theorem Holds.field (hmems : tables.members = memberRows entries) (key : Text) :
    tables.field (some base) key =
      (t.children.findIdx? fun c => c.1 = some key).map (childIndex (base + 1) t.children) := by
  have hrows : (tables.members.find? fun m => m.parent = base ∧ m.key = key) =
      (memberRows (ownLinks base (base + 1) t.children)).find? fun m => m.key = key := by
    rw [hmems, ← h.own, ← filter_memberRows, find?_filter]
    simp
  unfold JsonTables.field
  simp only [bind_eq_bind, bind_some, h.node, hrows]
  cases t with
  | object raw members =>
    have hfind := find?_memberRows base (base + 1) (object raw members).children key
    cases hidx : (object raw members).children.findIdx? fun c => c.1 = some key with
    | none =>
      rw [hidx] at hfind
      rw [map_eq_none_iff.mp hfind]
      rfl
    | some k =>
      rw [hidx] at hfind
      obtain ⟨member, hm, hv⟩ := map_eq_some_iff.mp hfind
      obtain ⟨hk, _⟩ := findIdx?_eq_some_iff_getElem.mp hidx
      rw [hm]
      change tables.node member.value = _
      rw [hv]
      exact h.node_child (getElem?_eq_getElem hk)
  | array raw items =>
    rw [findIdx?_eq_none_iff.mpr]
    · rfl
    intro child hchild
    rw [keys_array raw items child hchild]
    rfl
  | _ => rfl

end

theorem represents_of_holds {entries : List Link} (hmems : tables.members = memberRows entries)
    (helts : tables.elements = elementRows entries) (h : Holds tables entries base t) :
    Represents tables base t := by
  induction t using induction_children generalizing base with
  | h t ih =>
    refine .intro (childIndex (base + 1) t.children) h.node (h.elementCount helts)
      (h.element helts) (h.field hmems) ?_
    intro k child hchild
    exact ih child (mem_of_getElem? hchild) (h.child hchild)

end

/-- A text that is one value with blanks around it, within the limits of a document. -/
structure IsDocument (bytes : Text) (t : Json) : Prop where
  text : ∃ lead trail, bytes = lead ++ (t.raw ++ trail) ∧ Blank lead ∧ Blank trail
  value : WellFormed t
  nesting : t.height ≤ maximumDepth
  values : t.values ≤ maximumJsonNodes
  members : t.memberTotal ≤ maximumJsonMembers
  elements : t.elementTotal ≤ maximumJsonElements

section

variable {bytes : Text} {t : Json} {d : JsonDocument}

theorem represents_record (t : Json) : Represents (({} : JsonTables).record t) 0 t := by
  have hholds : Holds (({} : JsonTables).record t) (links 0 t) 0 t :=
    ⟨⟨[], [], (append_nil _).symm, rfl⟩, between_all (links_parent t 0)⟩
  exact represents_of_holds rfl rfl hholds

theorem sound_empty : ({} : JsonTables).Sound :=
  ⟨Nat.zero_le _, Nat.zero_le _, Nat.zero_le _, fun _ h => by cases h⟩

theorem parseDocument_reads (h : Yields parseDocument { storage := bytes } () d) :
    ∃ t, IsDocument bytes t ∧ d.root = 0 ∧ d.tables = ({} : JsonTables).record t := by
  obtain ⟨root, d₁, hv, h⟩ := yields_bind.mp h
  obtain ⟨lead, t, rest, ht, hlead, hwell, hh, hroom, rfl, rfl⟩ :=
    (parseValue_spec (maximumDepth + 1)).reads sound_empty hv
  have hr : bytes = (lead ++ t.raw) ++ rest := by
    rw [append_assoc]
    exact ht
  have ha := remaining_put (d := { storage := bytes }) (({} : JsonTables).record t) hr
  obtain ⟨_, d₂, hroot, h⟩ := yields_bind.mp h
  obtain rfl : _ = d₂ := congrArg Prod.snd (some.inj (yields_perform.mp hroot))
  obtain ⟨_, d₃, hskip, h⟩ := yields_bind.mp h
  obtain ⟨trail, text, htrail, hblank, _, rfl, hleft⟩ := skipSpace_reads hskip
  rw [yields_look_bind, yields_check] at h
  obtain ⟨hnil, rfl⟩ := h
  refine ⟨t, ⟨⟨lead, trail, ?_, hlead, hblank⟩, hwell, by omega, ?_, ?_, ?_⟩, rfl, rfl⟩
  · rw [hnil] at hleft
    rw [length_append] at ha
    have htrail' : rest = trail ++ [] := ha.symm.trans (hleft ▸ htrail)
    rw [append_nil] at htrail'
    rw [hr, htrail', append_assoc]
  · exact (zero_add _).symm.trans_le hroom.nodes
  · exact (zero_add _).symm.trans_le hroom.members
  · exact (zero_add _).symm.trans_le hroom.elements

theorem parseDocument_accepts (h : IsDocument bytes t) :
    ∃ d, Yields parseDocument { storage := bytes } () d ∧ d.root = 0 ∧
      d.tables = ({} : JsonTables).record t := by
  obtain ⟨lead, trail, ht, hlead, htrail⟩ := h.text
  have hnesting := h.nesting
  have hended : Ended trail := fun c hc =>
    isDigit_of_isSpace (htrail c (mem_of_mem_head? hc))
  have hroom : ({} : JsonTables).RoomFor t :=
    ⟨(zero_add _).trans_le h.values, (zero_add _).trans_le h.members,
      (zero_add _).trans_le h.elements⟩
  have hv := (parseValue_spec (maximumDepth + 1)).accepts (d := { storage := bytes })
    sound_empty ht hlead h.value (by omega) hended hroom
  have hr : bytes = (lead ++ t.raw) ++ trail := by
    rw [append_assoc]
    exact ht
  have ha := remaining_put (d := { storage := bytes }) (({} : JsonTables).record t) hr
  rw [length_append, ← append_nil trail] at ha
  have hend := remaining_advance trail ha
  refine ⟨(put { storage := bytes } (({} : JsonTables).record t)
    (lead.length + t.raw.length)).advance trail.length, ?_, rfl, rfl⟩
  refine yields_bind.mpr ⟨0, _, hv, yields_bind.mpr ⟨(), _, yields_perform.mpr rfl, ?_⟩⟩
  refine yields_bind.mpr ⟨(), _, (yields_skipSpace_of ha htrail ?_).mpr rfl, ?_⟩
  · intro c hc
    cases hc
  · rw [yields_look_bind, yields_check]
    exact ⟨hend, rfl⟩

theorem parseDocument_halts (bytes : Text) : Halts parseDocument { storage := bytes } := by
  refine halts_bind ((parseValue_spec (maximumDepth + 1)).halts sound_empty) fun _ _ _ => ?_
  refine halts_bind halts_perform fun _ _ _ => halts_bind halts_skipSpace fun _ _ _ => ?_
  exact halts_bind halts_look fun _ _ _ => halts_check

theorem load_of_document (hsize : bytes.length ≤ maximumDocumentBytes) (h : IsDocument bytes t) :
    ∃ d, load (some bytes) = some (.ok d) ∧ d.root = 0 ∧
      d.tables = ({} : JsonTables).record t := by
  obtain ⟨d, hparse, hroot, htables⟩ := parseDocument_accepts h
  have hread : readFile (some bytes) = some bytes := if_pos (decide_eq_true hsize)
  have hne : bytes ≠ [] := by
    obtain ⟨lead, trail, rfl, _, _⟩ := h.text
    intro hnil
    exact h.value.raw_ne_nil (append_eq_nil_iff.mp (append_eq_nil_iff.mp hnil).2).1
  refine ⟨d, ?_, hroot, htables⟩
  unfold load
  simp only [hread]
  rw [if_neg hne, show parseDocument { storage := bytes } = some (.ok (), d) from hparse]

theorem document_of_load (h : load (some bytes) = some (.ok d)) :
    ∃ t, IsDocument bytes t := by
  unfold load at h
  split at h
  · cases h
  rename_i read hread
  obtain ⟨hread, _⟩ := filter_eq_some_iff.mp hread
  obtain rfl := some.inj hread
  split at h
  · cases h
  split at h
  · cases h
  · cases h
  rename_i hparse
  obtain ⟨t, ht, _⟩ := parseDocument_reads hparse
  exact ⟨t, ht⟩

theorem load_halts (file : Option Text) : ∃ result, load file = some result := by
  unfold load
  split
  · exact ⟨_, rfl⟩
  rename_i bytes _
  split
  · exact ⟨_, rfl⟩
  obtain ⟨out, hout⟩ := parseDocument_halts bytes
  rw [hout]
  split
  · rename_i hn
    cases hn
  · exact ⟨_, rfl⟩
  · exact ⟨_, rfl⟩

end

/-- Of the texts that are not too long, those are loaded that are one value of the dialect within
the limits, and the document is then that value. -/
theorem load_iff_isDocument (bytes : Text) (hsize : bytes.length ≤ maximumDocumentBytes) :
    ∃ result, JsonDocument.load (some bytes) = some result ∧
      ((∃ d, result = .ok d) ↔ ∃ t, IsDocument bytes t) ∧
      ∀ d t, result = .ok d → IsDocument bytes t → Represents d.tables d.root t := by
  obtain ⟨result, hload⟩ := load_halts (some bytes)
  refine ⟨result, hload, ⟨?_, ?_⟩, ?_⟩
  · rintro ⟨d, rfl⟩
    exact document_of_load hload
  · rintro ⟨t, ht⟩
    obtain ⟨d, hd, _⟩ := load_of_document hsize ht
    exact ⟨d, some.inj (hload.symm.trans hd)⟩
  intro d t hd ht
  obtain ⟨d', hd', hroot, htables⟩ := load_of_document hsize ht
  have heq : d = d' := Except.ok.inj (hd.symm.trans (some.inj (hload.symm.trans hd')))
  rw [heq, hroot, htables]
  exact represents_record t

def sampleText : Text := ascii " \x7b\"a\": [1, 20], \"b\": \x7b\"c\": \"\\u0041\"\x7d\x7d "

theorem load_iff_isDocument_sample : ∃ t, IsDocument sampleText t := by
  obtain ⟨result, hload, hiff, _⟩ := load_iff_isDocument sampleText (by decide)
  apply hiff.mp
  have hok : (load (some sampleText)).any Except.isOk = true := by decide +kernel
  rw [hload] at hok
  cases result with
  | error e => cases hok
  | ok d => exact ⟨d, rfl⟩

end Laghu.Evaluator
