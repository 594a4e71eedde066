import Laghu.BigEndian
import Laghu.Contract
import Laghu.ObjectTable
import Laghu.Runs

/-!
The owned copy of a password. It can be moved but not copied, every move clears its source
and every destruction clears the object. The calls made so far say which passwords were
accepted and which object should hold each; the objects agree with that after every call.
-/

namespace Laghu.SecretPasswords

open BigEndian (Byte)
open Contract ObjectTable ObjectTable.Table List Option

/-- `maximum_supported_password_bytes` and the terminator. -/
def storageCapacity : ℕ := 511 + 1

structure SecretPassword where
  bytes : List Byte := replicate storageCapacity 0#8
  size : ℕ := 0

namespace SecretPassword

def isCleansed (x : SecretPassword) : Bool := x.size == 0 && x.bytes.all (· == 0#8)

def cleanse (x : SecretPassword) : SecretPassword where
  bytes := x.bytes.map fun _ => 0#8
  size := 0

/-- Both objects afterwards. -/
def moveFrom (this other : SecretPassword) : SecretPassword × SecretPassword :=
  ({ this with bytes := other.bytes, size := other.size }, other.cleanse)

/-- The loop of `from`; `false` when it meets a NUL. -/
def copyFrom (bytes : List Byte) (index : ℕ) : List Byte → List Byte × Bool
  | [] => (bytes, true)
  | character :: input =>
    if character = 0#8 then (bytes, false)
    else copyFrom (bytes.set index character) (index + 1) input

/-- Exactly a password, followed by zeros. -/
def holding (password : List Byte) : SecretPassword where
  bytes := password ++ replicate (storageCapacity - password.length) 0#8
  size := password.length

end SecretPassword

open SecretPassword

inductive Call
  | from (password : List Byte)
  | moveConstruct (source : ℕ)
  | moveAssign (target source : ℕ)
  | destroy (object : ℕ)

/-- The source of a move between two objects. -/
def Call.movedFrom : Call → Option ℕ
  | .moveConstruct source => some source
  | .moveAssign target source => if target = source then none else some source
  | _ => none

/-- `ended` are objects at the end of their destruction, `erased` is the object that is
assigned over before the new password is stored. -/
structure Output where
  result : Result Unit := .ok ()
  ended : List SecretPassword := []
  erased : Option SecretPassword := none

/-- The objects created so far, those that are destroyed included. -/
abbrev World := Table SecretPassword

namespace World

def step (w : World) : Call → Option (Output × World)
  | .from password =>
    if password.length ≥ storageCapacity then
      some ({ result := .error (coreError .invalidRange
        "text does not fit including terminator") }, w)
    else
      match copyFrom (replicate storageCapacity 0#8) 0 password with
      | (bytes, false) =>
        some ({ result := .error (coreError .invalidInput "text contains an embedded NUL"),
                ended := [cleanse ⟨bytes, 0⟩] }, w)
      | (bytes, true) =>
        let (created, output) := moveFrom {} ⟨bytes, password.length⟩
        some ({ ended := [output.cleanse] }, w.push created)
  | .moveConstruct source => do
    let (created, other) := moveFrom {} (← w.get? source)
    return ({}, (w.set source other).push created)
  | .moveAssign target source => do
    let old ← w.get? target
    let other ← w.get? source
    if target = source then return ({}, w)
    else
      let (assigned, other) := moveFrom old.cleanse other
      return ({ erased := some old.cleanse }, (w.set target assigned).set source other)
  | .destroy object => do
    let x ← w.get? object
    return ({ ended := [x.cleanse] }, w.erase object)

def system : Runs.System World Call Output where
  legal _ _ := True
  step := step

end World

/-- The accepted passwords and the object that should hold each, where `none` stands for
one that was destroyed or assigned over. `created` is the number of objects made so far. -/
structure Book where
  created : ℕ := 0
  entries : List (List Byte × Option ℕ) := []

namespace Book

/-- The password of object `i` goes to `place i`. -/
def relocate (b : Book) (place : ℕ → Option ℕ) : List (List Byte × Option ℕ) :=
  b.entries.map (Prod.map id (·.bind place))

def note (b : Book) : Call × Output → Book
  | (.from password, o) =>
    match o.result with
    | .ok _ => ⟨b.created + 1, b.entries ++ [(password, some b.created)]⟩
    | .error _ => b
  | (.moveConstruct source, _) =>
    ⟨b.created + 1, b.relocate fun i => some (if i = source then b.created else i)⟩
  | (.moveAssign target source, _) =>
    ⟨b.created, b.relocate fun i =>
      if i = source then some target else if i = target then none else some i⟩
  | (.destroy object, _) => ⟨b.created, b.relocate fun i => if i = object then none else some i⟩

end Book

/-- What the calls of a trace and their results say. -/
def book (trace : List (Call × Output)) : Book := trace.foldl Book.note {}

/-- The objects agree with the book. -/
structure Sound (b : Book) (w : World) : Prop where
  size : w.size = b.created
  held : ∀ password i, (password, some i) ∈ b.entries → w.get? i = some (holding password)
  single : (b.entries.filterMap Prod.snd).Nodup
  clean : ∀ i x, w.get? i = some x →
    x.isCleansed = true ∨ ∃ password, (password, some i) ∈ b.entries

/-- What a call leaves in the objects that it ends, assigns over and moves from. The
temporary of a creation that is rejected holds the bytes before the NUL. -/
structure Cleansed (w : World) (c : Call) (o : Output) (w' : World) : Prop where
  ended : ∀ x ∈ o.ended ++ o.erased.toList, x.isCleansed = true
  moved : ∀ i, c.movedFrom = some i → ∃ x, w'.get? i = some x ∧ x.isCleansed = true
  erased : ∀ target source, c = .moveAssign target source → target ≠ source →
    ∃ old, w.get? target = some old ∧ o.erased = some old.cleanse
  destroyed : ∀ i, c = .destroy i →
    ∃ x, w.get? i = some x ∧ o.ended = [x.cleanse] ∧ w'.get? i = none
  rejected : ∀ password e, c = .from password → password.length < storageCapacity →
    o.result = .error e →
    o.ended = [cleanse ⟨(copyFrom (replicate storageCapacity 0#8) 0 password).1, 0⟩]

variable {b : Book} {w w' : World} {c : Call} {o : Output}

theorem isCleansed_cleanse (x : SecretPassword) : x.cleanse.isCleansed = true := by
  simp [isCleansed, cleanse]

theorem copyFrom_eq (done : List Byte) {input bytes : List Byte} {room : ℕ}
    (hroom : input.length ≤ room)
    (hrun : copyFrom (done ++ replicate room 0#8) done.length input = (bytes, true)) :
    bytes = done ++ input ++ replicate (room - input.length) 0#8 := by
  induction input generalizing done room with
  | nil =>
    cases hrun
    simp
  | cons character input ih =>
    obtain ⟨room, rfl⟩ : ∃ n, room = n + 1 := Nat.exists_eq_add_one.mpr (by simp at hroom; omega)
    rw [copyFrom] at hrun
    split at hrun
    · cases hrun
    have hset : (done ++ replicate (room + 1) 0#8).set done.length character =
        (done ++ [character]) ++ replicate room 0#8 := by
      simp [replicate_succ]
    rw [hset, show done.length + 1 = (done ++ [character]).length by simp] at hrun
    rw [ih _ (by simpa using hroom) hrun]
    simp

theorem Sound.lt_size (h : Sound b w) {i : ℕ} (hi : i ∈ b.entries.filterMap Prod.snd) :
    i < w.size := by
  obtain ⟨entry, hentry, hi⟩ := mem_filterMap.mp hi
  exact lt_size_of_get? (h.held entry.1 i (hi ▸ hentry))

/-- A move or a destruction. Every object that is left has come from one place or is
clean. -/
theorem Sound.relocate (h : Sound b w) {place : ℕ → Option ℕ} {created : ℕ}
    (hsize : w'.size = created)
    (hplace : ∀ i j k, i < w.size → j < w.size → place i = some k → place j = some k → i = j)
    (hmoved : ∀ i k x, w.get? i = some x → place i = some k → w'.get? k = some x)
    (hrest : ∀ k x, w'.get? k = some x →
      x.isCleansed = true ∨ ∃ i, place i = some k ∧ w.get? i = some x) :
    Sound ⟨created, b.relocate place⟩ w' := by
  have hentry : ∀ password k, (password, some k) ∈ b.relocate place ↔
      ∃ i, (password, some i) ∈ b.entries ∧ place i = some k := by
    simp [Book.relocate, Prod.map, bind_eq_some_iff]
  refine ⟨hsize, fun password k hk => ?_, ?_, fun k x hx => ?_⟩
  · obtain ⟨i, hi, hik⟩ := (hentry password k).mp hk
    exact hmoved i k _ (h.held password i hi) hik
  · have hsnd : (b.relocate place).filterMap Prod.snd =
        (b.entries.filterMap Prod.snd).filterMap place := by
      rw [Book.relocate, filterMap_map, filterMap_filterMap]
      rfl
    rw [hsnd]
    refine pairwise_filterMap.mpr (h.single.imp_of_mem fun hi hj hne k hik k' hjk heq => ?_)
    exact hne (hplace _ _ k (h.lt_size hi) (h.lt_size hj) hik (heq ▸ hjk))
  · rcases hrest k x hx with hclean | ⟨i, hik, hi⟩
    · exact .inl hclean
    rcases h.clean i x hi with hclean | ⟨password, hp⟩
    · exact .inl hclean
    · exact .inr ⟨password, (hentry password k).mpr ⟨i, hp, hik⟩⟩

theorem Sound.accepted (h : Sound b w) (password : List Byte) :
    Sound ⟨b.created + 1, b.entries ++ [(password, some b.created)]⟩
      (w.push (holding password)) := by
  refine ⟨by rw [size_push, h.size], fun text i hi => ?_, ?_, fun i x hx => ?_⟩
  · rcases mem_append.mp hi with hi | hi
    · exact get?_push_of_some _ (h.held text i hi)
    · cases mem_singleton.mp hi
      rw [← h.size]
      exact get?_push_size _ _
  · rw [filterMap_append]
    refine h.single.append (nodup_singleton _) fun i hi hnew => ?_
    cases mem_singleton.mp hnew
    exact Nat.lt_irrefl _ (h.size ▸ h.lt_size hi)
  · rcases get?_push_cases hx with ⟨rfl, _⟩ | hx
    · exact .inr ⟨password, h.size ▸ mem_append_right _ mem_cons_self⟩
    · exact (h.clean i x hx).imp_right fun ⟨text, hi⟩ => ⟨text, mem_append_left _ hi⟩

theorem Sound.step (h : Sound b w) (hstep : w.step c = some (o, w')) :
    Sound (b.note (c, o)) w' ∧ Cleansed w c o w' := by
  have hsize := h.size
  cases c with
  | «from» password =>
    rw [World.step] at hstep
    split at hstep
    · cases hstep
      exact ⟨h, by constructor <;> simp_all [Call.movedFrom]⟩
    · rename_i hfits
      split at hstep
      · rename_i bytes hcopy
        cases hstep
        exact ⟨h, by constructor <;> simp_all [Call.movedFrom, isCleansed_cleanse]⟩
      · rename_i bytes hcopy
        cases hstep
        cases copyFrom_eq [] (Nat.le_of_lt (Nat.not_le.mp hfits)) hcopy
        exact ⟨h.accepted password, by constructor <;> simp [Call.movedFrom, isCleansed_cleanse]⟩
  | moveConstruct source =>
    obtain ⟨x, hx, hstep⟩ := bind_eq_some_iff.mp hstep
    cases hstep
    refine ⟨h.relocate (by rw [size_push, size_set, hsize]) (by grind) ?_ ?_,
      by simp, ?_, by simp, by simp, by simp⟩
    · intro i k y hy hik
      by_cases hi : i = source
      · subst hi
        cases hx.symm.trans hy
        grind [moveFrom, get?_push_size, size_set]
      · grind [get?_push_of_some, get?_set_ne]
    · intro k y hy
      rcases get?_push_cases hy with ⟨rfl, rfl⟩ | hy
      · exact .inr ⟨source, by simp [size_set, hsize], hx⟩
      rcases get?_set_cases hy with ⟨_, rfl⟩ | ⟨hk, hy⟩
      · exact .inl (isCleansed_cleanse x)
      · exact .inr ⟨k, congrArg some (if_neg hk), hy⟩
    · rintro _ ⟨⟩
      exact ⟨_, get?_push_of_some _ (get?_set_self _ hx), isCleansed_cleanse x⟩
  | moveAssign target source =>
    obtain ⟨x, hx, hstep⟩ := bind_eq_some_iff.mp hstep
    obtain ⟨y, hy, hstep⟩ := bind_eq_some_iff.mp hstep
    split at hstep
    · rename_i heq
      cases hstep
      exact ⟨h.relocate hsize (by grind) (by grind) (by grind),
        by constructor <;> simp_all [Call.movedFrom]⟩
    rename_i hne
    cases hstep
    refine ⟨h.relocate (by rw [size_set, size_set, hsize]) (by grind) ?_ ?_,
      by simp [isCleansed_cleanse], ?_, ?_, by simp, by simp⟩
    · grind [moveFrom, get?_set_self, get?_set_ne]
    · grind [get?_set_cases, moveFrom, isCleansed_cleanse]
    · intro i hi
      cases (if_neg hne).symm.trans hi
      have hother := (get?_set_ne w (moveFrom x.cleanse y).1 (Ne.symm hne)).trans hy
      exact ⟨_, get?_set_self _ hother, isCleansed_cleanse y⟩
    · rintro _ _ ⟨⟩ -
      exact ⟨x, hx, rfl⟩
  | destroy object =>
    obtain ⟨x, hx, hstep⟩ := bind_eq_some_iff.mp hstep
    cases hstep
    refine ⟨h.relocate (by rw [size_erase, hsize]) (by grind) ?_ fun k y hy => ?_,
      by simp [isCleansed_cleanse], by simp [Call.movedFrom], by simp, ?_, by simp⟩
    · grind [get?_erase_ne]
    · obtain ⟨hk, hy⟩ := get?_erase_cases hy
      exact .inr ⟨k, if_neg hk, hy⟩
    · rintro _ ⟨⟩
      exact ⟨x, hx, rfl, get?_erase_self _ _⟩

/-- After every sequence of calls an accepted password that was not destroyed or assigned
over is in exactly one object, and the next call clears what it moves from, destroys,
rejects or assigns over. -/
theorem secret_passwords_single_owner {trace : List (Call × Output)}
    (hrun : Runs.Run World.system .empty trace w) :
    Sound (book trace) w ∧ ∀ c o w', w.step c = some (o, w') → Cleansed w c o w' := by
  have h : Sound (book trace) w := by
    refine hrun.history (P := fun trace w => Sound (book trace) w) ?_
      ⟨rfl, by simp [book], by simp [book], fun i x hx => by cases hx⟩
    intro trace w c o w' h _ hstep
    rw [book, foldl_append]
    exact (h.step hstep).1
  exact ⟨h, fun _ _ _ hstep => (h.step hstep).2⟩

/-- The password moved to object 1 is there, also when object 0 is destroyed. -/
theorem secret_passwords_single_owner_moved : ∃ trace w,
    trace.map Prod.fst = [.from [1#8], .moveConstruct 0, .destroy 0] ∧
    Runs.Run World.system .empty trace w ∧ (book trace).entries = [([1#8], some 1)] ∧
    w.get? 1 = some (holding [1#8]) := by
  have hrun := Runs.Run.cons (S := World.system) (s := .empty) (i := .from [1#8]) trivial rfl
    (.cons (i := .moveConstruct 0) trivial rfl (.single (i := .destroy 0) trivial rfl))
  obtain ⟨hsound, -⟩ := secret_passwords_single_owner hrun
  exact ⟨_, _, rfl, hrun, rfl, hsound.held [1#8] 1 (mem_singleton.mpr rfl)⟩

end Laghu.SecretPasswords
