import Mathlib.Data.List.Chain
import Mathlib.Data.List.Nodup
import Laghu.JsonValidation

/-!
Duplicate members. `key_less` is the lexicographic order of the byte values, so that
keys neither of which is less are equal as byte strings, and in a sorted scratch array
equal keys are neighbours.
-/

namespace Laghu.JsonValidation

open  List
open BigEndian (Byte)

def byteValues (key : ObjectKey) : List ℕ := key.map BitVec.toNat

theorem byteValues_injective : Function.Injective byteValues :=
  map_injective_iff.mpr fun _ _ h => BitVec.eq_of_toNat_eq h

theorem memcmp_take {n : ℕ} : ∀ {left right : List Byte}, n = min left.length right.length →
    memcmp (left.take n) (right.take n) = memcmp left right
  | [], right, h => by simp [memcmp]
  | a :: left, [], h => by simp [memcmp]
  | a :: left, b :: right, h => by
    obtain ⟨k, rfl⟩ : ∃ k, n = k + 1 :=
      ⟨n - 1, by simp only [length_cons] at h; omega⟩
    have hk : k = min left.length right.length := by
      simp only [length_cons] at h
      omega
    simp only [take_succ_cons, memcmp, memcmp_take hk]

theorem keyLess_eq (left right : ObjectKey) : keyLess left right = (memcmp left right == .lt ||
      (memcmp left right == .eq && decide (left.length < right.length))) := by
  have hcommon : (if left.length < right.length then left.length else right.length) =
      min left.length right.length := by
    split <;> omega
  unfold keyLess
  simp only [hcommon]
  split
  · rename_i h0
    have heq : memcmp left right = .eq := by rw [← memcmp_take rfl, h0]; rfl
    rw [heq]
  · rw [memcmp_take rfl]

theorem memcmp_lexicographic : ∀ left right : List Byte,
    (memcmp left right = .lt ∨ (memcmp left right = .eq ∧ left.length < right.length)) ↔
      byteValues left < byteValues right
  | [], [] => by simp [memcmp, byteValues]
  | [], _ :: _ => by simp [memcmp, byteValues]
  | _ :: _, [] => by simp [memcmp, byteValues]
  | a :: left, b :: right => by
    have ih := memcmp_lexicographic left right
    unfold byteValues at ih ⊢
    rw [map_cons, map_cons, cons_lt_cons_iff, ← ih, memcmp]
    rcases lt_trichotomy a.toNat b.toNat with hlt | heq | hgt
    · rw [if_pos (show a < b from hlt)]
      simp [hlt]
    · have hab : a = b := BitVec.eq_of_toNat_eq heq
      rw [if_neg (by simp [hab]), if_neg (by simp [hab])]
      simp [hab]
    rw [if_neg (show ¬ a < b from fun h => absurd hgt (Nat.lt_asymm h)),
      if_pos (show b < a from hgt)]
    simp only [reduceCtorEq, false_and, or_self, false_iff, not_or, not_and]
    exact ⟨by omega, fun h => by omega⟩

theorem keyLess_iff (left right : ObjectKey) :
    keyLess left right = true ↔ byteValues left < byteValues right := by
  rw [keyLess_eq, ← memcmp_lexicographic]
  simp

theorem memcmp_eq_of_length : ∀ {left right : List Byte}, left.length = right.length →
    (memcmp left right = .eq ↔ left = right)
  | [], [], _ => by simp [memcmp]
  | a :: left, b :: right, h => by
    have ih := memcmp_eq_of_length (Nat.succ.inj h)
    rw [memcmp]
    rcases lt_trichotomy a.toNat b.toNat with hlt | heq | hgt
    · have hne : a ≠ b := fun h => by simp [h] at hlt
      rw [if_pos (show a < b from hlt)]
      simp [hne]
    · have hab : a = b := BitVec.eq_of_toNat_eq heq
      rw [if_neg (by simp [hab]), if_neg (by simp [hab]), ih]
      simp [hab]
    have hne : a ≠ b := fun h => by simp [h] at hgt
    rw [if_neg (show ¬ a < b from fun h => absurd hgt (Nat.lt_asymm h)),
      if_pos (show b < a from hgt)]
    simp [hne]

theorem equalKey_iff (left right : ObjectKey) : equalKey left right = true ↔ left = right := by
  unfold equalKey
  rw [Bool.and_eq_true, beq_iff_eq, Bool.or_eq_true, beq_iff_eq, beq_iff_eq]
  constructor
  · rintro ⟨hlen, he | hcmp⟩
    · rw [eq_nil_of_length_eq_zero he, eq_nil_of_length_eq_zero (hlen.symm.trans he)]
    · exact (memcmp_eq_of_length hlen).mp hcmp
  · rintro rfl
    exact ⟨rfl, .inr ((memcmp_eq_of_length rfl).mpr rfl)⟩

theorem adjacentEqual_eq_false : ∀ keys : List ObjectKey,
    adjacentEqual keys = false ↔ keys.IsChain (· ≠ ·)
  | [] => by simp [adjacentEqual]
  | [_] => by simp [adjacentEqual]
  | previous :: key :: rest => by
    have ih := adjacentEqual_eq_false (key :: rest)
    rw [adjacentEqual, Bool.or_eq_false_iff, isChain_cons_cons, ih,
      ← Bool.not_eq_true, equalKey_iff]

/-- What `std::sort` promises for the order `less`. -/
def Sorts (less : ObjectKey → ObjectKey → Bool) (sort : List ObjectKey → List ObjectKey) : Prop :=
  ∀ keys, (sort keys).Perm keys ∧ (sort keys).Pairwise fun a b => less b a = false

/-- In a sorted list a key that occurs twice has an equal neighbour. -/
theorem nodup_of_sorted {keys : List ObjectKey}
    (hsorted : keys.Pairwise fun a b => byteValues a ≤ byteValues b)
    (hchain : keys.IsChain (· ≠ ·)) : keys.Nodup := by
  induction keys with
  | nil => exact nodup_nil
  | cons a rest ih =>
    obtain ⟨hleast, hr⟩ := pairwise_cons.mp hsorted
    cases rest with
    | nil => exact nodup_singleton a
    | cons b rest =>
      obtain ⟨hne, hchain⟩ := isChain_cons_cons.mp hchain
      refine nodup_cons.mpr ⟨?_, ih hr hchain⟩
      intro hmem
      have hab : byteValues a < byteValues b :=
        lt_of_le_of_ne (hleast b mem_cons_self) fun h => hne (byteValues_injective h)
      rcases mem_cons.mp hmem with heq | hmem
      · exact hne heq
      · exact absurd ((pairwise_cons.mp hr).1 a hmem) (not_le.mpr hab)

variable {sort : List ObjectKey → List ObjectKey}

/-- Among sorted keys the comparison of neighbours finds every duplicate. -/
theorem adjacentEqual_sort (hsort : Sorts keyLess sort) (keys : List ObjectKey) :
    adjacentEqual (sort keys) = false ↔ keys.Nodup := by
  obtain ⟨hperm, hsorted⟩ := hsort keys
  rw [adjacentEqual_eq_false, ← hperm.nodup_iff]
  refine ⟨nodup_of_sorted (hsorted.imp ?_), Pairwise.isChain⟩
  intro a b hab
  rw [← Bool.not_eq_true, keyLess_iff] at hab
  exact not_lt.mp hab

variable {limits : JsonDocumentLimits}

theorem take_set_self {α : Type} {storage : List α} {n : ℕ} (hn : n < storage.length) (a : α) :
    (storage.set n a).take (n + 1) = storage.take n ++ [a] := by
  rw [take_succ_eq_append_getElem (by rwa [length_set]), getElem_set_self,
    take_set_of_le (Nat.le_refl n)]

/-- The keys land in the scratch array in the order of the members. -/
theorem copyKeys_spec (memberCount : ℕ) :
    ∀ (members : List (ObjectKey × Json)) (keyCount : ℕ) (keyScratch : List ObjectKey),
      keyCount + members.length = memberCount → memberCount ≤ keyScratch.length →
      ((∀ m ∈ members, m.1.length ≤ limits.maximumStringBytes.toNat) →
        ∃ copied, copyKeys limits memberCount members keyCount keyScratch =
            some (.ok (memberCount, copied)) ∧ copied.length = keyScratch.length ∧
          copied.take memberCount = keyScratch.take keyCount ++ members.map Prod.fst) ∧
      ((¬ ∀ m ∈ members, m.1.length ≤ limits.maximumStringBytes.toNat) →
        ∃ e, copyKeys limits memberCount members keyCount keyScratch = some (.error e))
  | [], keyCount, keyScratch, hn, _ => by
    rw [length_nil, Nat.add_zero] at hn
    subst hn
    refine ⟨fun _ => ⟨keyScratch, rfl, rfl, ?_⟩, fun h => absurd (by simp) h⟩
    rw [map_nil, append_nil]
  | (key, value) :: rest, keyCount, keyScratch, hn, hcap => by
    rw [length_cons] at hn
    by_cases hkey : key.length > limits.maximumStringBytes.toNat
    · refine ⟨fun h => ?_, fun _ => ⟨_, by rw [copyKeys, if_pos hkey]⟩⟩
      have hle := h (key, value) mem_cons_self
      exact absurd hkey (by simpa using hle)
    have hroom : keyCount < keyScratch.length := by omega
    have heq : copyKeys limits memberCount ((key, value) :: rest) keyCount keyScratch =
        copyKeys limits memberCount rest (keyCount + 1) (keyScratch.set keyCount key) := by
      rw [copyKeys, if_neg hkey, if_neg (show keyCount ≠ memberCount by omega), if_pos hroom]
    have ih := copyKeys_spec memberCount rest (keyCount + 1) (keyScratch.set keyCount key)
      (by omega) (by rw [length_set]; omega)
    rw [heq, forall_mem_cons]
    refine ⟨fun h => ?_, fun h => ih.2 fun hr => h ⟨not_lt.mp hkey, hr⟩⟩
    obtain ⟨copied, hcopied, hlen, htake⟩ := ih.1 h.2
    refine ⟨copied, hcopied, by rw [hlen, length_set], ?_⟩
    rw [htake, take_set_self hroom, map_cons, append_assoc, singleton_append]

/-- What an object has to satisfy by itself. -/
structure ObjectWithin (limits : JsonDocumentLimits) (members : List (ObjectKey × Json)) :
    Prop where
  count : members.length ≤ limits.maximumObjectMembers.toNat
  keys : ∀ m ∈ members, m.1.length ≤ limits.maximumStringBytes.toNat
  distinct : (members.map Prod.fst).Nodup

/-- With room for `maximum_object_members` keys, whatever an earlier object left there. -/
theorem validateObject_spec (hsort : Sorts keyLess sort) {keyScratch : List ObjectKey}
    (hscr : keyScratch.length = limits.maximumObjectMembers.toNat)
    (members : List (ObjectKey × Json)) :
    (ObjectWithin limits members → ∃ keys,
      validateObject sort members keyScratch limits.maximumObjectMembers limits =
        some (.ok keys) ∧ keys.length = keyScratch.length) ∧
    (¬ ObjectWithin limits members → ∃ e,
      validateObject sort members keyScratch limits.maximumObjectMembers limits =
        some (.error e)) := by
  by_cases hn : members.length > limits.maximumObjectMembers.toNat
  · exact ⟨fun h => absurd h.count (not_le.mpr hn), fun _ => ⟨_, if_pos hn⟩⟩
  obtain ⟨hcopied, hlong⟩ := @copyKeys_spec limits members.length members 0 keyScratch
    (by omega) (by omega)
  by_cases hkeys : ∀ m ∈ members, m.1.length ≤ limits.maximumStringBytes.toNat
  · obtain ⟨copied, hcopy, hlen, htake⟩ := hcopied hkeys
    rw [take_zero, nil_append] at htake
    have hdist := adjacentEqual_sort hsort (members.map Prod.fst)
    have hsize : (sort (members.map Prod.fst)).length = members.length := by
      rw [(hsort _).1.length_eq, length_map]
    simp only [validateObject, if_neg hn, hcopy, ne_eq, not_true_eq_false, if_false, htake]
    refine ⟨fun h => ?_, fun h => ?_⟩
    · rw [hdist.mpr h.distinct]
      refine ⟨_, rfl, ?_⟩
      rw [length_append, length_drop, hsize]
      omega
    have hdup : adjacentEqual (sort (members.map Prod.fst)) = true := by
      rw [← Bool.not_eq_false, hdist]
      exact fun hnodup => h ⟨not_lt.mp hn, hkeys, hnodup⟩
    exact ⟨_, by rw [if_pos hdup]⟩
  · obtain ⟨e, he⟩ := hlong hkeys
    refine ⟨fun h => absurd h.keys hkeys, fun _ => ⟨e, ?_⟩⟩
    simp only [validateObject, if_neg hn, he]

end Laghu.JsonValidation
