import Laghu.FreeLists
import Laghu.NativeMemory

/-!
What the blocks of a pool keep. Every block, held or freed, is a header and a payload
inside the part of the arena's storage that has been handed out, and no two of them
overlap. So a write to one block leaves the headers of the others alone, and the free
list, which is threaded through headers, is exactly the list of the freed blocks.
-/

namespace Laghu.NativeMemory

open Contract BoundedArenas FlatMemory MemoryWords FreeLists

/-- What `malloc` makes of the size it is asked for. -/
def blockSize (requested : Size) : Size := if requested = 0#64 then 1#64 else requested

theorem blockSize_pos (requested : Size) : 0 < (blockSize requested).toNat := by
  unfold blockSize
  split
  · decide
  · rename_i h
    exact Nat.pos_of_ne_zero fun h0 => h ((size_eq_zero _).mpr h0)

theorem requested_le_blockSize (requested : Size) :
    requested.toNat ≤ (blockSize requested).toNat := by
  unfold blockSize
  split
  · rename_i h
    rw [h]
    exact Nat.zero_le _
  · exact le_refl _

/-- The two blocks, headers included, do not overlap. -/
def Apart (m : Memory Cell) (p q : ℕ) : Prop :=
  p + capacityOf m p ≤ q - headerSize ∨ q + capacityOf m q ≤ p - headerSize

theorem Apart.symm {m : Memory Cell} {p q : ℕ} (h : Apart m p q) : Apart m q p := Or.symm h

/-- A block lies in the part of the storage that was handed out. -/
structure Placed (m : Memory Cell) (x : BoundedArena) (p : ℕ) : Prop where
  header : ∃ c, loadWord m (capacityAt (p - headerSize)) = some c
  base_pos : 0 < x.storage.data
  start : x.storage.data + headerSize ≤ p
  fits : p + capacityOf m p ≤ x.storage.data + x.offset.toNat

/-- The header of a block that is held. -/
structure Held (m : Memory Cell) (b : LiveBlock) : Prop where
  used : loadWord m (usedAt (b.pointer - headerSize)) = some (blockSize b.requested).toNat
  large : (blockSize b.requested).toNat ≤ capacityOf m b.pointer

/-- The book agrees with the machine; `x` is the pool's arena. -/
structure Owned (M : Machine) (x : BoundedArena) (live : List LiveBlock) (freed : List ℕ) :
    Prop where
  sound : BoundedArenas.Sound M.arenas
  get : M.arenas.arenas.get? M.pool.arena = some x
  placed : ∀ p ∈ pointersOf live freed, Placed M.memory x p
  apart : (pointersOf live freed).Pairwise (Apart M.memory)
  held : ∀ b ∈ live, Held M.memory b
  stale : M.pool.generation ≠ x.generation → live = [] ∧ freed = []
  list : M.pool.generation = x.generation →
    Follows (fun h => loadWord M.memory (nextAt h)) 0 M.pool.freeList
      (freed.map (· - headerSize))

section

variable {M : Machine} {x : BoundedArena} {live : List LiveBlock} {freed : List ℕ} {p q : ℕ}

theorem mem_pointersOf : p ∈ pointersOf live freed ↔ (∃ b ∈ live, b.pointer = p) ∨ p ∈ freed := by
  simp [pointersOf]

theorem mem_of_live {b : LiveBlock} (hb : b ∈ live) : b.pointer ∈ pointersOf live freed :=
  mem_pointersOf.mpr (.inl ⟨b, hb, rfl⟩)

theorem mem_of_freed (hp : p ∈ freed) : p ∈ pointersOf live freed :=
  mem_pointersOf.mpr (.inr hp)

section

variable (h : Owned M x live freed)
include h

theorem Owned.header_le (hp : p ∈ pointersOf live freed) : headerSize < p := by
  have hstart := (h.placed p hp).start
  have hbase := (h.placed p hp).base_pos
  omega

theorem Owned.apart_of_ne (hp : p ∈ pointersOf live freed) (hq : q ∈ pointersOf live freed)
    (hne : p ≠ q) : Apart M.memory p q :=
  have : Std.Symm (Apart M.memory) := ⟨fun _ _ => Apart.symm⟩
  h.apart.forall hp hq hne

theorem Owned.nodup : (pointersOf live freed).Nodup := by
  refine (h.apart.imp_of_mem ?_)
  rintro a b ha hb hapart rfl
  have := h.header_le ha
  unfold Apart at hapart
  unfold headerSize at hapart this
  omega

theorem Owned.capacity_eq (hp : p ∈ pointersOf live freed) :
    loadWord M.memory (capacityAt (p - headerSize)) = some (capacityOf M.memory p) := by
  obtain ⟨c, hc⟩ := (h.placed p hp).header
  rw [capacityOf, hc]
  rfl

end

variable {m m' : Memory Cell}

/-- A word in the header of one block survives a write that stays in another block. -/
theorem loadWord_of_agree {i : ℕ} (hi : i + 8 ≤ headerSize) (hp : headerSize ≤ p)
    (h : ∀ a, p - headerSize ≤ a → a < p → m' a = m a) :
    loadWord m' (p - headerSize + i) = loadWord m (p - headerSize + i) :=
  loadWord_congr fun a hle hlt => h a (by omega) (by omega)

theorem capacityOf_of_agree (hp : headerSize ≤ p)
    (h : ∀ a, p - headerSize ≤ a → a < p → m' a = m a) : capacityOf m' p = capacityOf m p := by
  exact congrArg (Option.getD · 0) (loadWord_of_agree (i := 0) (by decide) hp h)

/-- Changing memory outside all headers keeps the book right. -/
theorem Owned.write (h : Owned M x live freed)
    (hagree : ∀ p ∈ pointersOf live freed, ∀ a, p - headerSize ≤ a → a < p → m' a = M.memory a) :
    Owned { M with memory := m' } x live freed := by
  have hcap : ∀ p ∈ pointersOf live freed, capacityOf m' p = capacityOf M.memory p :=
    fun p hp => capacityOf_of_agree (le_of_lt (h.header_le hp)) (hagree p hp)
  have hload : ∀ p ∈ pointersOf live freed, ∀ i, i + 8 ≤ headerSize →
      loadWord m' (p - headerSize + i) = loadWord M.memory (p - headerSize + i) :=
    fun p hp i hi => loadWord_of_agree hi (le_of_lt (h.header_le hp)) (hagree p hp)
  refine ⟨h.sound, h.get, ?_, ?_, ?_, h.stale, ?_⟩
  · intro p hp
    obtain ⟨⟨c, hc⟩, hbase, hstart, hf⟩ := h.placed p hp
    refine ⟨⟨c, (hload p hp 0 (by decide)).trans hc⟩, hbase, hstart, ?_⟩
    rw [hcap p hp]
    exact hf
  · refine h.apart.imp_of_mem ?_
    intro p q hp hq hapart
    unfold Apart at hapart ⊢
    rw [hcap p hp, hcap q hq]
    exact hapart
  · intro b hb
    obtain ⟨hused, hl⟩ := h.held b hb
    refine ⟨(hload _ (mem_of_live hb) 8 (by decide)).trans hused, ?_⟩
    rw [hcap _ (mem_of_live hb)]
    exact hl
  intro hgen
  refine (h.list hgen).congr ?_
  intro header hh
  obtain ⟨p, hp, rfl⟩ := List.mem_map.mp hh
  exact hload p (mem_of_freed hp) 16 (by decide)

/-- A range inside one payload has no header in it. -/
theorem Owned.payload_outside (h : Owned M x live freed) (hp : p ∈ pointersOf live freed)
    (hq : q ∈ pointersOf live freed) {a b : ℕ} (hpa : p ≤ a) (hab : a < p + capacityOf M.memory p)
    (hb : q - headerSize ≤ b) (hbq : b < q) : a ≠ b := by
  rintro rfl
  by_cases hne : p = q
  · omega
  · rcases h.apart_of_ne hp hq hne with hpre | ha <;> omega

/-- The arena changed, but not the storage behind the blocks. -/
theorem Owned.with_arena (h : Owned M x live freed) {arenas : BoundedArenas.World}
    {x' : BoundedArena} (hs : BoundedArenas.Sound arenas)
    (hget : arenas.arenas.get? M.pool.arena = some x') (hgen : x'.generation = x.generation)
    (hst : pointersOf live freed ≠ [] → x'.storage = x.storage)
    (hoff : x.offset.toNat ≤ x'.offset.toNat) :
    Owned { M with arenas := arenas } x' live freed := by
  refine ⟨hs, hget, ?_, h.apart, h.held, ?_, ?_⟩
  · intro p hp
    obtain ⟨hh, hbase, hstart, hf⟩ := h.placed p hp
    have hsame := hst (List.ne_nil_of_mem hp)
    rw [← hsame] at hbase hstart hf
    exact ⟨hh, hbase, hstart, le_trans hf (by omega)⟩
  · rw [hgen]
    exact h.stale
  · rw [hgen]
    exact h.list

end

end Laghu.NativeMemory
