import Laghu.BigEndian
import Laghu.FlatMemory

/-!
Machine words in a flat memory. A cell holds a byte or one of the eight fragments of
a word, and a word is read back only from all of its fragments: overwriting any cell of
a word destroys it. A word is a number or an address, of whatever size.
-/

namespace Laghu.MemoryWords

open FlatMemory List
open BigEndian (Byte)

inductive Cell
  | byte (value : Byte)
  | fragment (word : ℕ) (index : ℕ)
  deriving DecidableEq

/-- Consecutive cells from `address` on. -/
def storeCells (m : Memory Cell) (address : ℕ) (cells : List Cell) : Memory Cell :=
  fun other => if address ≤ other then cells[other - address]?.getD (m other) else m other

def fragments (word : ℕ) : List Cell := (List.range 8).map (Cell.fragment word)

def storeWord (m : Memory Cell) (address word : ℕ) : Memory Cell :=
  storeCells m address (fragments word)

def loadWord (m : Memory Cell) (address : ℕ) : Option ℕ :=
  match m address with
  | .byte _ => none
  | .fragment word _ => if slice m address 8 = fragments word then some word else none

section

variable {m m' : Memory Cell} {address other word : ℕ} {cells : List Cell}

theorem storeCells_outside (h : other < address ∨ address + cells.length ≤ other) :
    storeCells m address cells other = m other := by
  unfold storeCells
  rcases h with hpre | ha
  · rw [if_neg (by omega)]
  · rw [if_pos (by omega), getElem?_eq_none (by omega)]
    rfl

theorem slice_storeCells (m : Memory Cell) (address : ℕ) (cells : List Cell) :
    slice (storeCells m address cells) address cells.length = cells := by
  apply ext_getElem
  · rw [length_slice]
  intro i hi hcells
  simp only [slice, getElem_map, getElem_range, storeCells]
  rw [if_pos (by omega), Nat.add_sub_cancel_left, getElem?_eq_getElem hcells]
  rfl

@[simp] theorem length_fragments (word : ℕ) : (fragments word).length = 8 := by simp [fragments]

theorem storeWord_outside (h : other < address ∨ address + 8 ≤ other) :
    storeWord m address word other = m other :=
  storeCells_outside (by rwa [length_fragments])

theorem loadWord_eq_some : loadWord m address = some word ↔ slice m address 8 = fragments word := by
  have hhead : ∀ {word : ℕ}, slice m address 8 = fragments word → m address = .fragment word 0 := by
    intro word h
    have hf := congrArg (fun cells => cells[0]?) h
    simpa [slice, fragments, range_succ] using hf
  unfold loadWord
  constructor
  · intro h
    split at h
    · cases h
    split at h
    · rename_i hslice
      rw [Option.some.inj h] at hslice
      exact hslice
    · cases h
  · intro h
    simp only [hhead h]
    rw [if_pos h]

theorem loadWord_storeWord (m : Memory Cell) (address word : ℕ) :
    loadWord (storeWord m address word) address = some word := by
  rw [loadWord_eq_some]
  have h := slice_storeCells m address (fragments word)
  rwa [length_fragments] at h

/-- A word depends on its eight cells only. -/
theorem loadWord_congr (h : ∀ a, address ≤ a → a < address + 8 → m' a = m a) :
    loadWord m' address = loadWord m address := by
  have hslice : slice m' address 8 = slice m address 8 :=
    slice_congr fun i hi => h (address + i) (by omega) (by omega)
  unfold loadWord
  rw [h address (by omega) (by omega), hslice]

theorem loadWord_storeWord_of_apart (h : address + 8 ≤ other ∨ other + 8 ≤ address) :
    loadWord (storeWord m address word) other = loadWord m other := by
  apply loadWord_congr
  intro a hle hlt
  exact storeWord_outside (by omega)

end

end Laghu.MemoryWords
