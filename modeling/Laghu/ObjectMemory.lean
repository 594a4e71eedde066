import Mathlib.Algebra.Group.Nat.Defs

/-!
Objects in a flat memory. An object fills a range of addresses and is reached by the first
of them. Whoever gets hold of a range may write to it, so that claiming a range ends every
object that has a byte in it.
-/

namespace Laghu.ObjectMemory

open List

variable {α : Type}

structure Block (α : Type) where
  address : ℕ
  size : ℕ
  object : α

abbrev Memory (α : Type) := List (Block α)

/-- The two ranges have no byte in common. -/
def Apart (address size address' size' : ℕ) : Prop :=
  address + size ≤ address' ∨ address' + size' ≤ address

def claim (m : Memory α) (address size : ℕ) : Memory α :=
  if size = 0 then m
  else m.filter fun b => b.address + b.size ≤ address || address + size ≤ b.address

def load (m : Memory α) (address : ℕ) : Option α :=
  (m.find? fun b => b.address == address).map Block.object

def place (m : Memory α) (address size : ℕ) (object : α) : Memory α :=
  ⟨address, size, object⟩ :: claim m address size

def discard (m : Memory α) (address : ℕ) : Memory α := m.filter fun b => b.address != address

/-- Assignment to an object that is there. -/
def replace (m : Memory α) (address : ℕ) (object : α) : Memory α :=
  m.map fun b => if b.address = address then { b with object := object } else b

def Holds (m : Memory α) (address size : ℕ) (object : α) : Prop :=
  m.find? (fun b => b.address == address) = some ⟨address, size, object⟩

theorem Apart.symm {address size address' size' : ℕ} (h : Apart address size address' size') :
    Apart address' size' address size := Or.symm h

section

variable {m : Memory α} {address size address' size' : ℕ} {object object' : α}

theorem Holds.load (h : Holds m address size object) : load m address = some object := by
  unfold ObjectMemory.load
  rw [h]
  rfl

/-- What is found first is still found first among the elements that are kept. -/
theorem find?_filter_of_some {l : List (Block α)} {p q : Block α → Bool} {b : Block α}
    (hfind : l.find? p = some b) (hk : q b = true) : (l.filter q).find? p = some b := by
  induction l with
  | nil => cases hfind
  | cons x rest ih =>
    by_cases hx : p x = true
    · rw [find?_cons_of_pos hx] at hfind
      cases hfind
      rw [filter_cons_of_pos hk, find?_cons_of_pos hx]
    rw [find?_cons_of_neg hx] at hfind
    by_cases hq : q x = true
    · rw [filter_cons_of_pos hq, find?_cons_of_neg hx]
      exact ih hfind
    · rw [filter_cons_of_neg hq]
      exact ih hfind

theorem Holds.claim (h : Holds m address size object) (hapart : Apart address size address' size') :
    Holds (claim m address' size') address size object := by
  unfold ObjectMemory.claim
  split
  · exact h
  · apply find?_filter_of_some h
    simpa [Apart] using hapart

theorem Holds.discard (h : Holds m address size object) (hne : address ≠ address') :
    Holds (discard m address') address size object := by
  apply find?_filter_of_some h
  simpa using hne

theorem holds_place (m : Memory α) (address size : ℕ) (object : α) :
    Holds (place m address size object) address size object := by
  unfold Holds place
  rw [find?_cons_of_pos (by simp)]

theorem Holds.place (h : Holds m address size object) (hapart : Apart address size address' size')
    (hne : address ≠ address') : Holds (place m address' size' object') address size object := by
  unfold Holds ObjectMemory.place
  rw [find?_cons_of_neg (by simpa using Ne.symm hne)]
  exact h.claim hapart

theorem find?_replace (m : Memory α) (address address' : ℕ) (object : α) :
    (replace m address' object).find? (fun b => b.address == address) =
      (m.find? fun b => b.address == address).map fun b =>
        if b.address = address' then { b with object := object } else b := by
  unfold replace
  rw [find?_map]
  congr 2
  funext b
  dsimp only [Function.comp_apply]
  split <;> rfl

theorem Holds.replace (h : Holds m address size object) (object' : α) :
    Holds (replace m address object') address size object' := by
  unfold Holds
  rw [find?_replace, h, Option.map_some, if_pos rfl]

theorem Holds.replace_ne (h : Holds m address size object) (hne : address ≠ address')
    (object' : α) : Holds (ObjectMemory.replace m address' object') address size object := by
  unfold Holds
  rw [find?_replace, h, Option.map_some, if_neg hne]

end

end Laghu.ObjectMemory
