import Laghu.Contract
import Laghu.JsonTexts
import Laghu.SplitTexts

/-!
The paths that a GeoIP database may be reloaded from. The code looks for a few texts inside the
path and at its end; together they are a condition on every component.
-/

namespace Laghu.GeoIp

open Contract JsonTexts SplitTexts List
open BigEndian (Byte)

def slash : Byte := 0x2f#8

/-- `GeoIpReloadSource`, which holds the accepted path. -/
structure GeoIpReloadSource where
  path : Text
  deriving DecidableEq

def pathCapacity : ℕ := 4096

/-- `TextView::to_c_string`, which leaves room for the terminator. -/
def toCString (capacity : ℕ) (text : Text) : Result Text :=
  if text.contains 0#8 then .error (coreError .invalidInput "text contains an embedded NUL")
  else if text.length ≥ capacity then
    .error (coreError .invalidRange "text does not fit including terminator")
  else .ok text

def validConfiguredPath (path : Text) : Bool :=
  if path = [] ∨ path.head? ≠ some slash ∨ ascii "/" <:+ path ∨ ¬ ascii ".mmdb" <:+ path then false
  else if ascii "//" <:+: path ∨ ascii "/./" <:+: path ∨ ascii "/../" <:+: path ∨
      ascii "/." <:+ path ∨ ascii "/.." <:+ path then false
  else true

def fromConfiguration (configuredPath : Text) (allowedPaths : List Text) :
    Result GeoIpReloadSource := do
  let path ← toCString pathCapacity configuredPath
  require (validConfiguredPath path = true) (coreError .invalidInput
    "GeoIP reload path must be an absolute normalized .mmdb path")
  require (allowedPaths.any (· == path) = true) (coreError .invalidInput
    "GeoIP reload path is not in the configured allowlist")
  return ⟨path⟩

/-- A component is looked for in the middle and at the end. -/
theorem mem_components_iff {rest name : Text} (hname : slash ∉ name) : name ∈ rest.splitOn slash ↔
      slash :: (name ++ [slash]) <:+: slash :: rest ∨ slash :: name <:+ slash :: rest := by
  have hend : slash :: name ++ [slash] <:+ slash :: rest ++ [slash] ↔
      slash :: name <:+ slash :: rest := by
    rw [suffix_append_inj_of_length_eq rfl]
    simp
  rw [mem_splitOn_iff, and_iff_right hname]
  change slash :: name ++ [slash] <:+: slash :: rest ++ [slash] ↔ _
  rw [infix_concat_iff, hend, or_comm]
  rfl

/-- The components of an absolute path are names, and the last one is that of a database. -/
structure Normalized (rest : Text) : Prop where
  named : ∀ name ∈ rest.splitOn slash, name ≠ [] ∧ name ≠ ascii "." ∧ name ≠ ascii ".."
  database : ∃ last, (rest.splitOn slash).getLast? = some last ∧ ascii ".mmdb" <:+ last

theorem normalized_iff (rest : Text) :
    Normalized rest ↔ ([] ∉ rest.splitOn slash ∧ ascii "." ∉ rest.splitOn slash ∧
      ascii ".." ∉ rest.splitOn slash) ∧ ascii ".mmdb" <:+ slash :: rest := by
  rw [suffix_getLast_iff (by decide)]
  constructor
  · rintro ⟨hnamed, hl⟩
    exact ⟨⟨fun h => (hnamed _ h).1 rfl, fun h => (hnamed _ h).2.1 rfl,
      fun h => (hnamed _ h).2.2 rfl⟩, hl⟩
  rintro ⟨⟨he, hdot, hdots⟩, hl⟩
  refine ⟨fun name hname => ⟨?_, ?_, ?_⟩, hl⟩ <;>
  · rintro rfl
    contradiction

theorem accepted_iff {p q : Prop} [Decidable p] [Decidable q] :
    (if p then false else if q then false else true) = true ↔ ¬ p ∧ ¬ q := by
  split_ifs <;> simp [*]

theorem validConfiguredPath_iff (path : Text) :
    validConfiguredPath path = true ↔ ∃ rest, path = slash :: rest ∧ Normalized rest := by
  cases path with
  | nil => simp [validConfiguredPath]
  | cons first rest =>
    by_cases hf : first = slash
    · subst hf
      have he : [] ∈ rest.splitOn slash ↔
          ascii "//" <:+: slash :: rest ∨ ascii "/" <:+ slash :: rest :=
        mem_components_iff (by decide)
      have hdot : ascii "." ∈ rest.splitOn slash ↔
          ascii "/./" <:+: slash :: rest ∨ ascii "/." <:+ slash :: rest :=
        mem_components_iff (by decide)
      have hdots : ascii ".." ∈ rest.splitOn slash ↔
          ascii "/../" <:+: slash :: rest ∨ ascii "/.." <:+ slash :: rest :=
        mem_components_iff (by decide)
      have hr : (∃ text, slash :: rest = slash :: text ∧ Normalized text) ↔ Normalized rest := by
        simp
      rw [hr, normalized_iff, he, hdot, hdots]
      unfold validConfiguredPath
      rw [accepted_iff]
      simp only [cons_ne_nil, head?_cons, ne_eq, not_true_eq_false, false_or, not_or,
        not_not]
      constructor
      · rintro ⟨⟨hend, hl⟩, hmiddle, hdot₁, hdots₁, hdot₂, hdots₂⟩
        exact ⟨⟨⟨hmiddle, hend⟩, ⟨hdot₁, hdot₂⟩, hdots₁, hdots₂⟩, hl⟩
      · rintro ⟨⟨⟨hmiddle, hend⟩, ⟨hdot₁, hdot₂⟩, hdots₁, hdots₂⟩, hl⟩
        exact ⟨⟨hend, hl⟩, hmiddle, hdot₁, hdots₁, hdot₂, hdots₂⟩
    · simp [validConfiguredPath, hf]

/-- Exactly the absolute paths in the allowlist are accepted whose components are names, the
last one that of a database; and the path is held as it was given. -/
theorem fromConfiguration_iff_normalized (path : Text) (allowed : List Text) :
    ((∃ source, fromConfiguration path allowed = .ok source) ↔
      path.length ≤ 4095 ∧ 0#8 ∉ path ∧ (∃ rest, path = slash :: rest ∧ Normalized rest) ∧
        path ∈ allowed) ∧
    ∀ source, fromConfiguration path allowed = .ok source → source.path = path := by
  have hstring (text : Text) : toCString pathCapacity path = .ok text ↔
      path.length ≤ 4095 ∧ 0#8 ∉ path ∧ text = path := by
    unfold toCString pathCapacity
    rw [contains_eq_mem]
    simp only [decide_eq_true_eq]
    split_ifs with hnul hlen
    · simp [hnul]
    · simp only [false_iff]
      omega
    · simp only [Except.ok.injEq, hnul, not_false_eq_true, true_and, eq_comm]
      exact ⟨fun h => ⟨by omega, h⟩, fun h => h.2⟩
  have hallowed (text : Text) : allowed.any (· == text) = true ↔ text ∈ allowed := by
    simp [any_eq_true]
  unfold fromConfiguration
  simp only [bind_eq_ok, require_eq_ok, hstring, hallowed, validConfiguredPath_iff]
  constructor
  · constructor
    · rintro ⟨source, text, ⟨hlen, hnul, rfl⟩, _, hv, _, hmem, _⟩
      exact ⟨hlen, hnul, hv, hmem⟩
    · rintro ⟨hlen, hnul, hv, hmem⟩
      exact ⟨⟨path⟩, path, ⟨hlen, hnul, rfl⟩, (), hv, (), hmem, rfl⟩
  · rintro source ⟨text, ⟨_, _, rfl⟩, _, _, _, _, h⟩
    cases h
    rfl

end Laghu.GeoIp
