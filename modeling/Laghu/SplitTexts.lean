import Mathlib.Data.List.Basic

/-!
The pieces of a list between the occurrences of a separator. A piece stands between two
separators, if one more is put before the list and one behind it.
-/

namespace Laghu.SplitTexts

open List

variable {α : Type} [DecidableEq α] {x : α} {text piece : List α}

/-- The pieces have no separators, and the list is put together from them. -/
theorem splitOn_pieces (x : α) (text : List α) : (∀ piece ∈ text.splitOn x, x ∉ piece) ∧
    (text.splitOn x).flatMap (x :: ·) = x :: text := by
  unfold List.splitOn
  induction text with
  | nil => simp
  | cons a text ih =>
    obtain ⟨piece, pieces, hsplit⟩ :=
      exists_cons_of_ne_nil (splitOnP_ne_nil (· == x) text)
    rw [splitOnP_cons_eq_if_modifyHead]
    rw [hsplit] at ih ⊢
    by_cases h : a = x
    · simp_all
    · simp_all [Ne.symm h]

theorem mem_splitOn_iff : piece ∈ text.splitOn x ↔
    x ∉ piece ∧ x :: (piece ++ [x]) <:+: x :: (text ++ [x]) := by
  obtain ⟨hp, ht⟩ := splitOn_pieces x text
  constructor
  · intro hmem
    refine ⟨hp piece hmem, ?_⟩
    obtain ⟨front, back, hsplit⟩ := append_of_mem hmem
    rw [hsplit, flatMap_append, flatMap_cons] at ht
    have hsame : x :: (text ++ [x]) = x :: text ++ [x] := rfl
    rw [hsame, ← ht]
    cases back with
    | nil => exact ⟨front.flatMap (x :: ·), [], by simp⟩
    | cons next back =>
      exact ⟨front.flatMap (x :: ·), next ++ back.flatMap (x :: ·) ++ [x], by simp⟩
  rintro ⟨hpiece, before, behind, h⟩
  have hsplit : (before ++ x :: (piece ++ x :: behind)).splitOn x =
      ([] ++ x :: (text ++ x :: [])).splitOn x := by
    rw [nil_append, ← h]
    simp
  obtain ⟨first, more, hf⟩ := exists_cons_of_ne_nil (splitOn_ne_nil x before)
  obtain ⟨front, last, hl⟩ :=
    eq_nil_or_concat (behind.splitOn x) |>.resolve_left (splitOn_ne_nil x behind)
  rw [splitOn_append_cons_self, splitOn_append_cons_self, splitOn_append_cons_self,
    splitOn_append_cons_self, splitOn_eq_singleton hpiece, hf, hl] at hsplit
  have hmiddle : (more ++ piece :: front) ++ [last] = text.splitOn x ++ [[]] := by
    simpa using (List.cons.inj hsplit).2
  rw [← (append_inj' hmiddle rfl).1]
  exact mem_append_right _ mem_cons_self

/-- What has no separator ends the list exactly if it ends the last piece. -/
theorem suffix_getLast_iff {tail : List α} (h : x ∉ tail) :
    tail <:+ x :: text ↔ ∃ last, (text.splitOn x).getLast? = some last ∧ tail <:+ last := by
  obtain ⟨front, last, hsplit⟩ :=
    eq_nil_or_concat (text.splitOn x) |>.resolve_left (splitOn_ne_nil x text)
  have ht := (splitOn_pieces x text).2
  rw [hsplit, concat_eq_append, flatMap_append, flatMap_singleton] at ht
  rw [← ht, hsplit, concat_eq_append, getLast?_concat]
  constructor
  · intro htail
    refine ⟨last, rfl, ?_⟩
    rcases suffix_or_suffix_of_suffix htail (suffix_append _ (x :: last)) with hin | hout
    · rcases suffix_cons_iff.mp hin with rfl | hin
      · exact absurd mem_cons_self h
      · exact hin
    · exact absurd (hout.subset mem_cons_self) h
  · rintro ⟨_, hl, htail⟩
    cases hl
    exact (htail.trans (suffix_cons x last)).trans (suffix_append _ _)

end Laghu.SplitTexts
