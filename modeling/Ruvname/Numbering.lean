/-
# Numbered lists

The elements of a list take consecutive numbers from a given one on, and those whose number is not
free are left out.  No element and no number comes twice, and there are no more numbers than
elements.
-/
import Mathlib

namespace Numbering

variable {α : Type} {free : ℕ → Bool} {x : α} {l : List α} {made : List (α × ℕ)} {i n : ℕ}

/-- The elements with free numbers, and these. -/
def numbered (free : ℕ → Bool) (l : List α) (n : ℕ) : List (α × ℕ) :=
  (l.zipIdx n).filter fun e => free e.2

@[simp] theorem numbered_nil : numbered free ([] : List α) n = [] := rfl

/-- A number that is free is given to the next one in the list. -/
theorem numbered_cons_of_free (h : free n = true) :
    numbered free (x :: l) n = (x, n) :: numbered free l (n + 1) := by
  unfold numbered
  rw [List.zipIdx_cons]
  exact List.filter_cons_of_pos h

/-- One that is taken is left out, together with the next one in the list. -/
theorem numbered_cons_of_not_free (h : free n = false) :
    numbered free (x :: l) n = numbered free l (n + 1) := by
  unfold numbered
  rw [List.zipIdx_cons]
  exact List.filter_cons_of_neg (by simp [h])

/-- What gets a number keeps it: it is its position. -/
theorem numbered_sublist : (numbered free l n).Sublist (l.zipIdx n) := List.filter_sublist

/-- The numbers that are given. -/
theorem exists_mem_numbered :
    (∃ x, (x, i) ∈ numbered free l n) ↔ n ≤ i ∧ i < n + l.length ∧ free i = true := by
  unfold numbered
  simp only [List.mem_filter, List.mk_mem_zipIdx_iff_le_and_getElem?_sub]
  constructor
  · rintro ⟨x, ⟨hle, hget⟩, hfree⟩
    obtain ⟨hlt, -⟩ := List.getElem?_eq_some_iff.mp hget
    exact ⟨hle, by omega, hfree⟩
  · rintro ⟨hle, hlt, hfree⟩
    exact ⟨_, ⟨hle, List.getElem?_eq_getElem (by omega)⟩, hfree⟩

/-! ## The first so many of them -/

/-- Every number that has been given is free, and is a position of the list. -/
theorem mem_of_isPrefix (h : made <+: numbered free l n) {e : α × ℕ} (he : e ∈ made) :
    e.1 ∈ l ∧ n ≤ e.2 ∧ e.2 < n + l.length ∧ free e.2 = true := by
  have hmem := h.subset he
  have hrange := exists_mem_numbered.mp ⟨e.1, hmem⟩
  exact ⟨List.fst_mem_of_mem_zipIdx (numbered_sublist.subset hmem), hrange⟩

/-- No element comes twice. -/
theorem nodup_fst_of_isPrefix (h : made <+: numbered free l n) (hl : l.Nodup) :
    (made.map Prod.fst).Nodup := by
  refine List.Nodup.sublist ((h.sublist.trans numbered_sublist).map Prod.fst) ?_
  rw [List.zipIdx_map_fst]
  exact hl

/-- No number comes twice. -/
theorem nodup_snd_of_isPrefix (h : made <+: numbered free l n) : (made.map Prod.snd).Nodup := by
  refine List.Nodup.sublist ((h.sublist.trans numbered_sublist).map Prod.snd) ?_
  rw [List.zipIdx_map_snd]
  exact List.nodup_range'

/-- No more numbers are given than there are elements. -/
theorem length_le_of_isPrefix (h : made <+: numbered free l n) : made.length ≤ l.length := by
  rw [← List.length_zipIdx (l := l) (i := n)]
  exact (h.sublist.trans numbered_sublist).length_le

end Numbering
