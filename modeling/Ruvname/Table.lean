/-
# Keyed tables

A library for the tables of a relational store: rows under a primary key, kept in key
order, at most `cap` of them.  Uniqueness of keys, the order and the bound are fields of
the structure, so that a table that breaks them cannot be built.

A table is determined by its lookup function `find?` (`Table.ext_find?`), and each
statement of a store gets one lemma that says what it does in terms of `find?`:
inserting a row, deleting all rows from a key on, and selecting the row of greatest key
among those with a property.
-/
import Mathlib

/-- Rows of type `α` under distinct keys, in increasing key order, at most `cap` rows. -/
@[ext] structure Table (K α : Type) [LinearOrder K] (cap : ℕ) where
  rows : List (K × α)
  sorted : rows.Pairwise (fun a b => a.1 < b.1)
  bounded : rows.length ≤ cap

namespace Table

variable {K α : Type} [LinearOrder K] {cap : ℕ}

/-- The table without rows. -/
def empty : Table K α cap where
  rows := []
  sorted := List.Pairwise.nil
  bounded := Nat.zero_le _

/-! ## Lookup -/

/-- The row under a key. -/
def find? (t : Table K α cap) (k : K) : Option α :=
  (t.rows.find? (fun r => r.1 = k)).map Prod.snd

@[simp] theorem find?_empty (k : K) : (empty : Table K α cap).find? k = none := rfl

/-- In a key-ordered list, membership is lookup. -/
theorem mem_rows_iff {t : Table K α cap} {k : K} {a : α} :
    (k, a) ∈ t.rows ↔ t.find? k = some a := by
  obtain ⟨rows, hs, hb⟩ := t
  simp only [find?]
  clear hb
  induction rows with
  | nil => simp
  | cons r rows ih =>
    obtain ⟨j, b⟩ := r
    rw [List.pairwise_cons] at hs
    rw [List.mem_cons, ih hs.2, List.find?_cons]
    by_cases hj : j = k
    · subst hj
      have hnone : rows.find? (fun r => decide (r.1 = j)) = none := by
        rw [List.find?_eq_none]
        intro r hr
        simpa using (hs.1 r hr).ne'
      rw [hnone]
      simp [eq_comm]
    · simp [hj, Ne.symm hj]

/-- A table is determined by what it finds. -/
theorem ext_find? {t u : Table K α cap} (h : ∀ k, t.find? k = u.find? k) : t = u := by
  have hmem : ∀ r : K × α, r ∈ t.rows ↔ r ∈ u.rows := by
    rintro ⟨k, a⟩
    rw [mem_rows_iff, mem_rows_iff, h]
  have hperm : t.rows.Perm u.rows := by
    apply (List.perm_ext_iff_of_nodup ?_ ?_).mpr hmem
    · exact t.sorted.imp fun hab he => (he ▸ hab).ne rfl
    · exact u.sorted.imp fun hab he => (he ▸ hab).ne rfl
  apply Table.ext
  exact hperm.eq_of_pairwise (fun a b _ _ hab hba => absurd hab (lt_asymm hba)) t.sorted u.sorted

/-- A table that finds a row under each key of a finite set has as many rows. -/
theorem card_le_of_forall_isSome {t : Table K α cap} (s : Finset K)
    (h : ∀ k ∈ s, (t.find? k).isSome) : s.card ≤ cap := by
  have hsub : s ⊆ (t.rows.map Prod.fst).toFinset := by
    intro k hk
    obtain ⟨a, ha⟩ := Option.isSome_iff_exists.mp (h k hk)
    rw [List.mem_toFinset, List.mem_map]
    exact ⟨(k, a), mem_rows_iff.mpr ha, rfl⟩
  calc s.card ≤ (t.rows.map Prod.fst).toFinset.card := Finset.card_le_card hsub
    _ ≤ (t.rows.map Prod.fst).length := List.toFinset_card_le _
    _ = t.rows.length := List.length_map _
    _ ≤ cap := t.bounded

/-! ## Deleting from a key on -/

/-- `DELETE … WHERE key >= k`. -/
def deleteFrom (t : Table K α cap) (k : K) : Table K α cap where
  rows := t.rows.filter (fun r => r.1 < k)
  sorted := t.sorted.filter _
  bounded := (List.length_filter_le _ _).trans t.bounded

theorem mem_deleteFrom {t : Table K α cap} {k : K} {r : K × α} :
    r ∈ (t.deleteFrom k).rows ↔ r ∈ t.rows ∧ r.1 < k := by
  simp [deleteFrom]

theorem find?_deleteFrom (t : Table K α cap) (k j : K) :
    (t.deleteFrom k).find? j = if j < k then t.find? j else none := by
  apply Option.ext
  intro a
  rw [← mem_rows_iff, mem_deleteFrom, mem_rows_iff]
  by_cases hj : j < k <;> simp [hj]

/-! ## Inserting a row -/

/-- `INSERT`: refused when the key is taken or the table is full. -/
def insert? (t : Table K α cap) (k : K) (a : α) : Option (Table K α cap) :=
  if h : t.find? k = none ∧ t.rows.length < cap then
    some {
      rows := t.rows.filter (fun r => r.1 < k) ++ (k, a) :: t.rows.filter (fun r => k < r.1)
      sorted := by
        rw [List.pairwise_append, List.pairwise_cons]
        refine ⟨t.sorted.filter _, ⟨?_, t.sorted.filter _⟩, ?_⟩
        · intro r hr
          simpa using (List.mem_filter.mp hr).2
        · intro r hr s hs
          have hrk : r.1 < k := by simpa using (List.mem_filter.mp hr).2
          rcases List.mem_cons.mp hs with rfl | hs
          · exact hrk
          · exact hrk.trans (by simpa using (List.mem_filter.mp hs).2)
      bounded := by
        have hdisj : (t.rows.filter (fun r => r.1 < k)).length
            + (t.rows.filter (fun r => k < r.1)).length ≤ t.rows.length := by
          rw [← List.countP_eq_length_filter, ← List.countP_eq_length_filter]
          have hle := List.length_eq_countP_add_countP (fun r => decide (r.1 < k)) (l := t.rows)
          have hmono : t.rows.countP (fun r => decide (k < r.1))
              ≤ t.rows.countP (fun r => decide ¬ (decide (r.1 < k)) = true) := by
            apply List.countP_mono_left
            intro r _ hr
            simpa using (of_decide_eq_true hr).le
          omega
        rw [List.length_append, List.length_cons]
        omega }
  else none

/-- Inserting succeeds exactly when the key is free and there is room. -/
theorem insert?_isSome {t : Table K α cap} {k : K} {a : α} :
    (t.insert? k a).isSome ↔ t.find? k = none ∧ t.rows.length < cap := by
  unfold insert?
  split
  · simpa
  · rename_i h
    simpa using h

/-- What a table finds after a row has been inserted. -/
theorem find?_insert? {t t' : Table K α cap} {k : K} {a : α} (h : t.insert? k a = some t') (j : K) :
    t'.find? j = if j = k then some a else t.find? j := by
  have hfree : t.find? k = none :=
    (insert?_isSome.mp (by rw [h]; rfl)).1
  unfold insert? at h
  split at h
  swap
  · cases h
  cases h
  apply Option.ext
  intro b
  rw [← mem_rows_iff]
  simp only [List.mem_append, List.mem_cons, List.mem_filter, decide_eq_true_eq, Prod.mk.injEq,
    mem_rows_iff]
  by_cases hj : j = k
  · subst hj
    simp [eq_comm]
  · rcases lt_or_gt_of_ne hj with hlt | hgt
    · simp [hj, hlt, hlt.not_gt]
    · simp [hj, hgt, hgt.not_gt]

/-! ## The last row with a property -/

/-- `SELECT … WHERE p ORDER BY key DESC LIMIT 1`. -/
def lastWhere? (t : Table K α cap) (p : K → α → Bool) : Option (K × α) :=
  (t.rows.filter (fun r => p r.1 r.2)).getLast?

theorem lastWhere?_eq_none {t : Table K α cap} {p : K → α → Bool} :
    t.lastWhere? p = none ↔ ∀ k a, t.find? k = some a → p k a = false := by
  simp only [lastWhere?, List.getLast?_eq_none_iff, List.filter_eq_nil_iff, Prod.forall,
    mem_rows_iff, Bool.not_eq_true]

/-- The selected row is stored, has the property, and no stored row above it has. -/
theorem lastWhere?_eq_some {t : Table K α cap} {p : K → α → Bool} {k : K} {a : α} :
    t.lastWhere? p = some (k, a) ↔
      t.find? k = some a ∧ p k a ∧ ∀ j b, t.find? j = some b → p j b → j ≤ k := by
  have hsorted : (t.rows.filter (fun r => p r.1 r.2)).Pairwise (fun a b => a.1 < b.1) :=
    t.sorted.filter _
  have hmem : ∀ j b, (j, b) ∈ t.rows.filter (fun r => p r.1 r.2) ↔ t.find? j = some b ∧ p j b := by
    intro j b
    rw [List.mem_filter, mem_rows_iff]
  have hmax : ∀ l : List (K × α), l.Pairwise (fun a b => a.1 < b.1) →
      (l.getLast? = some (k, a) ↔ (k, a) ∈ l ∧ ∀ r ∈ l, r.1 ≤ k) := by
    intro l hl
    induction l using List.reverseRecOn with
    | nil => simp
    | append_singleton l r ih =>
      rw [List.pairwise_append] at hl
      have hlast : ∀ s ∈ l, s.1 < r.1 := fun s hs => hl.2.2 s hs r List.mem_cons_self
      rw [List.getLast?_concat, Option.some.injEq]
      constructor
      · rintro rfl
        refine ⟨by simp, fun s hs => ?_⟩
        rcases List.mem_append.mp hs with hs | hs
        · exact (hlast s hs).le
        · rw [List.mem_singleton.mp hs]
      · rintro ⟨hin, hle⟩
        rcases List.mem_append.mp hin with hin | hin
        · exact absurd (hle r (by simp)) (hlast _ hin).not_ge
        · exact (List.mem_singleton.mp hin).symm
  rw [lastWhere?, hmax _ hsorted, hmem, and_assoc]
  constructor
  · rintro ⟨h₁, h₂, h₃⟩
    exact ⟨h₁, h₂, fun j b hj hp => h₃ (j, b) ((hmem j b).mpr ⟨hj, hp⟩)⟩
  · rintro ⟨h₁, h₂, h₃⟩
    exact ⟨h₁, h₂, fun r hr => h₃ r.1 r.2 ((hmem r.1 r.2).mp hr).1 ((hmem r.1 r.2).mp hr).2⟩

/-- A narrower statement that still holds of the row selects the same one. -/
theorem lastWhere?_narrow {t : Table K α cap} {p q : K → α → Bool} {k : K} {a : α}
    (h : t.lastWhere? p = some (k, a)) (hq : q k a) (hqp : ∀ j b, q j b → p j b) :
    t.lastWhere? q = some (k, a) := by
  obtain ⟨hfind, -, hmax⟩ := lastWhere?_eq_some.mp h
  exact lastWhere?_eq_some.mpr ⟨hfind, hq, fun j b hj hb => hmax j b hj (hqp j b hb)⟩

theorem lastWhere?_narrow_none {t : Table K α cap} {p q : K → α → Bool}
    (h : t.lastWhere? p = none) (hqp : ∀ j b, q j b → p j b) : t.lastWhere? q = none := by
  rw [lastWhere?_eq_none] at h ⊢
  intro j b hj
  by_contra hb
  rw [Bool.not_eq_false] at hb
  have htrue := hqp j b hb
  rw [h j b hj] at htrue
  cases htrue

/-! ## Statements that only look below a key -/

/-- A selection below `k` does not see the rows from `k` on. -/
theorem lastWhere?_deleteFrom {t : Table K α cap} {k : K} {p : K → α → Bool}
    (hp : ∀ j a, p j a → j < k) : (t.deleteFrom k).lastWhere? p = t.lastWhere? p := by
  unfold lastWhere? deleteFrom
  rw [List.filter_filter]
  congr 1
  apply List.filter_congr
  rintro ⟨j, a⟩ _
  cases hpj : p j a with
  | false => rfl
  | true => simpa using hp j a hpj

/-- `SELECT count(…) WHERE p`. -/
def countWhere (t : Table K α cap) (p : K → α → Bool) : ℕ :=
  t.rows.countP (fun r => p r.1 r.2)

/-- A count below `k` does not see the rows from `k` on. -/
theorem countWhere_deleteFrom {t : Table K α cap} {k : K} {p : K → α → Bool}
    (hp : ∀ j a, p j a → j < k) : (t.deleteFrom k).countWhere p = t.countWhere p := by
  unfold countWhere deleteFrom
  rw [List.countP_filter]
  apply List.countP_congr
  rintro ⟨j, a⟩ _
  simp only [Bool.and_eq_true, decide_eq_true_eq]
  exact ⟨And.left, fun h => ⟨h, hp j a h⟩⟩

/-- Inserting at or above `k` does not change what lies below `k`. -/
theorem deleteFrom_insert? {t t' : Table K α cap} {j k : K} {a : α}
    (h : t.insert? j a = some t') (hkj : k ≤ j) : t'.deleteFrom k = t.deleteFrom k := by
  apply ext_find?
  intro i
  rw [find?_deleteFrom, find?_deleteFrom, find?_insert? h]
  by_cases hi : i < k
  · rw [if_pos hi, if_pos hi, if_neg (hi.trans_le hkj).ne]
  · rw [if_neg hi, if_neg hi]

/-- Deleting from `j` on does not change what lies below `k ≤ j`. -/
theorem deleteFrom_deleteFrom {t : Table K α cap} {j k : K} (hkj : k ≤ j) :
    (t.deleteFrom j).deleteFrom k = t.deleteFrom k := by
  apply ext_find?
  intro i
  rw [find?_deleteFrom, find?_deleteFrom, find?_deleteFrom]
  by_cases hi : i < k
  · rw [if_pos hi, if_pos hi, if_pos (hi.trans_le hkj)]
  · rw [if_neg hi, if_neg hi]

end Table
