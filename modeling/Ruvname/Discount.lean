/-
# The discount on the difficulty of a domain

`get_identity_discount` works in `i64` and casts its result to `u32`.  As long as nothing overflows,
it gives the number of whole weeks since the last change of the identity plus one, at most eight;
this module states what it gives as an integer.  The difference of the two timestamps is bounded
from above only: a block may be stamped any time before the registration that it renews, and two
weeks before it the discount is negative and the cast wraps around.
-/
import Ruvname.Totality

open Exec

/-! ## Signed words -/

/-- Division towards zero, by the sign of the dividend. -/
theorem tdiv_by_sign (a b : ℤ) : a.tdiv b = if 0 ≤ a then a / b else -(-a / b) := by
  split
  · rename_i h
    exact Int.tdiv_eq_ediv_of_nonneg h
  · rename_i h
    rw [← Int.tdiv_eq_ediv_of_nonneg (by omega : 0 ≤ -a), Int.neg_tdiv, neg_neg]

/-- The cast of an `i64` to `u32` keeps the lower half. -/
theorem toNat_asU32 (x : Int64) : (x.toUInt64.toUInt32.toNat : ℤ) = x.toInt % 2 ^ 32 := by
  have hbits : x.toInt = x.toBitVec.toInt := rfl
  have hword : x.toUInt64.toNat = x.toBitVec.toNat := rfl
  have hlt := x.toBitVec.isLt
  rw [UInt64.toNat_toUInt32, hword, hbits, BitVec.toInt_eq_toNat_cond]
  split
  · omega
  · omega

namespace Chain

variable {P : Platform} {c : Chain} {t : Transaction} {height : UInt64} {time : Int64}
  {identity : Bytes} {i : ℤ} {row : DomainRow}

/-! ## The discount in whole numbers -/

/-- The whole weeks of an age, at most seven. -/
def fullWeeks (age : ℤ) : ℤ := min (age.tdiv oneWeek.toInt) 7

theorem fullWeeks_lower {age : ℤ} (h : -2 ^ 63 ≤ age) : -2 ^ 63 ≤ fullWeeks age := by
  have hweek : oneWeek.toInt = 604800 := by decide
  unfold fullWeeks
  rw [hweek, tdiv_by_sign]
  split <;> omega

/-- An age of minus two weeks is the first for which the discount is negative. -/
theorem fullWeeks_add_one_nonneg {age : ℤ} : 0 ≤ fullWeeks age + 1 ↔ -(2 * oneWeek.toInt) < age := by
  have hweek : oneWeek.toInt = 604800 := by decide
  unfold fullWeeks
  rw [hweek, tdiv_by_sign]
  split <;> omega

theorem fullWeeks_le_seven (age : ℤ) : fullWeeks age ≤ 7 := min_le_right _ _

/-- More time makes no fewer weeks. -/
theorem fullWeeks_mono {a b : ℤ} (h : a ≤ b) : fullWeeks a ≤ fullWeeks b :=
  min_le_min_right 7 (Int.tdiv_le_tdiv (by decide) h)

/-- **The discount for an age**: its weeks and one, as far as the cast keeps them. -/
theorem toNat_discountOf (age : Int64) :
    ((discountOf age).toNat : ℤ) = (fullWeeks age.toInt + 1) % 2 ^ 32 := by
  have hlow := fullWeeks_lower age.le_toInt
  have hhigh := fullWeeks_le_seven age.toInt
  have hseven : (7 : Int64).toInt = 7 := rfl
  have hone : (1 : Int64).toInt = 1 := rfl
  have hq : (age / oneWeek).toInt = age.toInt.tdiv oneWeek.toInt := by
    have hweek : oneWeek.toInt = 604800 := by decide
    have hage := age.le_toInt
    have hage' := age.toInt_lt
    rw [Int64.toInt_div, hweek, tdiv_by_sign]
    split
    · rw [Int.bmod_eq_of_le] <;> omega
    · rw [Int.bmod_eq_of_le] <;> omega
  have hmin : (min (age / oneWeek) 7).toInt = fullWeeks age.toInt := by
    unfold fullWeeks
    by_cases hle : age / oneWeek ≤ 7
    · have hleInt := Int64.le_iff_toInt_le.mp hle
      rw [hq, hseven] at hleInt
      rw [show min (age / oneWeek) 7 = age / oneWeek from if_pos hle, hq, min_eq_left hleInt]
    · have hltInt := fun h => hle (Int64.le_iff_toInt_le.mpr h)
      rw [hq, hseven] at hltInt
      rw [show min (age / oneWeek) 7 = 7 from if_neg hle, hseven, min_eq_right (not_le.mp hltInt).le]
  rw [discountOf, toNat_asU32, toInt_add_of_range, hmin, hone]
  · rw [hmin, hone]
    omega
  · rw [hmin, hone]
    omega

/-- The discount for a registration, if there is one: none for one that is older than a year, one
on a short chain, and otherwise by its age. -/
def wholeDiscount (c : Chain) (time : Int64) : Option (ℤ × DomainRow) → ℤ
  | none => 0
  | some (_, row) =>
    if row.timestamp.toInt < time.toInt - domainLifetime.toInt then 0
    else if c.getHeight < blocksWithoutDiscount then 1
    else fullWeeks (time.toInt - row.timestamp.toInt) + 1

theorem wholeDiscount_some :
    c.wholeDiscount time (some (i, row)) =
      if row.timestamp.toInt < time.toInt - domainLifetime.toInt then 0
      else if c.getHeight < blocksWithoutDiscount then 1
      else fullWeeks (time.toInt - row.timestamp.toInt) + 1 := rfl

theorem wholeDiscount_le_eight (r : Option (ℤ × DomainRow)) : c.wholeDiscount time r ≤ 8 := by
  cases r with
  | none => exact (by decide : (0 : ℤ) ≤ 8)
  | some r =>
    obtain ⟨i, row⟩ := r
    have hweeks := fullWeeks_le_seven (time.toInt - row.timestamp.toInt)
    rw [wholeDiscount_some]
    split
    · omega
    · split
      · omega
      · omega

/-- **The discount that the code computes**, when the differences of times are in range. -/
theorem getIdentityDiscount_toNat
    (hyear : ∀ i row, c.db.domainById identity height = some (i, row) →
      InI64 (time.toInt - domainLifetime.toInt))
    (hage : ∀ i row, c.db.domainById identity height = some (i, row) →
      time.toInt - domainLifetime.toInt ≤ row.timestamp.toInt →
      blocksWithoutDiscount ≤ c.getHeight → InI64 (time.toInt - row.timestamp.toInt)) :
    ∃ k, c.getIdentityDiscount P identity false height time = .ok k
      ∧ (k.toNat : ℤ) = c.wholeDiscount time (c.db.domainById identity height) % 2 ^ 32 := by
  cases hrow : c.db.domainById identity height with
  | none => exact ⟨0, getIdentityDiscount_of_none hrow, rfl⟩
  | some r =>
    obtain ⟨i, row⟩ := r
    obtain ⟨hlow, hhigh⟩ := hyear i row hrow
    rw [getIdentityDiscount_of_some hrow, subI64_of_range hlow hhigh, ok_bind]
    have hold : row.timestamp < time - domainLifetime
        ↔ row.timestamp.toInt < time.toInt - domainLifetime.toInt := by
      rw [Int64.lt_iff_toInt_lt, toInt_sub_of_range hlow hhigh]
    rw [wholeDiscount_some]
    by_cases hyoung : row.timestamp < time - domainLifetime
    · rw [if_pos hyoung, if_pos (hold.mp hyoung)]
      exact ⟨0, rfl, rfl⟩
    · rw [if_neg hyoung, if_neg (hold.not.mp hyoung)]
      by_cases hshort : c.getHeight < blocksWithoutDiscount
      · rw [if_pos hshort, if_pos hshort]
        exact ⟨1, rfl, rfl⟩
      · obtain ⟨hlow', hhigh'⟩ := hage i row hrow (not_lt.mp (hold.not.mp hyoung))
          (UInt64.not_lt.mp hshort)
        rw [if_neg hshort, if_neg hshort, subI64_of_range hlow' hhigh', ok_bind]
        refine ⟨_, rfl, ?_⟩
        rw [toNat_discountOf, toInt_sub_of_range hlow' hhigh']

/-! ## The difficulty in range -/

/-- A discount of at most eight bits is subtracted as it is. -/
theorem domainDifficulty_sub {k : UInt32} (hk : k.toNat ≤ 8) :
    subU32 P.checks domainDifficulty k = .ok (domainDifficulty - k)
      ∧ (domainDifficulty - k).toNat = 24 - k.toNat := by
  have htotal : domainDifficulty.toNat = 24 := by decide
  refine ⟨subU32_of_le (by omega), ?_⟩
  rw [UInt32.toNat_sub_of_le _ _ (UInt32.le_iff_toNat_le.mpr (by omega)), htotal]

/-- The needed difficulty is in range: a build with overflow checks computes it, one without them
computes the same, it is what the integers give, and it lies at most eight below the full one. -/
def DifficultyInRange (P : Platform) (c : Chain) (t : Transaction) (height : UInt64) (time : Int64) :
    Prop :=
  ∃ d, (∀ checks, c.getDifficultyForTransaction { P with checks := checks } t height time = .ok d)
    ∧ (d.toNat : ℤ) = domainDifficulty.toNat
      - c.wholeDiscount time (c.db.domainById t.identity height)
    ∧ domainDifficulty.toNat - 8 ≤ d.toNat ∧ d.toNat ≤ domainDifficulty.toNat

/-- The time of a block goes with the registration of its identity: the year before it is in range,
and if the discount is by age, the block is not stamped two weeks before the registration. -/
structure TimesInRange (c : Chain) (identity : Bytes) (height : UInt64) (time : Int64) : Prop where
  year : ∀ i row, c.db.domainById identity height = some (i, row) →
    -2 ^ 63 ≤ time.toInt - domainLifetime.toInt
  age : ∀ i row, c.db.domainById identity height = some (i, row) →
    time.toInt - domainLifetime.toInt ≤ row.timestamp.toInt →
    blocksWithoutDiscount ≤ c.getHeight →
    row.timestamp.toInt - 2 * oneWeek.toInt < time.toInt

/-- What the difficulty of a domain with readable data is computed from. -/
theorem getDifficultyForTransaction_of_data {data : DomainData} (hclass : t.class' = classDomain)
    (hdata : P.parseDomainData t.data = .ok (some data)) :
    c.getDifficultyForTransaction P t height time = (do
      let discount ← c.getIdentityDiscount P t.identity false height time
      subU32 P.checks domainDifficulty discount) := by
  unfold getDifficultyForTransaction
  rw [if_pos hclass, hdata]
  rfl

/-- The discount is computed where the times are in range. -/
theorem TimesInRange.getIdentityDiscount (h : c.TimesInRange identity height time) :
    ∃ k, c.getIdentityDiscount P identity false height time = .ok k
      ∧ (k.toNat : ℤ) = c.wholeDiscount time (c.db.domainById identity height) % 2 ^ 32 := by
  have hlife : domainLifetime.toInt = 31536000 := by decide
  have hweek : oneWeek.toInt = 604800 := by decide
  have hhigh := time.toInt_lt
  refine getIdentityDiscount_toNat (fun i row hrow => ⟨h.year i row hrow, by omega⟩)
    fun i row hrow hyoung hlong => ?_
  have := h.age i row hrow hyoung hlong
  exact ⟨by omega, by omega⟩

/-- It is not negative then. -/
theorem TimesInRange.wholeDiscount_nonneg (h : c.TimesInRange identity height time) :
    0 ≤ c.wholeDiscount time (c.db.domainById identity height) := by
  have hlife : domainLifetime.toInt = 31536000 := by decide
  have hweek : oneWeek.toInt = 604800 := by decide
  cases hrow : c.db.domainById identity height with
  | none => exact le_rfl
  | some r =>
    obtain ⟨i, row⟩ := r
    rw [wholeDiscount_some]
    split
    · exact le_rfl
    · rename_i hyoung
      split
      · exact zero_le_one
      · rename_i hlong
        have := h.age i row hrow (by omega) (UInt64.not_lt.mp hlong)
        rw [fullWeeks_add_one_nonneg]
        omega

/-- **The needed difficulty is in range exactly when the times are.** -/
theorem difficultyInRange_iff {data : DomainData} (hclass : t.class' = classDomain)
    (hdata : P.parseDomainData t.data = .ok (some data)) :
    DifficultyInRange P c t height time ↔ c.TimesInRange t.identity height time := by
  have htotal : domainDifficulty.toNat = 24 := by decide
  have hlife : domainLifetime.toInt = 31536000 := by decide
  have hweek : oneWeek.toInt = 604800 := by decide
  have hhigh := time.toInt_lt
  have hcompute : ∀ checks, c.getDifficultyForTransaction { P with checks := checks } t height time
      = (do
        let discount ← c.getIdentityDiscount { P with checks := checks } t.identity false height time
        subU32 checks domainDifficulty discount) :=
    fun checks => getDifficultyForTransaction_of_data hclass (P.parseDomainData_checks checks hdata)
  unfold DifficultyInRange
  simp only [hcompute]
  constructor
  · rintro ⟨d, hd, hexact, -, hle⟩
    have hnonneg : 0 ≤ c.wholeDiscount time (c.db.domainById t.identity height) := by omega
    refine ⟨fun i row hrow => ?_, fun i row hrow hyoung hlong => ?_⟩
    · -- with overflow checks, the subtraction of a year has returned
      obtain ⟨discount, hdiscount, -⟩ := bind_eq_ok.mp (hd true)
      rw [getIdentityDiscount_of_some hrow] at hdiscount
      obtain ⟨oldest, holdest, -⟩ := bind_eq_ok.mp hdiscount
      exact (returns_subI64.mp ⟨_, holdest⟩).1
    · rw [hrow, wholeDiscount_some, if_neg (by omega), if_neg (UInt64.not_lt.mpr hlong),
        fullWeeks_add_one_nonneg] at hnonneg
      omega
  · intro h
    have hdiscount : ∀ checks, ∃ k, c.getIdentityDiscount { P with checks := checks } t.identity
        false height time = .ok k
        ∧ (k.toNat : ℤ) = c.wholeDiscount time (c.db.domainById t.identity height) % 2 ^ 32 :=
      fun checks => h.getIdentityDiscount
    have hnonneg := h.wholeDiscount_nonneg
    have hupper : c.wholeDiscount time (c.db.domainById t.identity height) ≤ 8 :=
      wholeDiscount_le_eight _
    obtain ⟨k, -, hk⟩ := hdiscount true
    have hsmall : (k.toNat : ℤ) = c.wholeDiscount time (c.db.domainById t.identity height) := by
      rw [hk, Int.emod_eq_of_lt hnonneg (by omega)]
    obtain ⟨-, hdifficulty⟩ := domainDifficulty_sub (P := P) (k := k) (by omega)
    refine ⟨domainDifficulty - k, fun checks => ?_, by omega, by omega, by omega⟩
    -- both builds compute the same discount
    obtain ⟨k', hk', hsame⟩ := hdiscount checks
    have heq : k' = k := by
      apply UInt32.toNat_inj.mp
      omega
    rw [hk', ok_bind, heq]
    exact (domainDifficulty_sub (P := { P with checks := checks }) (by omega)).1

end Chain

namespace Sample

/-- A registration on top of the origin block. -/
def registered2 : Block := block 2 10 3 genesis.hash (key 2) (some (domain ⟨[7]⟩))

end Sample

namespace Chain

open Node

/-- A change of the registration a minute later. -/
theorem difficultyInRange_registered2 : ∃ n : Node, n.Reachable (Sample.platform true) ∧
    n.chain.db.domainById ⟨[7]⟩ 3 ≠ none ∧
    DifficultyInRange (Sample.platform true) n.chain (Sample.domain ⟨[7]⟩) 3 70 := by
  have hrun : ∃ n, receive (Sample.platform true) Sample.now [Sample.genesis, Sample.registered2]
        (fresh Sample.genesis.hash) = .ok n
      ∧ n.chain.db.domainById ⟨[7]⟩ 3 ≠ none ∧ n.chain.getHeight < blocksWithoutDiscount := by
    decide +kernel
  obtain ⟨n, hn, hfound, hshort⟩ := hrun
  have hdata : (Sample.platform true).parseDomainData (Sample.domain ⟨[7]⟩).data
      = .ok (some ⟨Bytes.default, "ruv", "", [], []⟩) := by decide +kernel
  refine ⟨n, ⟨_, receive_run (fun _ _ _ => trivial) hn⟩, hfound, ?_⟩
  apply (difficultyInRange_iff rfl hdata).mpr
  exact ⟨fun _ _ _ => by decide, fun _ _ _ _ hlong => absurd hshort (UInt64.not_lt.mpr hlong)⟩

/-- A block that is stamped as early as can be: with overflow checks the validator stops. -/
theorem not_difficultyInRange_registered2 : ∃ n : Node, n.Reachable (Sample.platform true) ∧
    Int64.minValue.toInt ≤ Sample.now.secs.toInt + 60 ∧
    n.chain.getDifficultyForTransaction (Sample.platform true) (Sample.domain ⟨[7]⟩) 3 Int64.minValue
      = .error .overflow ∧
    ¬ DifficultyInRange (Sample.platform true) n.chain (Sample.domain ⟨[7]⟩) 3 Int64.minValue := by
  have hrun : ∃ n, receive (Sample.platform true) Sample.now [Sample.genesis, Sample.registered2]
        (fresh Sample.genesis.hash) = .ok n
      ∧ n.chain.getDifficultyForTransaction (Sample.platform true) (Sample.domain ⟨[7]⟩) 3
        Int64.minValue = .error .overflow := by
    decide +kernel
  obtain ⟨n, hn, hstops⟩ := hrun
  refine ⟨n, ⟨_, receive_run (fun _ _ _ => trivial) hn⟩, by decide, hstops, ?_⟩
  rintro ⟨d, hd, -⟩
  have hreturns : n.chain.getDifficultyForTransaction (Sample.platform true) (Sample.domain ⟨[7]⟩) 3
      Int64.minValue = .ok d := hd true
  rw [hstops] at hreturns
  cases hreturns

end Chain
