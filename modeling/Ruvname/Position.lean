/-
# What a verdict says about the position of a block

`Good` should mean "the successor of the tip", `Fork` and `Twin` "at or below the tip".  In
a build without overflow checks the index 0 slips through: its predecessor is looked up
under `u64::MAX`, nothing is stored there, and every check that refers to the chain looks
below index 0.  A well made block of index 0 is therefore accepted on any chain.
-/
import Ruvname.Reachable

open Exec

namespace Chain

/-- The verdict on a block agrees with its position on a chain that is not empty. -/
def VerdictSound (P : Platform) (now : UtcTime) (c : Chain) (b : Block) : Prop :=
  ∀ q s, c.checkNewBlock P now b = .ok (q, s) →
    (q = .good → b.index.toNat = c.getHeight.toNat + 1
      ∧ ∃ tip, c.getBlock c.getHeight = some tip ∧ b.prevBlockHash = tip.hash)
    ∧ (q = .fork ∨ q = .twin → 1 ≤ b.index ∧ b.index ≤ c.getHeight)

/-- The difficulty a block has to declare when its identity is not in the chain. -/
def baseDifficulty (P : Platform) (b : Block) : Exec UInt32 :=
  match b.transaction with
  | none => .ok signerDifficulty
  | some t =>
    if t.class' = classDomain then do
      match ← P.parseDomainData t.data with
      | some _ => .ok domainDifficulty
      | none => .ok 4294967295
    else if t.class' = classOrigin then .ok originDifficulty
    else .ok 4294967295

/-- A block that meets all requirements that do not refer to the stored blocks. -/
structure WellMade (P : Platform) (now : UtcTime) (c : Chain) (b : Block) : Prop where
  version : b.version ≤ chainVersion
  wrongHash : b.hash ∉ wrongHashes
  timestamp : b.timestamp.toInt ≤ now.secs.toInt + 60
  declared : ∃ needed, baseDifficulty P b = .ok needed ∧ needed ≤ b.difficulty
  reached : ∃ difficulty, hashDifficulty b.hash = .ok difficulty ∧ b.difficulty.toNat ≤ difficulty
  hash : checkBlockHash P b
  signature : checkBlockSignature P b = .ok true
  strength : b.transaction.isSome → checkPublicKeyStrength P b.pubKey keystoreDifficulty = .ok true
  records : ∀ t, b.transaction = some t → c.checkRecords P t = .ok none

variable {P : Platform} {now : UtcTime} {c : Chain} {b l : Block} {f : Ledger} {s : SignersCache}

/-! ## Indices above 0 -/

/-- The tip is what `get_block` finds at the height. -/
theorem Grounded.getBlock_getHeight (hg : c.Grounded f) (hl : c.lastBlock = some l) :
    ∃ tip, c.getBlock c.getHeight = some tip ∧ tip.hash = l.hash := by
  obtain ⟨a, ha, hrow⟩ := hg.tip l hl
  have hheight : c.getHeight = l.index := getHeight_of_some hl
  refine ⟨a.collapse, ?_, ?_⟩
  · rw [hheight, getBlock, hg.db.getBlock, ha, Option.map_some]
  · calc a.collapse.hash = (BlockRow.ofBlock a).hash := rfl
      _ = (BlockRow.ofBlock l).hash := by rw [hrow]
      _ = l.hash := rfl

/-- A twin is not above the tip. -/
theorem index_le_of_twin (hl : c.lastBlock = some l)
    (h : c.checkNewBlock P now b = .ok (.twin, s)) : b.index ≤ l.index := by
  have haccept : Accepting .twin := Or.inr (Or.inl rfl)
  rw [checkNewBlock, checkBlock_accepting haccept, hl, checkPosition_some haccept] at h
  exact index_le_of_compareWithTip_eq_twin h.2.2.2.2

/-- **From index 1 on every verdict is sound.** -/
theorem Grounded.verdictSound (hg : c.Grounded f) (hl : c.lastBlock = some l) (hb : b.index ≠ 0) :
    c.VerdictSound P now b := by
  have hheight : c.getHeight = l.index := getHeight_of_some hl
  have hone : 1 ≤ b.index := by
    have : b.index.toNat ≠ 0 := fun h0 => hb (UInt64.toNat_inj.mp h0)
    rw [UInt64.le_iff_toNat_le, one_toNat]
    omega
  intro q s h
  constructor
  · rintro rfl
    rcases hg.good_cases h with ⟨hnone, -⟩ | ⟨l', hl', ⟨hindex, hprev⟩ | ⟨hzero, -⟩⟩
    · rw [hl] at hnone
      cases hnone
    · rw [hl, Option.some.injEq] at hl'
      subst hl'
      obtain ⟨tip, htip, hhash⟩ := hg.getBlock_getHeight hl
      exact ⟨by rw [hheight, hindex], tip, htip, by rw [hprev, hhash]⟩
    · exact absurd hzero hb
  · rintro (rfl | rfl)
    · obtain ⟨l', my, hl', hle, -⟩ := hg.fork_cases h
      rw [hl, Option.some.injEq] at hl'
      subst hl'
      exact ⟨hone, by rw [hheight]; exact UInt64.le_iff_toNat_le.mpr hle⟩
    · exact ⟨hone, by rw [hheight]; exact index_le_of_twin hl h⟩

/-! ## Index 0 -/

namespace Grounded

variable (hg : c.Grounded f)
include hg

/-- No domain is registered below the first block. -/
theorem domainById_eq_none {identity : Bytes} {height : UInt64} (h : asI64 height ≤ 0) :
    c.db.domainById identity height = none := by
  rw [Db.domainById, Table.lastWhere?_eq_none]
  intro k row hrow
  obtain ⟨m, x, rfl, -, -⟩ := hg.db.exists_of_find?_domains hrow
  apply decide_eq_false
  rintro ⟨hlt, -⟩
  omega

/-- No full block precedes index 0. -/
theorem getLastFullBlock_zero {key : Option Bytes} : c.getLastFullBlock 0 key = none := by
  have hdb : c.db.lastFullBlock 0 key = none := by
    rw [Db.lastFullBlock, Option.map_eq_none_iff, Table.lastWhere?_eq_none]
    intro k row hrow
    obtain ⟨m, x, rfl, -, -⟩ := hg.db.exists_of_find? hrow
    apply decide_eq_false
    rintro ⟨hlt, -⟩
    have : asI64 0 = 0 := by decide
    omega
  unfold getLastFullBlock
  cases c.lastFullBlock with
  | none => exact hdb
  | some full =>
    have hnot : ¬ full.index < 0 := UInt64.not_lt.mpr (UInt64.le_iff_toNat_le.mpr (Nat.zero_le _))
    simp only [hnot, false_and, if_false]
    exact hdb

/-- At index 0 the needed difficulty does not depend on the chain. -/
theorem neededDifficulty_zero (hb : b.index = 0) : c.neededDifficulty P b = baseDifficulty P b := by
  unfold neededDifficulty baseDifficulty
  cases b.transaction with
  | none =>
    simp only [hb]
    rfl
  | some t =>
    have hdiscount : c.getIdentityDiscount P t.identity false b.index b.timestamp = .ok 0 := by
      rw [hb, getIdentityDiscount, getDomainUpdateTime, hg.domainById_eq_none (by decide)]
      rfl
    simp only [getDifficultyForTransaction, hdiscount, ok_bind]
    have hsub : subU32 P.checks domainDifficulty 0 = .ok domainDifficulty :=
      subU32_of_le (Nat.zero_le _)
    exact hsub ▸ rfl

/-- A wrapped predecessor is not stored. -/
theorem checkParent_zero (hP : P.checks = false) (hb : b.index = 0) :
    c.checkParent P b = .ok none := by
  have hmax : f ((0 : UInt64) - 1).toNat = none := hg.db.eq_none_of_lt (by decide)
  rw [checkParent, hb, hP, subU64, guarded_unchecked, ok_bind, getBlock, hg.db.getBlock, hmax]
  rfl

theorem checkIdentity_zero {t : Transaction} (hP : P.checks = false) (hb : b.index = 0) :
    c.checkIdentity P now b t = .ok none := by
  rw [checkIdentity, hb, hP, subU64, guarded_unchecked, ok_bind, isIdAvailable,
    getIdentityTransactionAndState, hg.domainById_eq_none (by decide)]
  rfl

theorem checkCooldown_zero {t : Transaction} (hb : b.index = 0) :
    c.checkCooldown P b t = .ok none := by
  rw [checkCooldown, hb, canMineIdentity, hg.getLastFullBlock_zero]
  rfl

/-- On a block of index 0 only the block's own make is examined. -/
theorem checkTransaction_zero (hP : P.checks = false) (hb : b.index = 0) :
    c.checkTransaction P now b = .ok none ↔
      (b.transaction.isSome → checkPublicKeyStrength P b.pubKey keystoreDifficulty = .ok true)
        ∧ ∀ t, b.transaction = some t → c.checkRecords P t = .ok none := by
  unfold checkTransaction
  cases htx : b.transaction with
  | none => simp
  | some t =>
    have hkey : checkKeyStrength P b = .ok none
        ↔ checkPublicKeyStrength P b.pubKey keystoreDifficulty = .ok true := by
      rw [checkKeyStrength, bind_verdictIf_eq_none]
      constructor
      · rintro ⟨strong, hstrong, hnot⟩
        rw [hstrong, not_not.mp hnot]
      · intro hstrong
        exact ⟨true, hstrong, by simp⟩
    simp only [firstVerdict_eq_none, List.forall_mem_cons, List.not_mem_nil, false_implies,
      implies_true, and_true, hkey, hg.checkIdentity_zero hP hb, hg.checkCooldown_zero hb,
      Option.isSome_some, Option.some.injEq, forall_eq', true_and, forall_const]

/-- **At index 0 a block passes the decision list exactly when it is well made.** -/
theorem passed_zero_iff (hP : P.checks = false) (hb : b.index = 0) :
    Passed P now c b (some l) ↔ WellMade P now c b := by
  have hahead : addU64 P.checks l.index 1 = .ok (l.index + 1) := by
    rw [hP, addU64, guarded_unchecked]
  constructor
  · intro h
    have htx := (hg.checkTransaction_zero hP hb).mp h.transaction
    refine ⟨?_, ?_, h.timestamp_le, ?_, ?_, h.checkBlockHash, h.checkBlockSignature, htx.1, htx.2⟩
    · have := h.version
      rw [checkVersion, Except.ok.injEq, verdictIf_eq_none] at this
      exact UInt32.not_lt.mp this
    · have := h.wrongHash
      rw [checkWrongHash, Except.ok.injEq, verdictIf_eq_none] at this
      exact this
    · obtain ⟨needed, hneeded, hle⟩ := bind_verdictIf_eq_none.mp h.declaredDifficulty
      rw [hg.neededDifficulty_zero hb] at hneeded
      exact ⟨needed, hneeded, UInt32.not_lt.mp hle⟩
    · obtain ⟨difficulty, hdifficulty, hle⟩ := bind_verdictIf_eq_none.mp h.hashDifficulty
      exact ⟨difficulty, hdifficulty, not_lt.mp hle⟩
  · intro h
    refine ⟨?_, ?_, ?_, ?_, ?_, ?_, ?_, ?_, hg.checkParent_zero hP hb,
      (hg.checkTransaction_zero hP hb).mpr ⟨h.strength, h.records⟩⟩
    · rw [checkVersion, Except.ok.injEq, verdictIf_eq_none]
      exact UInt32.not_lt.mpr h.version
    · rw [checkWrongHash, Except.ok.injEq, verdictIf_eq_none]
      exact h.wrongHash
    · rw [checkClock_eq, Except.ok.injEq, verdictIf_eq_none]
      have := h.timestamp
      omega
    · rw [checkAhead, hahead, ok_bind, Except.ok.injEq, verdictIf_eq_none, hb]
      exact UInt64.not_lt.mpr (UInt64.le_iff_toNat_le.mpr (Nat.zero_le _))
    · obtain ⟨needed, hneeded, hle⟩ := h.declared
      rw [checkDeclaredDifficulty, bind_verdictIf_eq_none]
      exact ⟨needed, by rw [hg.neededDifficulty_zero hb, hneeded], UInt32.not_lt.mpr hle⟩
    · obtain ⟨difficulty, hdifficulty, hle⟩ := h.reached
      exact bind_verdictIf_eq_none.mpr ⟨difficulty, hdifficulty, not_lt.mpr hle⟩
    · rw [checkHash, Except.ok.injEq, verdictIf_eq_none]
      exact not_not_intro h.hash
    · exact bind_verdictIf_eq_none.mpr ⟨true, h.signature, by simp⟩

/-- A well made block of index 0 is accepted, at a position it cannot have. -/
theorem not_verdictSound_zero (hP : P.checks = false) (hl : c.lastBlock = some l) (hb : b.index = 0)
    (hmade : WellMade P now c b) : ¬ c.VerdictSound P now b := by
  have hpassed : Passed P now c b (some l) := (hg.passed_zero_iff hP hb).mpr hmade
  have hle : b.index ≤ l.index := by
    rw [hb]
    exact UInt64.le_iff_toNat_le.mpr (Nat.zero_le _)
  have hcmp : Accepting (c.compareWithTip b l) := by
    unfold compareWithTip
    rw [if_pos hle]
    split
    · exact Or.inr (Or.inl rfl)
    · split
      · split
        · exact Or.inr (Or.inr rfl)
        · exact Or.inr (Or.inl rfl)
      · exact Or.inl rfl
  have hverdict : c.checkNewBlock P now b = .ok (c.compareWithTip b l, c.signers) := by
    rw [checkNewBlock, checkBlock_accepting hcmp, hl, checkPosition_some hcmp]
    refine ⟨hpassed, ?_, ⟨l.index + 1, (hg.addU64_tip hl).1, ?_⟩, ?_, rfl⟩
    · rintro ⟨-, hgt⟩
      exact UInt64.not_lt.mpr hle hgt
    · rw [hb]
      exact UInt64.not_lt.mpr (UInt64.le_iff_toNat_le.mpr (Nat.zero_le _))
    · rw [signStage, hb, if_neg (by decide)]
  intro hsound
  obtain ⟨hgood, hother⟩ := hsound _ _ hverdict
  have hzero : b.index.toNat = 0 := by
    rw [hb]
    rfl
  rcases hcmp with h | h | h
  · have := (hgood h).1
    omega
  · have := UInt64.le_iff_toNat_le.mp (hother (Or.inr h)).1
    rw [one_toNat] at this
    omega
  · have := UInt64.le_iff_toNat_le.mp (hother (Or.inl h)).1
    rw [one_toNat] at this
    omega

end Grounded

/-- **Verdict soundness, exactly.**  In a build without overflow checks, the verdict on a
block is sound if and only if its index is not 0 or the block is not well made. -/
theorem verdictSound_iff {n : Node} (hP : P.checks = false) (hn : n.Reachable P)
    (hl : n.chain.lastBlock.isSome) :
    n.chain.VerdictSound P now b ↔ b.index ≠ 0 ∨ ¬ WellMade P now n.chain b := by
  obtain ⟨f, hg⟩ := hn.grounded
  obtain ⟨l, hl⟩ := Option.isSome_iff_exists.mp hl
  by_cases hb : b.index = 0
  · constructor
    · intro hsound
      right
      intro hmade
      exact hg.not_verdictSound_zero hP hl hb hmade hsound
    · rintro (hne | hmade)
      · exact absurd hb hne
      · -- a block that is not well made is not accepted
        intro q s hverdict
        have hnot : ¬ Accepting q := by
          intro haccept
          rw [checkNewBlock, checkBlock_accepting haccept, hl] at hverdict
          exact hmade ((hg.passed_zero_iff hP hb).mp hverdict.1)
        refine ⟨fun h => absurd (Or.inl h) hnot, fun h => absurd ?_ hnot⟩
        rcases h with h | h
        · exact Or.inr (Or.inr h)
        · exact Or.inr (Or.inl h)
  · exact ⟨fun _ => Or.inl hb, fun _ => hg.verdictSound hl hb⟩

end Chain

namespace Sample

/-- A signing block of index 0. -/
def zeroBlock : Block := block 0 10 3 genesis.hash (key 2) none

end Sample

namespace Node

/-- The verdict on a block of index `u64::MAX` is sound. -/
theorem verdictSound_maxIndex : ∃ n,
    receive (Sample.platform false) Sample.now [Sample.genesis] (fresh Sample.genesis.hash) = .ok n
      ∧ n.chain.VerdictSound (Sample.platform false) Sample.now
        (Sample.block 18446744073709551615 10 3 Sample.genesis.hash (Sample.key 2) none) := by
  have hrun : ∃ n,
      receive (Sample.platform false) Sample.now [Sample.genesis] (fresh Sample.genesis.hash) = .ok n
        ∧ n.chain.lastBlock.isSome := by
    decide +kernel
  obtain ⟨n, hn, hsome⟩ := hrun
  have hreach : Reachable (Sample.platform false) n :=
    ⟨Sample.genesis.hash, receive_run (fun _ _ _ => trivial) hn⟩
  exact ⟨n, hn, (Chain.verdictSound_iff rfl hreach hsome).mpr (Or.inl (by decide))⟩

/-- On the chain of the origin block, the block of index 0 is judged good. -/
theorem not_verdictSound_zeroBlock : ∃ n,
    receive (Sample.platform false) Sample.now [Sample.genesis] (fresh Sample.genesis.hash) = .ok n
      ∧ n.chain.getHeight = 1
      ∧ (∃ r, n.chain.checkNewBlock (Sample.platform false) Sample.now Sample.zeroBlock = .ok r
        ∧ r.1 = .good)
      ∧ ¬ n.chain.VerdictSound (Sample.platform false) Sample.now Sample.zeroBlock := by
  have hrun : ∃ n,
      receive (Sample.platform false) Sample.now [Sample.genesis] (fresh Sample.genesis.hash) = .ok n
        ∧ n.chain.getHeight = 1
        ∧ ∃ r, n.chain.checkNewBlock (Sample.platform false) Sample.now Sample.zeroBlock = .ok r
          ∧ r.1 = .good := by
    decide +kernel
  obtain ⟨n, hn, hheight, ⟨q, s⟩, hr, hq⟩ := hrun
  refine ⟨n, hn, hheight, ⟨(q, s), hr, hq⟩, fun hsound => ?_⟩
  have hindex := ((hsound q s hr).1 hq).1
  rw [hheight] at hindex
  exact absurd hindex (by decide)

end Node
