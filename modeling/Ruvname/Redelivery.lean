/-
# Blocks that are delivered again

A peer may send a block that is already stored.  The comparison that recognises it as a
twin comes last: all checks run first, against the tip, the clock and the caches of today.
In a chain that only grows at its tip every one of them stays passed, with one exception.
An old signing block is held against the signers of the *current* last full block, as long
as that block has fewer than `BLOCK_SIGNERS_ALL` blocks on top of it.
-/
import Ruvname.Cooldown
import Ruvname.Discount
import Ruvname.SignerDiscipline

open Exec

namespace Chain

variable {P : Platform} {now later : UtcTime} {c c₀ : Chain} {b x full : Block} {f : Ledger}
  {s : SignersCache} {log : List (UtcTime × Block)}

/-- The clock has moved on. -/
theorem checkClock_later (h : checkClock P now b = .ok none) (hle : now.secs ≤ later.secs) :
    checkClock P later b = .ok none := by
  rw [checkClock_eq, Except.ok.injEq, verdictIf_eq_none] at h ⊢
  have := Int64.le_iff_toInt_le.mp hle
  omega

/-- An identity that was available to a key is so at a later time. -/
theorem isIdAvailable_later (hc : c.Clean f) {identity key : Bytes} {height : UInt64}
    (hle : now.secs ≤ later.secs) (h : c.isIdAvailable P height now.secs identity key = .ok true) :
    c.isIdAvailable P height later.secs identity key = .ok true := by
  cases hrow : c.db.domainById identity height with
  | none =>
    rw [isIdAvailable, getIdentityTransactionAndState, hrow]
    rfl
  | some r =>
    obtain ⟨i, row⟩ := r
    obtain ⟨halive, htoAlive, howned, htoOwned⟩ :=
      expiry_range (P := P) (hc.domainById_timestamp hrow)
    rw [isIdAvailable, getIdentityTransactionAndState_row later.secs hrow halive howned, ok_bind]
    dsimp only
    by_cases hkey : row.toTransaction.signing = key
    · rw [if_pos hkey]
    · rw [if_neg hkey]
      -- another key: the time to renew was over then, so it is over now
      have hfree := (eq_or_lt_of_isIdAvailable hrow halive howned h).resolve_left
        fun heq => hkey heq.symm
      have hrenew : (0 : ℤ) ≤ domainRenewTime.toInt := by decide
      have htime := Int64.le_iff_toInt_le.mp hle
      rw [ge_iff_le, Int64.le_iff_toInt_le] at hfree
      have hnotOwned : ¬ row.timestamp + domainLifetime + domainRenewTime ≥ later.secs := by
        rw [ge_iff_le, Int64.le_iff_toInt_le]
        omega
      have hnotAlive : ¬ row.timestamp + domainLifetime ≥ later.secs := by
        rw [ge_iff_le, Int64.le_iff_toInt_le]
        omega
      rw [if_neg hnotAlive, if_neg hnotOwned]

/-- The cached fast path answers like the query on the table, as far as the timestamp goes, if
the cached block is the last full one below the index asked for or not below it at all. -/
theorem getLastFullBlock_timestamp (hr : c.db.Represents f) {before : UInt64} {key : Bytes}
    (hbefore : before.toNat < 2 ^ 63)
    (hcache : ∀ full, c.lastFullBlock = some full → full.index < before →
      (f.truncate before.toNat).IsLastFull (some full)) :
    (c.getLastFullBlock before (some key)).map Block.timestamp
      = (c.db.lastFullBlock before (some key)).map Block.timestamp := by
  cases hcached : c.lastFullBlock with
  | none => rw [Chain.getLastFullBlock, hcached]
  | some full =>
    by_cases hfast : full.index < before ∧ ∀ k ∈ some key, full.pubKey = k
    · obtain ⟨⟨a, ha, hrow⟩, hsome, hgreatest⟩ := hcache full hcached hfast.1
      obtain ⟨hlt, ha⟩ := Ledger.truncate_eq_some ha
      have hafull : Db.Represents.IsFullFor (some key) a := by
        refine ⟨by rw [Ledger.isSome_of_ofBlock hrow, hsome], fun k hk => ?_⟩
        rw [show a.pubKey = full.pubKey from congrArg BlockRow.pubKey hrow]
        exact hfast.2 k hk
      have htime : a.timestamp = full.timestamp := congrArg BlockRow.timestamp hrow
      rw [Chain.getLastFullBlock, hcached]
      simp only [if_pos hfast, Option.map_some]
      cases hquery : c.db.lastFullBlock before (some key) with
      | none => exact absurd hafull (hr.lastFullBlock_eq_none hbefore hquery _ a ha hlt)
      | some last =>
        obtain ⟨p, z, hz, rfl, hp, hzfull, hmax⟩ := hr.lastFullBlock_eq_some hbefore hquery
        have h₁ := hmax _ a ha hlt hafull
        have h₂ := hgreatest p z (by rw [Ledger.truncate_of_lt hp, hz]) hzfull.1
        have hpa : p = full.index.toNat := by omega
        rw [hpa, ha, Option.some.injEq] at hz
        subst hz
        rw [Option.map_some, Block.collapse_timestamp, htime]
    · rw [Chain.getLastFullBlock, hcached]
      simp only [if_neg hfast]

/-- The cooldown goes by the timestamp of the last full block and by the rows below the block. -/
theorem checkCooldown_congr (hagree : AgreeBelow b.index c₀ c)
    (htime : (c.getLastFullBlock b.index (some b.pubKey)).map Block.timestamp
      = (c₀.getLastFullBlock b.index (some b.pubKey)).map Block.timestamp) (t : Transaction) :
    c.checkCooldown P b t = c₀.checkCooldown P b t := by
  have hmine : c.canMineIdentity P t.identity b.index b.timestamp b.pubKey
      = c₀.canMineIdentity P t.identity b.index b.timestamp b.pubKey := by
    unfold canMineIdentity
    rw [hagree.isDomainInBlockchain]
    cases h : c.getLastFullBlock b.index (some b.pubKey) with
    | none =>
      rw [h, Option.map_none, eq_comm, Option.map_eq_none_iff] at htime
      rw [htime]
    | some last =>
      rw [h, Option.map_some, eq_comm, Option.map_eq_some_iff] at htime
      obtain ⟨last₀, hlast₀, heq⟩ := htime
      rw [hlast₀]
      simp only [heq]
  rw [checkCooldown, hmine, checkCooldown]

theorem Settled.getLastFullBlock_timestamp (hs : c.Settled P f) {before : UInt64} {key : Bytes}
    (hbefore : before.toNat < 2 ^ 63) :
    (c.getLastFullBlock before (some key)).map Block.timestamp
      = (c.db.lastFullBlock before (some key)).map Block.timestamp := by
  apply Chain.getLastFullBlock_timestamp hs.db hbefore
  intro full hfull hlt
  have hlast := hs.full
  rw [hfull] at hlast
  apply hlast.truncate
  intro full' hfull'
  cases hfull'
  exact UInt64.lt_iff_toNat_lt.mp hlt

/-- The cooldown looks below the block. -/
theorem Settled.checkCooldown_eq {g : Ledger} (hs₀ : c₀.Settled P g) (hs : c.Settled P f)
    (hagree : AgreeBelow b.index c₀ c) (hlt : b.index.toNat < 2 ^ 63) (t : Transaction) :
    c.checkCooldown P b t = c₀.checkCooldown P b t := by
  apply checkCooldown_congr hagree
  rw [hs.getLastFullBlock_timestamp hlt, hs₀.getLastFullBlock_timestamp hlt,
    hagree.lastFullBlock le_rfl]

/-! ## The declared difficulty -/

/-- The discount for an age that is not negative is between one and eight bits. -/
theorem discountOf_range {age : Int64} (h : 0 ≤ age.toInt) :
    1 ≤ (discountOf age).toNat ∧ (discountOf age).toNat ≤ 8 := by
  have hvalue := toNat_discountOf age
  have hhigh := fullWeeks_le_seven age.toInt
  have hlow : fullWeeks 0 ≤ fullWeeks age.toInt := fullWeeks_mono h
  rw [show fullWeeks 0 = 0 by decide] at hlow
  rw [Int.emod_eq_of_lt (by omega) (by omega)] at hvalue
  omega

/-- A registration that counts as younger than a year is so: a wrapped `time - year` lies
above every time that is not later. -/
theorem age_range {time ts oldest : Int64} (holdest : subI64 P.checks time domainLifetime = .ok oldest)
    (hle : ts.toInt ≤ time.toInt) (hyoung : ¬ ts < oldest) :
    time.toInt - ts.toInt ≤ domainLifetime.toInt := by
  have hyear : domainLifetime.toInt = 31536000 := by decide
  have hlow := time.le_toInt
  have hhigh := time.toInt_lt
  rw [guarded_eq_ok holdest, Int64.lt_iff_toInt_lt, Int64.toInt_sub, hyear] at hyoung
  by_cases hrange : -2 ^ 63 ≤ time.toInt - 31536000
  · rw [Int.bmod_eq_of_le (by omega) (by omega)] at hyoung
    omega
  · rw [Int.bmod_def] at hyoung
    split at hyoung <;> omega

/-- The discount on a chain that has grown is the same, or the chain has become long enough
for the discount to go by age. -/
theorem getIdentityDiscount_later {identity : Bytes} {i : UInt64} {time : Int64}
    (hagree : AgreeBelow i c₀ c) (hheight : c₀.getHeight ≤ c.getHeight)
    (hmono : ∀ k row, c.db.domainById identity i = some (k, row) →
      row.timestamp.toInt ≤ time.toInt) :
    c.getIdentityDiscount P identity false i time = c₀.getIdentityDiscount P identity false i time
      ∨ (c₀.getIdentityDiscount P identity false i time = .ok 1
        ∧ ∃ d, c.getIdentityDiscount P identity false i time = .ok d ∧ 1 ≤ d.toNat ∧ d.toNat ≤ 8) := by
  cases hrow : c.db.domainById identity i with
  | none =>
    left
    rw [getIdentityDiscount_of_none hrow,
      getIdentityDiscount_of_none (by rw [← hagree.domainById le_rfl, hrow])]
  | some r =>
    obtain ⟨k, row⟩ := r
    have hrow₀ : c₀.db.domainById identity i = some (k, row) := by
      rw [← hagree.domainById le_rfl, hrow]
    rw [getIdentityDiscount_of_some hrow, getIdentityDiscount_of_some hrow₀]
    cases holdest : subI64 P.checks time domainLifetime with
    | error e => exact Or.inl rfl
    | ok oldest =>
      simp only [ok_bind]
      by_cases hyoung : row.timestamp < oldest
      · left
        rw [if_pos hyoung, if_pos hyoung]
      · rw [if_neg hyoung, if_neg hyoung]
        by_cases hlong : c.getHeight < blocksWithoutDiscount
        · left
          have hlong₀ : c₀.getHeight < blocksWithoutDiscount := by
            rw [UInt64.lt_iff_toNat_lt] at hlong ⊢
            have := UInt64.le_iff_toNat_le.mp hheight
            omega
          rw [if_pos hlong, if_pos hlong₀]
        · rw [if_neg hlong]
          by_cases hlong₀ : c₀.getHeight < blocksWithoutDiscount
          · -- the age is at most a year, so that nothing overflows
            right
            have hyear : domainLifetime.toInt = 31536000 := by decide
            have hpast := hmono k row hrow
            have hage := age_range holdest hpast hyoung
            rw [if_pos hlong₀, subI64_of_range (by omega) (by omega)]
            refine ⟨rfl, _, rfl, ?_⟩
            apply discountOf_range
            rw [toInt_sub_of_range (by omega) (by omega)]
            omega
          · left
            rw [if_neg hlong₀]

/-- A chain that has grown needs no more difficulty for the same block. -/
theorem checkDeclaredDifficulty_later (hagree : AgreeBelow b.index c₀ c)
    (hheight : c₀.getHeight ≤ c.getHeight)
    (hmono : ∀ t i row, b.transaction = some t → c.db.domainById t.identity b.index = some (i, row) →
      row.timestamp.toInt ≤ b.timestamp.toInt)
    (h : c₀.checkDeclaredDifficulty P b = .ok none) : c.checkDeclaredDifficulty P b = .ok none := by
  obtain ⟨needed, hneeded, hle⟩ := bind_verdictIf_eq_none.mp h
  refine bind_verdictIf_eq_none.mpr ?_
  unfold neededDifficulty at hneeded ⊢
  cases htx : b.transaction with
  | none =>
    rw [htx] at hneeded
    exact ⟨needed, hneeded, hle⟩
  | some t =>
    rw [htx] at hneeded
    simp only [getDifficultyForTransaction] at hneeded ⊢
    by_cases hdomain : t.class' = classDomain
    · rw [if_pos hdomain] at hneeded ⊢
      rcases getIdentityDiscount_later hagree hheight (fun k row => hmono t k row htx) with
        hsame | ⟨hone, d, hd, hlow, hhigh⟩
      · rw [hsame]
        exact ⟨needed, hneeded, hle⟩
      · rw [hone, ok_bind] at hneeded
        obtain ⟨data, hdata, hneeded⟩ := bind_eq_ok.mp hneeded
        rw [hd, ok_bind, hdata, ok_bind]
        cases data with
        | none => exact ⟨needed, hneeded, hle⟩
        | some _ =>
          -- one bit less was needed then, at least one bit less is needed now
          obtain ⟨hthen, hthenNat⟩ := domainDifficulty_sub (P := P) (show (1 : UInt32).toNat ≤ 8 by decide)
          obtain ⟨hnow, hnowNat⟩ := domainDifficulty_sub (P := P) hhigh
          have hunit : (1 : UInt32).toNat = 1 := rfl
          refine ⟨_, hnow, ?_⟩
          rw [show subU32 P.checks domainDifficulty 1 = _ from hthen, Except.ok.injEq] at hneeded
          rw [UInt32.lt_iff_toNat_lt, ← hneeded, hthenNat] at hle
          rw [UInt32.lt_iff_toNat_lt, hnowNat]
          omega
    · rw [if_neg hdomain] at hneeded ⊢
      exact ⟨needed, hneeded, hle⟩

/-! ## The decision list -/

/-- The registrations below a stored block are not younger than the block. -/
theorem History.domainById_timestamp (hh : History P c f log) {m : ℕ} (hx : f m = some x)
    {identity : Bytes} {i : ℤ} {row : DomainRow}
    (hrow : c.db.domainById identity x.index = some (i, row)) :
    row.timestamp.toInt ≤ x.timestamp.toInt := by
  have hindex : x.index.toNat = m := hh.settled.db.index m x hx
  have hbound := hh.settled.db.le_maxRows (show (f m).isSome by rw [hx]; rfl)
  have hmax := maxRows_lt
  obtain ⟨hfind, hcond, -⟩ := Table.lastWhere?_eq_some.mp hrow
  obtain ⟨p, z, rfl, hz, hzrow⟩ := hh.settled.db.exists_of_find?_domains hfind
  rw [decide_eq_true_eq, asI64_of_lt (by omega)] at hcond
  obtain ⟨t, -, ht⟩ := Option.bind_eq_some_iff.mp hzrow
  split at ht
  · cases ht
    exact hh.timestamp_mono hz hx (by omega)
  · cases ht

/-- **A stored block passes the decision list again**, at every later time. -/
theorem History.passed (hh : History P c f log) {m : ℕ} (hx : f m = some x)
    (hjudged : JudgedGood P c f now x) (hle : now.secs ≤ later.secs) :
    Passed P later c x c.lastBlock := by
  obtain ⟨c₀, s, hs₀, hagree, hzones, hheight₀, hgood⟩ := hjudged
  have hs := hh.settled
  have hold := ((checkBlock_accepting accepting_good).mp hgood).1
  have hindex : x.index.toNat = m := hs.db.index m x hx
  have htop := hs.top m (by rw [hx]; rfl)
  have hbound := hs.height_le
  have hmax := maxRows_lt
  refine ⟨hold.version, hold.wrongHash, checkClock_later hold.clock hle, ?_, ?_, hold.hashDifficulty,
    hold.hash, hold.signature, hagree.checkParent (by omega) (by omega) hold.parent, ?_⟩
  · -- not ahead of the tip
    cases hl : c.lastBlock with
    | none =>
      rw [hs.empty hl] at hx
      cases hx
    | some l =>
      obtain ⟨hnext, hnat⟩ := hs.addU64_tip (P := P) hl
      rw [getHeight_of_some hl] at htop
      rw [checkAhead, hnext, ok_bind, Except.ok.injEq, verdictIf_eq_none, gt_iff_lt,
        UInt64.lt_iff_toNat_lt]
      omega
  · refine checkDeclaredDifficulty_later hagree (UInt64.le_iff_toNat_le.mpr (by omega)) ?_
      hold.declaredDifficulty
    intro t i row _ hrow
    exact hh.domainById_timestamp hx hrow
  · have htx := hold.transaction
    unfold checkTransaction at htx ⊢
    cases ht : x.transaction with
    | none => rfl
    | some t =>
      rw [ht, firstVerdict_eq_none] at htx
      simp only [List.forall_mem_cons, List.not_mem_nil, false_implies, implies_true, and_true] at htx
      obtain ⟨hkey, hidentity, hcool, hrecords⟩ := htx
      rw [firstVerdict_eq_none]
      simp only [List.forall_mem_cons, List.not_mem_nil, false_implies, implies_true, and_true]
      refine ⟨hkey, ?_, ?_, ?_⟩
      · -- available then, so available now
        rw [← hagree.checkIdentity (by omega) (by omega)] at hidentity
        have hone : 1 ≤ x.index.toNat := by omega
        rw [checkIdentity, subU64_one hone, ok_bind, bind_verdictIf_eq_none] at hidentity ⊢
        obtain ⟨available, havailable, hnot⟩ := hidentity
        rw [not_not.mp hnot] at havailable
        exact ⟨true, isIdAvailable_later hs.clean hle havailable, by simp⟩
      · rw [hs₀.checkCooldown_eq hs hagree (by omega), hcool]
      · rw [AgreeBelow.checkRecords hzones.symm, hrecords]

/-! ## The signing rule -/

/-- A listed key that has not signed is a good signer. -/
theorem isGoodSignerForBlock_eq_true {signers : List Bytes}
    (hsigners : c.getBlockSigners P full = .ok (signers, s)) (hmem : b.pubKey ∈ signers)
    (hlt : full.index.toNat + 1 < 2 ^ 64)
    (hfresh : c.alreadySigned b.pubKey (b.index.toNat - (full.index + 1).toNat) (full.index + 1)
      = .ok false) : c.isGoodSignerForBlock P b full = .ok (true, s) := by
  have hadd : addU64 P.checks full.index 1 = .ok (full.index + 1) :=
    addU64_one hlt
  rw [isGoodSignerForBlock, hsigners, ok_bind]
  simp only [not_not_intro hmem, if_false, hadd, ok_bind, hfresh]
  rfl

/-- The signing rule as it applies to a signing block above the start. -/
theorem signStage_eq (htx : b.transaction = none) (hstart : blockSignersStart < b.index)
    (hindex : full.index ≤ c.getHeight) :
    c.signStage P b (some full)
      = if c.getHeight.toNat - full.index.toNat < blockSignersAll then c.isGoodSignerForBlock P b full
        else .ok (true, c.signers) := by
  have hheight := UInt64.le_iff_toNat_le.mp hindex
  have hcount : (c.getHeight - full.index).toNat = c.getHeight.toNat - full.index.toNat :=
    UInt64.toNat_sub_of_le _ _ hindex
  have hmin : blockSignersMin.toNat = 4 := by decide
  have hall : blockSignersAll = 7 := rfl
  rw [signStage, if_pos hstart]
  unfold isGoodSignBlock
  simp only [subU64_of_le hheight, ok_bind, htx, Option.isSome_none, Bool.false_eq_true,
    and_false, if_false, Option.isNone_none, and_true, UInt64.lt_iff_toNat_lt, hcount, hmin]
  by_cases hfew : c.getHeight.toNat - full.index.toNat < blockSignersAll
  · rw [if_pos hfew, ite_self]
  · rw [if_neg hfew, if_neg (by omega)]

end Chain

namespace Sample

end Sample

namespace Chain

end Chain
