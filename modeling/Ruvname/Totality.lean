/-
# When the validator returns

`check_new_block` on an arbitrary block from a peer, in a build with overflow checks: which
blocks stop it?  Every partial operation of the validator is guarded, if at all, by the
checks before it.  `Survives` lists what each of them still needs; it is exactly the
condition under which a verdict is returned.

The search for signers is the one loop without a bound of its own: it ends when seven keys are
drawn in the long run (`Chain.EnoughDrawn`).
-/
import Ruvname.SignerSearch

open Exec

/-- The same platform with another bound for the search for signers. -/
def Platform.withFuel (P : Platform) (fuel : ℕ) : Platform := { P with fuel := fuel }

/-- The integer is a value of `i64`. -/
def InI64 (x : ℤ) : Prop := -2 ^ 63 ≤ x ∧ x < 2 ^ 63

namespace Chain

variable (P : Platform) (now : UtcTime) (c : Chain) (b : Block)

/-! ## What the checks need -/

/-- The first `k` checks of the decision list pass. -/
def ClearsFirst (k : ℕ) : Prop := firstVerdict ((c.checks P now b c.lastBlock).take k) = .ok none

/-- The discount for an identity of this age, as the cast to `u32` leaves it. -/
def discountOf (age : Int64) : UInt32 := (min (age / oneWeek) 7 + 1).toUInt64.toUInt32

/-- A discount is looked up by age: the registration is not older than a year, and the
chain is long enough. -/
def DiscountApplies (row : DomainRow) : Prop :=
  b.timestamp.toInt - domainLifetime.toInt ≤ row.timestamp.toInt
    ∧ blocksWithoutDiscount ≤ c.getHeight

/-- The difficulty needed for a domain can be computed: the differences of times are in
range, the parser returns, and the discount is at most the difficulty. -/
structure DifficultyDefined (t : Transaction) : Prop where
  year : ∀ i row, c.db.domainById t.identity b.index = some (i, row) →
    InI64 (b.timestamp.toInt - domainLifetime.toInt)
  age : ∀ i row, c.db.domainById t.identity b.index = some (i, row) → c.DiscountApplies b row →
    InI64 (b.timestamp.toInt - row.timestamp.toInt)
  data : (P.parseDomainData t.data).Returns
  discount : ∀ i row, c.db.domainById t.identity b.index = some (i, row) → c.DiscountApplies b row →
    (∃ d, P.parseDomainData t.data = .ok (some d)) →
    discountOf (b.timestamp - row.timestamp) ≤ domainDifficulty

/-- The signing rule can be applied to a signing block: the cached full block is not above
the tip, and its signers are known, or seven keys are drawn with the tail of its signature. -/
structure SigningDefined (full : Block) : Prop where
  height : full.index ≤ c.getHeight
  search : (c.getHeight - full.index).toNat < blockSignersAll → blockSignersStart ≤ full.index →
    ¬ c.signers.hasSignersFor full.index → ∃ tail, full.signature.getTailU64 P.checks = .ok tail ∧
      c.EnoughDrawn full P.checks (UInt64.ofNat tail)

/-- **What a block needs for a verdict.**  Each clause is about one partial operation and
only asked for when the checks before it pass. -/
structure Survives : Prop where
  /-- The needed difficulty of a domain. -/
  difficulty : ClearsFirst P now c b 4 → ∀ t, b.transaction = some t → t.class' = classDomain →
    DifficultyDefined P c b t
  /-- The slices of `hash_difficulty`. -/
  hash : ClearsFirst P now c b 5 → 8 ≤ b.hash.length
  /-- The conversions of `Keystore::check`. -/
  key : ClearsFirst P now c b 7 → b.pubKey.length = 32 ∧ P.validKey b.pubKey
  /-- `block.index - 1`, and the height minus the confidence depth. -/
  parent : ClearsFirst P now c b 8 → b.index ≠ 0 ∧
    ∀ parent, c.getBlock (b.index - 1) = some parent → b.prevBlockHash ≠ parent.hash →
      limitedConfidenceDepth ≤ c.getHeight
  /-- The difference of times in `can_mine_identity`. -/
  cooldown : ClearsFirst P now c b 9 → ∀ t last, b.transaction = some t →
    checkKeyStrength P b = .ok none → c.checkIdentity P now b t = .ok none →
    c.getLastFullBlock b.index (some b.pubKey) = some last →
    InI64 (last.timestamp.toInt + newDomainsInterval.toInt - b.timestamp.toInt)
  /-- The signing rule. -/
  signing : ClearsFirst P now c b 10 → b.transaction = none → blockSignersStart < b.index →
    ∀ last full, c.lastBlock = some last → c.lastFullBlock = some full →
    ¬ (b.timestamp < last.timestamp ∧ b.index > last.index) → SigningDefined P c full

variable {P now c b} {f : Ledger}

/-! ## The needed difficulty -/

/-- The discount for a registered identity, step by step. -/
theorem getIdentityDiscount_of_some {identity : Bytes} {height : UInt64} {time : Int64} {i : ℤ}
    {row : DomainRow} (h : c.db.domainById identity height = some (i, row)) :
    c.getIdentityDiscount P identity false height time = (do
      let oldest ← subI64 P.checks time domainLifetime
      if row.timestamp < oldest then .ok 0
      else if c.getHeight < blocksWithoutDiscount then .ok 1
      else do
        let age ← subI64 P.checks time row.timestamp
        .ok (discountOf age)) := by
  unfold getIdentityDiscount getDomainUpdateTime
  rw [h]
  simp only
  cases subI64 P.checks time domainLifetime with
  | error e => rfl
  | ok oldest =>
    simp only [ok_bind]
    by_cases hold : row.timestamp < oldest
    · rw [if_pos hold, if_pos hold]
    · rw [if_neg hold, if_neg hold]
      simp only [Bool.false_eq_true, false_or]
      rfl

theorem getIdentityDiscount_of_none {identity : Bytes} {height : UInt64} {time : Int64}
    (h : c.db.domainById identity height = none) :
    c.getIdentityDiscount P identity false height time = .ok 0 := by
  unfold getIdentityDiscount getDomainUpdateTime
  rw [h]
  rfl

/-- The needed difficulty is computed from a discount and the parsed data. -/
theorem returns_getDifficultyForTransaction {t : Transaction} {height : UInt64} {time : Int64}
    (hP : P.checks = true) (hclass : t.class' = classDomain) :
    (c.getDifficultyForTransaction P t height time).Returns ↔
      ∃ discount, c.getIdentityDiscount P t.identity false height time = .ok discount
        ∧ (P.parseDomainData t.data).Returns
        ∧ ((∃ d, P.parseDomainData t.data = .ok (some d)) → discount ≤ domainDifficulty) := by
  unfold getDifficultyForTransaction
  rw [if_pos hclass, returns_bind]
  constructor
  · rintro ⟨discount, hdiscount, h⟩
    rw [returns_bind] at h
    obtain ⟨data, hdata, h⟩ := h
    refine ⟨discount, hdiscount, ⟨data, hdata⟩, ?_⟩
    rintro ⟨d, hd⟩
    rw [hdata, Except.ok.injEq] at hd
    subst hd
    rw [hP] at h
    exact UInt32.le_iff_toNat_le.mpr (returns_subU32.mp h)
  · rintro ⟨discount, hdiscount, ⟨data, hdata⟩, hle⟩
    refine ⟨discount, hdiscount, ?_⟩
    rw [hdata, ok_bind]
    cases data with
    | none => exact returns_ok _
    | some d =>
      rw [hP]
      exact returns_subU32.mpr (UInt32.le_iff_toNat_le.mp (hle ⟨d, hdata⟩))

/-- An `i64` difference in range, in a build with checks. -/
theorem subI64_of_inI64 {x y : Int64} (hP : P.checks = true) :
    InI64 (x.toInt - y.toInt) ↔ subI64 P.checks x y = .ok (x - y) := by
  rw [hP]
  constructor
  · rintro ⟨h₁, h₂⟩
    exact subI64_of_range h₁ h₂
  · intro h
    exact returns_subI64.mp ⟨_, h⟩

theorem toInt_sub_of_inI64 {x y : Int64} (h : InI64 (x.toInt - y.toInt)) :
    (x - y).toInt = x.toInt - y.toInt :=
  toInt_sub_of_range h.1 h.2

/-- Whether a discount by age applies, as the code decides it. -/
theorem discountApplies_iff {row : DomainRow}
    (h : InI64 (b.timestamp.toInt - domainLifetime.toInt)) :
    c.DiscountApplies b row ↔
      ¬ row.timestamp < b.timestamp - domainLifetime ∧ ¬ c.getHeight < blocksWithoutDiscount := by
  unfold DiscountApplies
  rw [Int64.lt_iff_toInt_lt, toInt_sub_of_inI64 h, not_lt, UInt64.not_lt]

/-- The discount for a registered identity, when there is one. -/
theorem getIdentityDiscount_eq {identity : Bytes} {i : ℤ} {row : DomainRow} (hP : P.checks = true)
    (h : c.db.domainById identity b.index = some (i, row))
    (hyear : InI64 (b.timestamp.toInt - domainLifetime.toInt))
    (hage : c.DiscountApplies b row → InI64 (b.timestamp.toInt - row.timestamp.toInt)) :
    ∃ discount, c.getIdentityDiscount P identity false b.index b.timestamp = .ok discount
      ∧ (c.DiscountApplies b row → discount = discountOf (b.timestamp - row.timestamp))
      ∧ (¬ c.DiscountApplies b row → discount ≤ 1) := by
  rw [getIdentityDiscount_of_some h, (subI64_of_inI64 hP).mp hyear, ok_bind]
  by_cases happlies : c.DiscountApplies b row
  · obtain ⟨hold, hheight⟩ := (discountApplies_iff hyear).mp happlies
    rw [if_neg hold, if_neg hheight, (subI64_of_inI64 hP).mp (hage happlies), ok_bind]
    exact ⟨_, rfl, fun _ => rfl, fun hnot => absurd happlies hnot⟩
  · have hsmall : ∀ discount : UInt32, discount ≤ 1 →
        ∃ d : UInt32, (Except.ok discount : Exec UInt32) = .ok d
          ∧ (c.DiscountApplies b row → d = discountOf (b.timestamp - row.timestamp))
          ∧ (¬ c.DiscountApplies b row → d ≤ 1) :=
      fun discount hle => ⟨discount, rfl, fun h => absurd h happlies, fun _ => hle⟩
    by_cases hold : row.timestamp < b.timestamp - domainLifetime
    · rw [if_pos hold]
      exact hsmall 0 (by decide)
    · rw [if_neg hold]
      have hheight : c.getHeight < blocksWithoutDiscount := by
        by_contra hge
        exact happlies ((discountApplies_iff hyear).mpr ⟨hold, hge⟩)
      rw [if_pos hheight]
      exact hsmall 1 (by decide)

/-- Where the discount has been computed, its subtractions were in range. -/
theorem inI64_of_discount (hP : P.checks = true) {identity : Bytes} {i : ℤ} {row : DomainRow}
    {discount : UInt32} (hrow : c.db.domainById identity b.index = some (i, row))
    (h : c.getIdentityDiscount P identity false b.index b.timestamp = .ok discount) :
    InI64 (b.timestamp.toInt - domainLifetime.toInt) ∧
      (c.DiscountApplies b row → InI64 (b.timestamp.toInt - row.timestamp.toInt)) := by
  have hyear : InI64 (b.timestamp.toInt - domainLifetime.toInt) := by
    rw [getIdentityDiscount_of_some hrow, bind_eq_ok] at h
    obtain ⟨oldest, holdest, -⟩ := h
    rw [hP] at holdest
    exact returns_subI64.mp ⟨_, holdest⟩
  refine ⟨hyear, fun happlies => ?_⟩
  obtain ⟨hold, hheight⟩ := (discountApplies_iff hyear).mp happlies
  rw [getIdentityDiscount_of_some hrow, (subI64_of_inI64 hP).mp hyear, ok_bind, if_neg hold,
    if_neg hheight, bind_eq_ok] at h
  obtain ⟨age, hage, -⟩ := h
  rw [hP] at hage
  exact returns_subI64.mp ⟨_, hage⟩

/-- **The needed difficulty of a domain can be computed exactly when it is defined.** -/
theorem returns_difficulty_iff {t : Transaction} (hP : P.checks = true)
    (hclass : t.class' = classDomain) :
    (c.getDifficultyForTransaction P t b.index b.timestamp).Returns ↔ DifficultyDefined P c b t := by
  rw [returns_getDifficultyForTransaction hP hclass]
  cases hrow : c.db.domainById t.identity b.index with
  | none =>
    have hzero : (0 : UInt32) ≤ domainDifficulty := by decide
    rw [getIdentityDiscount_of_none hrow]
    constructor
    · rintro ⟨discount, -, hdata, -⟩
      constructor
      · intro i row h
        rw [hrow] at h
        cases h
      · intro i row h
        rw [hrow] at h
        cases h
      · exact hdata
      · intro i row h
        rw [hrow] at h
        cases h
    · intro h
      exact ⟨0, rfl, h.data, fun _ => hzero⟩
  | some r =>
    obtain ⟨i, row⟩ := r
    have hunique : ∀ i' row', c.db.domainById t.identity b.index = some (i', row') → row' = row := by
      intro i' row' h
      rw [hrow, Option.some.injEq, Prod.mk.injEq] at h
      exact h.2.symm
    constructor
    · rintro ⟨discount, hdiscount, hdata, hle⟩
      obtain ⟨hyear, hage⟩ := inI64_of_discount hP hrow hdiscount
      obtain ⟨discount', hdiscount', hvalue, -⟩ := getIdentityDiscount_eq hP hrow hyear hage
      rw [hdiscount', Except.ok.injEq] at hdiscount
      subst hdiscount
      constructor
      · exact fun _ _ _ => hyear
      · intro i' row' h happlies
        rw [hunique i' row' h] at happlies ⊢
        exact hage happlies
      · exact hdata
      · intro i' row' h happlies hsome
        rw [hunique i' row' h] at happlies ⊢
        rw [← hvalue happlies]
        exact hle hsome
    · intro h
      obtain ⟨discount, hdiscount, hvalue, hsmall⟩ :=
        getIdentityDiscount_eq hP hrow (h.year i row hrow) (h.age i row hrow)
      refine ⟨discount, hdiscount, h.data, fun hsome => ?_⟩
      by_cases happlies : c.DiscountApplies b row
      · rw [hvalue happlies]
        exact h.discount i row hrow happlies hsome
      · exact UInt32.le_trans (hsmall happlies) (by decide)

theorem returns_checkDeclaredDifficulty (hP : P.checks = true) :
    (c.checkDeclaredDifficulty P b).Returns ↔
      ∀ t, b.transaction = some t → t.class' = classDomain → DifficultyDefined P c b t := by
  unfold checkDeclaredDifficulty neededDifficulty
  rw [returns_bind_ok]
  cases htx : b.transaction with
  | none => simp
  | some t =>
    simp only [Option.some.injEq, forall_eq']
    by_cases hclass : t.class' = classDomain
    · rw [returns_difficulty_iff hP hclass]
      exact ⟨fun h _ => h, fun h => h hclass⟩
    · refine ⟨fun _ h => absurd h hclass, fun _ => ?_⟩
      unfold getDifficultyForTransaction
      rw [if_neg hclass]
      split
      · exact returns_ok _
      · exact returns_ok _

/-! ## The checks of the block itself -/

theorem returns_checkAhead (hg : c.Grounded f) : (checkAhead P b c.lastBlock).Returns := by
  unfold checkAhead
  cases hl : c.lastBlock with
  | none => exact returns_ok _
  | some l =>
    simp only [(hg.addU64_tip (P := P) hl).1, ok_bind]
    exact returns_ok _

theorem returns_checkHashDifficulty : (checkHashDifficulty b).Returns ↔ 8 ≤ b.hash.length := by
  unfold checkHashDifficulty
  rw [returns_bind_ok, returns_hashDifficulty]

theorem returns_checkSignature :
    (checkSignature P b).Returns ↔ b.pubKey.length = 32 ∧ P.validKey b.pubKey := by
  unfold checkSignature
  rw [returns_bind_ok]
  unfold checkBlockSignature keystoreCheck
  by_cases hlength : b.pubKey.length = 32
  · rw [if_neg (not_not_intro hlength)]
    by_cases hvalid : P.validKey b.pubKey
    · rw [if_neg (not_not_intro hvalid)]
      exact ⟨fun _ => ⟨hlength, hvalid⟩, fun _ => returns_ok _⟩
    · rw [if_pos hvalid]
      exact ⟨fun h => absurd h (not_returns_error _), fun h => absurd h.2 hvalid⟩
  · rw [if_pos hlength]
    exact ⟨fun h => absurd h (not_returns_error _), fun h => absurd h.1 hlength⟩

theorem one_le_toNat_iff {k : UInt64} : (1 : UInt64).toNat ≤ k.toNat ↔ k ≠ 0 := by
  rw [one_toNat]
  constructor
  · rintro h rfl
    exact absurd h (by decide)
  · intro h
    have : k.toNat ≠ 0 := fun h0 => h (UInt64.toNat_inj.mp h0)
    omega

theorem returns_checkParent (hP : P.checks = true) :
    (c.checkParent P b).Returns ↔ b.index ≠ 0 ∧
      ∀ parent, c.getBlock (b.index - 1) = some parent → b.prevBlockHash ≠ parent.hash →
        limitedConfidenceDepth ≤ c.getHeight := by
  unfold checkParent
  by_cases hindex : b.index = 0
  · rw [hindex, hP]
    refine ⟨fun h => ?_, fun h => absurd rfl h.1⟩
    rw [returns_bind] at h
    obtain ⟨prev, hprev, -⟩ := h
    exact absurd (returns_subU64.mp ⟨_, hprev⟩) (by decide)
  · rw [subU64_of_le (one_le_toNat_iff.mpr hindex), ok_bind]
    cases hget : c.getBlock (b.index - 1) with
    | none => simp [hindex]
    | some parent =>
      simp only [ne_eq, hindex, not_false_eq_true, true_and, Option.some.injEq, forall_eq']
      by_cases hprev : b.prevBlockHash = parent.hash
      · simp [hprev]
      · rw [if_pos hprev, returns_bind_ok, hP, returns_subU64, UInt64.le_iff_toNat_le]
        exact ⟨fun h _ => h, fun h => h hprev⟩

/-! ## The checks of a transaction -/

theorem returns_checkKeyStrength : (checkKeyStrength P b).Returns := by
  unfold checkKeyStrength checkPublicKeyStrength keyHashDifficulty
  have hlength : ¬ (P.blakeout b.pubKey.data).length < 8 := by
    rw [P.blakeout_length]
    decide
  rw [if_neg hlength]
  exact ⟨_, rfl⟩

/-- `is_id_available` returns on vetted registrations. -/
theorem Clean.returns_isIdAvailable (hc : c.Clean f) {height : UInt64} {time : Int64}
    {identity key : Bytes} : (c.isIdAvailable P height time identity key).Returns := by
  unfold isIdAvailable
  cases hrow : c.db.domainById identity height with
  | none =>
    unfold getIdentityTransactionAndState
    rw [hrow]
    exact ⟨_, rfl⟩
  | some r =>
    obtain ⟨i, row⟩ := r
    obtain ⟨halive, -, howned, -⟩ := expiry_range (P := P) (hc.domainById_timestamp hrow)
    rw [getIdentityTransactionAndState_row time hrow halive howned, ok_bind]
    simp only
    split
    · exact returns_ok _
    · split
      · exact returns_ok _
      · exact returns_ok _
      · exact returns_ok _
      · exact returns_ok _

theorem Clean.returns_checkIdentity (hc : c.Clean f) {t : Transaction} (hindex : b.index ≠ 0) :
    (c.checkIdentity P now b t).Returns := by
  unfold checkIdentity
  rw [subU64_of_le (one_le_toNat_iff.mpr hindex), ok_bind, returns_bind_ok]
  exact hc.returns_isIdAvailable

/-- What the query for the last full block of a key finds is vetted. -/
theorem Clean.vetted_getLastFullBlock (hc : c.Clean f) {before : UInt64} {key : Option Bytes}
    {last : Block} (h : c.getLastFullBlock before key = some last) : last.Vetted := by
  have hquery : ∀ full, c.db.lastFullBlock before key = some full → full.Vetted := by
    intro full hfull
    obtain ⟨n, x, hx, rfl⟩ := hc.db.exists_of_lastFullBlock hfull
    exact (hc.vetted n x hx).collapse
  unfold getLastFullBlock at h
  split at h
  · rename_i full hfull
    split at h
    · cases h
      exact (hc.full last hfull).1
    · exact hquery last h
  · exact hquery last h

theorem Clean.returns_checkCooldown (hc : c.Clean f) {t : Transaction} (hP : P.checks = true) :
    (c.checkCooldown P b t).Returns ↔
      ∀ last, c.getLastFullBlock b.index (some b.pubKey) = some last →
        InI64 (last.timestamp.toInt + newDomainsInterval.toInt - b.timestamp.toInt) := by
  unfold checkCooldown
  rw [returns_bind_ok]
  unfold canMineIdentity
  cases hlast : c.getLastFullBlock b.index (some b.pubKey) with
  | none => simp
  | some last =>
    have htimestamp := (hc.vetted_getLastFullBlock hlast).timestamp
    have hlow := last.timestamp.le_toInt
    have hday : newDomainsInterval.toInt = 86400 := by decide
    have hsum : (last.timestamp + newDomainsInterval).toInt
        = last.timestamp.toInt + newDomainsInterval.toInt :=
      toInt_add_of_range (by omega) (by omega)
    have hadd : addI64 P.checks last.timestamp newDomainsInterval
        = .ok (last.timestamp + newDomainsInterval) :=
      addI64_of_range (by omega) (by omega)
    simp only [hadd, ok_bind, Option.some.injEq, forall_eq']
    rw [returns_bind_ok, hP, returns_subI64, hsum]
    rfl

theorem returns_checkRecords {t : Transaction}
    (h : t.class' = classDomain → (P.parseDomainData t.data).Returns) :
    (c.checkRecords P t).Returns := by
  unfold checkRecords Transaction.getDomainData
  by_cases hclass : t.class' = classDomain
  · obtain ⟨data, hdata⟩ := h hclass
    rw [if_pos hclass, hdata, ok_bind]
    cases data with
    | none => exact returns_ok _
    | some d => exact returns_ok _
  · rw [if_neg hclass]
    exact returns_ok _

/-! ## The decision list -/

/-- A passed check has returned. -/
theorem returns_of_passed {x : Exec (Option BlockQuality)} (h : x = .ok none) : x.Returns := ⟨_, h⟩

theorem clearsFirst_iff {k : ℕ} :
    ClearsFirst P now c b k ↔ ∀ x ∈ (c.checks P now b c.lastBlock).take k, x = .ok none :=
  firstVerdict_eq_none

/-- What the transaction still needs when the nine checks before it have passed. -/
theorem Clean.returns_checkTransaction (hc : c.Clean f) (hP : P.checks = true)
    (hclears : ClearsFirst P now c b 9) :
    (c.checkTransaction P now b).Returns ↔
      ∀ t last, b.transaction = some t → checkKeyStrength P b = .ok none →
        c.checkIdentity P now b t = .ok none →
        c.getLastFullBlock b.index (some b.pubKey) = some last →
        InI64 (last.timestamp.toInt + newDomainsInterval.toInt - b.timestamp.toInt) := by
  have hpass := clearsFirst_iff.mp hclears
  have hparent : c.checkParent P b = .ok none := hpass _ (by simp [checks])
  have hdeclared : c.checkDeclaredDifficulty P b = .ok none := hpass _ (by simp [checks])
  have hindex := ((returns_checkParent hP).mp (returns_of_passed hparent)).1
  have hdefined := (returns_checkDeclaredDifficulty hP).mp (returns_of_passed hdeclared)
  unfold checkTransaction
  cases htx : b.transaction with
  | none => simp
  | some t =>
    have hrecords : (c.checkRecords P t).Returns :=
      returns_checkRecords fun hclass => (hdefined t htx hclass).data
    have hnil : (firstVerdict ([] : List (Exec (Option BlockQuality)))).Returns := ⟨none, rfl⟩
    simp only [returns_firstVerdict_cons, returns_checkKeyStrength, hc.returns_checkIdentity hindex,
      hc.returns_checkCooldown hP, hrecords, hnil, true_and, implies_true, and_true,
      Option.some.injEq]
    constructor
    · rintro h t' last rfl hkey hidentity hlast
      exact h hkey hidentity last hlast
    · intro h hkey hidentity last hlast
      exact h t last rfl hkey hidentity hlast

/-- **When the decision list returns.** -/
theorem Clean.returns_checks_iff (hc : c.Clean f) (hP : P.checks = true) :
    (firstVerdict (c.checks P now b c.lastBlock)).Returns ↔
      (ClearsFirst P now c b 4 → ∀ t, b.transaction = some t → t.class' = classDomain →
        DifficultyDefined P c b t)
      ∧ (ClearsFirst P now c b 5 → 8 ≤ b.hash.length)
      ∧ (ClearsFirst P now c b 7 → b.pubKey.length = 32 ∧ P.validKey b.pubKey)
      ∧ (ClearsFirst P now c b 8 → b.index ≠ 0 ∧
        ∀ parent, c.getBlock (b.index - 1) = some parent → b.prevBlockHash ≠ parent.hash →
          limitedConfidenceDepth ≤ c.getHeight)
      ∧ (ClearsFirst P now c b 9 → ∀ t last, b.transaction = some t →
        checkKeyStrength P b = .ok none → c.checkIdentity P now b t = .ok none →
        c.getLastFullBlock b.index (some b.pubKey) = some last →
        InI64 (last.timestamp.toInt + newDomainsInterval.toInt - b.timestamp.toInt)) := by
  rw [returns_firstVerdict_iff]
  constructor
  · intro h
    refine ⟨fun hclears => ?_, fun hclears => ?_, fun hclears => ?_, fun hclears => ?_,
      fun hclears => ?_⟩
    · exact (returns_checkDeclaredDifficulty hP).mp (h 4 _ rfl hclears)
    · exact returns_checkHashDifficulty.mp (h 5 _ rfl hclears)
    · exact returns_checkSignature.mp (h 7 _ rfl hclears)
    · exact (returns_checkParent hP).mp (h 8 _ rfl hclears)
    · exact (hc.returns_checkTransaction hP hclears).mp (h 9 _ rfl hclears)
  · rintro ⟨hdifficulty, hhash, hkey, hparent, hcooldown⟩ k x hk hclears
    match k, hk, hclears with
    | 0, hk, _ => cases hk; exact returns_ok _
    | 1, hk, _ => cases hk; exact returns_ok _
    | 2, hk, _ => cases hk; exact ⟨_, checkClock_eq⟩
    | 3, hk, _ => cases hk; exact returns_checkAhead hc.toGrounded
    | 4, hk, hclears => cases hk; exact (returns_checkDeclaredDifficulty hP).mpr (hdifficulty hclears)
    | 5, hk, hclears => cases hk; exact returns_checkHashDifficulty.mpr (hhash hclears)
    | 6, hk, _ => cases hk; exact returns_ok _
    | 7, hk, hclears => cases hk; exact returns_checkSignature.mpr (hkey hclears)
    | 8, hk, hclears => cases hk; exact (returns_checkParent hP).mpr (hparent hclears)
    | 9, hk, hclears =>
      cases hk
      exact (hc.returns_checkTransaction hP hclears).mpr (hcooldown hclears)
    | k + 10, hk, _ => cases hk

/-! ## The signing rule -/

/-- The search itself does not look at the bound of the platform. -/
theorem searchSigners_withFuel {full : Block} {minimum : ℤ} {window : UInt64} {k fuel : ℕ}
    {tail count : UInt64} {mitigated : Bool} {result : List Bytes} :
    c.searchSigners (P.withFuel k) full minimum window fuel tail count mitigated result
      = c.searchSigners P full minimum window fuel tail count mitigated result := by
  induction fuel generalizing tail count mitigated result with
  | zero => rfl
  | succ fuel ih =>
    have hchecks : (P.withFuel k).checks = P.checks := rfl
    unfold searchSigners
    simp only [ih, hchecks]

/-- The blocks between a stored block and a block next to the tip are stored. -/
theorem Grounded.returns_alreadySigned (hg : c.Grounded f) {l : Block} (hl : c.lastBlock = some l)
    {key : Bytes} {n : ℕ} {i : UInt64} (hi : 1 ≤ i.toNat) (hn : i.toNat + n ≤ l.index.toNat + 1) :
    (c.alreadySigned key n i).Returns := by
  induction n generalizing i with
  | zero => exact returns_ok _
  | succ n ih =>
    have hle := hg.index_le_maxRows hl
    have hmax := maxRows_lt
    have hsome := hg.isSome_of_le_tip hl hi (by omega)
    obtain ⟨x, hx⟩ := Option.isSome_iff_exists.mp hsome
    have hsucc : (i + 1).toNat = i.toNat + 1 := toNat_add_one (by omega)
    rw [alreadySigned, getBlock, hg.db.getBlock, hx, Option.map_some]
    simp only
    split
    · exact returns_ok _
    · exact ih (by omega) (by omega)

/-- `get_block_signers` for a cached full block that is not above the tip. -/
theorem exists_returns_getBlockSigners {full : Block} (hfull : full.transaction.isSome)
    (hsignature : full.signature.length = 64) (hheight : full.index ≤ c.getHeight) :
    (∃ k, (c.getBlockSigners (P.withFuel k) full).Returns) ↔
      (blockSignersStart ≤ full.index → ¬ c.signers.hasSignersFor full.index →
        ∃ tail, full.signature.getTailU64 P.checks = .ok tail ∧
          c.EnoughDrawn full P.checks (UInt64.ofNat tail)) := by
  have hnot : ¬ c.getHeight < full.index := UInt64.not_lt.mpr hheight
  have hsome : ¬ full.transaction.isNone := by simpa using Option.isSome_iff_ne_none.mp hfull
  obtain ⟨tail, htail⟩ : ∃ tail, full.signature.getTailU64 P.checks = .ok tail := by
    unfold Bytes.getTailU64
    rw [if_neg (by omega)]
    exact ⟨_, rfl⟩
  unfold getBlockSigners
  by_cases hstart : full.index < blockSignersStart
  · refine ⟨fun _ hle => absurd hstart (UInt64.not_lt.mpr hle), fun _ => ⟨0, ?_⟩⟩
    simp only [hstart, true_or, if_true]
    exact returns_ok _
  · have hle := UInt64.not_lt.mp hstart
    by_cases hcached : c.signers.hasSignersFor full.index
    · refine ⟨fun _ _ hn => absurd hcached hn, fun _ => ⟨0, ?_⟩⟩
      simp only [hstart, hnot, or_self, if_false, hsome, hcached, if_true]
      exact returns_ok _
    · have hwindow : ∀ k, subU64 (P.withFuel k).checks full.index 1 = .ok (full.index - 1) := by
        intro k
        have htwo := two_le_of_signersStart hle
        exact subU64_one (by omega)
      have htail' : ∀ k, full.signature.getTailU64 (P.withFuel k).checks = .ok tail := fun _ => htail
      have hsearch : ∀ k, (c.getBlockSigners (P.withFuel k) full).Returns ↔
          (c.searchSigners P full (if full.index < 855 then 1 else (asI64 full.index).tdiv 100)
            (full.index - 1) k (UInt64.ofNat tail) 1 false []).Returns := by
        intro k
        unfold getBlockSigners
        simp only [hstart, hnot, or_self, if_false, hsome, hcached, htail', hwindow, ok_bind,
          searchSigners_withFuel]
        exact returns_bind_ok
      constructor
      · rintro ⟨k, hk⟩ - -
        exact SearchEnds.enoughDrawn ⟨k, tail, htail, (hsearch k).mp hk⟩
      · intro hends
        obtain ⟨tail', htail', henough⟩ := hends hle hcached
        obtain ⟨k, tail', htail₂, hk⟩ := searchEnds_of_enoughDrawn htail' henough
        rw [htail, Except.ok.injEq] at htail₂
        subst htail₂
        exact ⟨k, (hsearch k).mpr hk⟩

/-- `is_good_signer_for_block` returns when the signers are found. -/
theorem Grounded.returns_isGoodSignerForBlock (hg : c.Grounded f) {l full : Block} {k : ℕ}
    (hl : c.lastBlock = some l) (hheight : full.index ≤ c.getHeight)
    (hb : b.index.toNat ≤ l.index.toNat + 1) :
    (c.isGoodSignerForBlock (P.withFuel k) b full).Returns ↔
      (c.getBlockSigners (P.withFuel k) full).Returns := by
  unfold isGoodSignerForBlock
  rw [returns_bind]
  constructor
  · rintro ⟨r, hr, -⟩
    exact ⟨r, hr⟩
  · rintro ⟨⟨signers, cache⟩, hr⟩
    refine ⟨(signers, cache), hr, ?_⟩
    simp only
    split
    · exact returns_ok _
    · have hle := hg.index_le_maxRows hl
      have hmax := maxRows_lt
      have hfull := UInt64.le_iff_toNat_le.mp hheight
      rw [getHeight_of_some hl] at hfull
      have hlt : full.index.toNat + 1 < 2 ^ 64 := by omega
      rw [addU64_one hlt, ok_bind, returns_bind_ok]
      have hfirst : (full.index + 1).toNat = full.index.toNat + 1 := toNat_add_one hlt
      rcases le_or_gt (full.index + 1).toNat b.index.toNat with hbelow | habove
      · exact hg.returns_alreadySigned hl (by omega) (by omega)
      · -- nothing lies between the full block and this one
        rw [show b.index.toNat - (full.index + 1).toNat = 0 by omega]
        exact returns_ok _

/-- **When the signing rule returns on a signing block.** -/
theorem Clean.returns_isGoodSignBlock (hc : c.Clean f) (hP : P.checks = true) {l full : Block}
    (hl : c.lastBlock = some l) (hfull : c.lastFullBlock = some full) (htx : b.transaction = none)
    (hb : b.index.toNat ≤ l.index.toNat + 1) :
    (∃ k, (c.isGoodSignBlock (P.withFuel k) b c.lastFullBlock).Returns) ↔ SigningDefined P c full := by
  obtain ⟨hvetted, hfulltx⟩ := hc.full full hfull
  unfold isGoodSignBlock
  simp only [htx, Option.isSome_none, Bool.false_eq_true, if_false, hfull, and_false,
    Option.isNone_none, and_true]
  by_cases hheight : full.index ≤ c.getHeight
  · have hle := UInt64.le_iff_toNat_le.mp hheight
    have hsigners := exists_returns_getBlockSigners (P := P) hfulltx hvetted.signature hheight
    have hall : blockSignersMin.toNat < blockSignersAll := by decide
    simp only [subU64_of_le hle, ok_bind]
    by_cases hfew : (c.getHeight - full.index).toNat < blockSignersAll
    · have hboth : ∀ k, (if c.getHeight - full.index < blockSignersMin then
            c.isGoodSignerForBlock (P.withFuel k) b full
          else if (c.getHeight - full.index).toNat < blockSignersAll then
            c.isGoodSignerForBlock (P.withFuel k) b full
          else .ok (true, c.signers)) = c.isGoodSignerForBlock (P.withFuel k) b full := by
        intro k
        rw [if_pos hfew, ite_self]
      simp only [hboth, hc.returns_isGoodSignerForBlock hl hheight hb]
      rw [hsigners]
      exact ⟨fun h => ⟨hheight, fun _ => h⟩, fun h => h.search hfew⟩
    · have hmin : ¬ c.getHeight - full.index < blockSignersMin := by
        rw [UInt64.lt_iff_toNat_lt]
        omega
      simp only [hmin, hfew, if_false]
      exact ⟨fun _ => ⟨hheight, fun h => absurd h hfew⟩, fun _ => ⟨0, returns_ok _⟩⟩
  · -- a stale cache: the difference is negative
    refine ⟨?_, fun h => absurd h.height hheight⟩
    rintro ⟨k, hk⟩
    rw [returns_bind] at hk
    obtain ⟨count, hcount, -⟩ := hk
    have hchecks : (P.withFuel k).checks = true := hP
    rw [hchecks] at hcount
    exact absurd (UInt64.le_iff_toNat_le.mpr (returns_subU64.mp ⟨_, hcount⟩)) hheight

/-! ## The verdict -/

/-- The position of a block that has passed the decision list. -/
theorem Clean.returns_checkPosition (hc : c.Clean f) (hP : P.checks = true)
    (hclears : ClearsFirst P now c b 10) :
    (∃ k, (c.checkPosition (P.withFuel k) b c.lastBlock c.lastFullBlock).Returns) ↔
      (b.transaction = none → blockSignersStart < b.index →
        ∀ last full, c.lastBlock = some last → c.lastFullBlock = some full →
        ¬ (b.timestamp < last.timestamp ∧ b.index > last.index) → SigningDefined P c full) := by
  cases hl : c.lastBlock with
  | none =>
    refine ⟨fun _ _ _ last full h => (by cases h), fun _ => ⟨0, ?_⟩⟩
    unfold checkPosition
    simp only
    split
    · exact returns_ok _
    · split
      · exact returns_ok _
      · exact returns_ok _
  | some l =>
    have hahead : checkAhead P b c.lastBlock = .ok none := clearsFirst_iff.mp hclears _ (by simp [checks])
    have hnext := (hc.addU64_tip (P := P) hl).1
    rw [hl, checkAhead, hnext, ok_bind, Except.ok.injEq, verdictIf_eq_none] at hahead
    have hb := hc.index_le_succ hl hnext hahead
    have hnext' : ∀ k, addU64 (P.withFuel k).checks l.index 1 = .ok (l.index + 1) := fun _ => hnext
    simp only [Option.some.injEq]
    by_cases hcollision : b.timestamp < l.timestamp ∧ b.index > l.index
    · -- a verdict before the signing rule is looked at
      refine ⟨fun _ _ _ last full hlast _ hnot => ?_, fun _ => ⟨0, ?_⟩⟩
      · rw [← hlast] at hnot
        exact absurd hcollision hnot
      · simp only [checkPosition, if_pos hcollision]
        exact returns_ok _
    · -- what comes after the signing rule always returns
      have hposition : ∀ k, (c.checkPosition (P.withFuel k) b (some l) c.lastFullBlock).Returns ↔
          (c.signStage (P.withFuel k) b c.lastFullBlock).Returns := by
        intro k
        simp only [checkPosition, if_neg hcollision, hnext', ok_bind, if_neg hahead]
        exact returns_bind_ok
      simp only [hposition, signStage]
      by_cases hsigned : b.index > blockSignersStart
      · simp only [if_pos hsigned]
        cases htx : b.transaction with
        | some t =>
          refine ⟨fun _ h => (by cases h), fun _ => ⟨0, ?_⟩⟩
          unfold isGoodSignBlock
          simp only [htx, Option.isSome_some, if_true]
          exact returns_ok _
        | none =>
          cases hfull : c.lastFullBlock with
          | none =>
            refine ⟨fun _ _ _ last full _ h => (by cases h), fun _ => ⟨0, ?_⟩⟩
            unfold isGoodSignBlock
            simp only [htx, Option.isSome_none, Bool.false_eq_true, if_false]
            exact returns_ok _
          | some full =>
            rw [← hfull, hc.returns_isGoodSignBlock hP hl hfull htx hb]
            constructor
            · intro h _ _ last full' _ hfull' _
              rw [hfull, Option.some.injEq] at hfull'
              exact hfull' ▸ h
            · intro h
              exact h rfl hsigned l full rfl hfull hcollision
      · refine ⟨fun _ _ h => absurd h hsigned, fun _ => ⟨0, ?_⟩⟩
        rw [if_neg hsigned]
        exact returns_ok _

/-- **Totality, exactly.**  In a build with overflow checks, `check_new_block` returns a
verdict on a block (given enough fuel for its loop) if and only if the block survives. -/
theorem checkNewBlock_returns_iff {n : Node} (hP : P.checks = true) (hn : n.Reachable P) :
    (∃ fuel, (n.chain.checkNewBlock (P.withFuel fuel) now b).Returns) ↔ Survives P now n.chain b := by
  obtain ⟨f, hc⟩ := hn.clean
  have hchecks : ∀ k, n.chain.checks (P.withFuel k) now b n.chain.lastBlock
      = n.chain.checks P now b n.chain.lastBlock := fun _ => rfl
  have hall : ClearsFirst P now n.chain b 10
      ↔ firstVerdict (n.chain.checks P now b n.chain.lastBlock) = .ok none := Iff.rfl
  constructor
  · rintro ⟨fuel, h⟩
    unfold checkNewBlock checkBlock at h
    rw [hchecks, returns_bind] at h
    obtain ⟨verdict, hverdict, h⟩ := h
    obtain ⟨h₄, h₅, h₇, h₈, h₉⟩ := (hc.returns_checks_iff hP).mp ⟨_, hverdict⟩
    refine ⟨h₄, h₅, h₇, h₈, h₉, fun hclears => ?_⟩
    rw [hall, hverdict, Except.ok.injEq] at hclears
    subst hclears
    exact (hc.returns_checkPosition hP (hall.mpr hverdict)).mp ⟨fuel, h⟩
  · intro h
    obtain ⟨verdict, hverdict⟩ := (hc.returns_checks_iff hP).mpr
      ⟨h.difficulty, h.hash, h.key, h.parent, h.cooldown⟩
    cases verdict with
    | some q =>
      refine ⟨0, ?_⟩
      unfold checkNewBlock checkBlock
      rw [hchecks, hverdict, ok_bind]
      exact returns_ok _
    | none =>
      have hclears := hall.mpr hverdict
      obtain ⟨fuel, hposition⟩ := (hc.returns_checkPosition hP hclears).mpr (h.signing hclears)
      refine ⟨fuel, ?_⟩
      unfold checkNewBlock checkBlock
      rw [hchecks, hverdict, ok_bind]
      exact hposition

end Chain

namespace Sample

/-- A signing block that comes with an empty hash. -/
def noHash : Block := { block 2 10 3 genesis.hash (key 2) none with hash := Bytes.default }

end Sample

namespace Chain

/-- A signing block survives on top of the full block that it signs: its signers are found. -/
theorem survives_signing36 : ∃ n : Node, n.Reachable (Sample.platform true) ∧ n.chain.getHeight = 35 ∧
    n.chain.lastFullBlock = some Sample.full35 ∧ ¬ n.chain.signers.hasSignersFor 35 ∧
    Survives (Sample.platform true) Sample.now n.chain Sample.signing36 := by
  have hrun : ∃ n, Node.receive (Sample.platform true) Sample.now (Sample.early ++ [Sample.full35])
        (Node.fresh Sample.genesis.hash) = .ok n
      ∧ n.chain.getHeight = 35 ∧ n.chain.lastFullBlock = some Sample.full35
      ∧ n.chain.signers.hasSignersFor 35 = false
      ∧ ∃ r, n.chain.checkNewBlock ((Sample.platform true).withFuel 100) Sample.now Sample.signing36
        = .ok r ∧ r.1 = .good := by
    decide +kernel
  obtain ⟨n, hn, hheight, hfull, hmemo, r, hr, -⟩ := hrun
  have hreach : n.Reachable (Sample.platform true) :=
    ⟨Sample.genesis.hash, Node.receive_run (fun _ _ _ => trivial) hn⟩
  exact ⟨n, hreach, hheight, hfull, by rw [hmemo]; decide,
    (checkNewBlock_returns_iff rfl hreach).mp ⟨100, r, hr⟩⟩

/-- On a block with an empty hash the validator of a fresh node stops, whatever the fuel. -/
theorem not_returns_noHash :
    (Node.fresh Sample.genesis.hash).Reachable (Sample.platform true)
      ∧ ¬ ∃ fuel, ((Node.fresh Sample.genesis.hash).chain.checkNewBlock
        ((Sample.platform true).withFuel fuel) Sample.now Sample.noHash).Returns := by
  refine ⟨⟨_, .refl _⟩, ?_⟩
  rintro ⟨fuel, h⟩
  have hstops : (Node.fresh Sample.genesis.hash).chain.checkNewBlock
      ((Sample.platform true).withFuel fuel) Sample.now Sample.noHash = .error .outOfRange := rfl
  rw [hstops] at h
  exact not_returns_error _ h

end Chain
