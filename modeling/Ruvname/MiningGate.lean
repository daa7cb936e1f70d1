/-
# The gate before mining and the validator

`can_mine_domain` and `create_domain` look at the chain below its tip, `check_block` at all of it when
it asks for the difficulty and the cooldown.  They agree unless the tip itself is a full block of the
key or of the identity.  The gate also takes a registration for absent whose confirmation is not that
of the name, while the validator cannot know the name.
-/
import Ruvname.Discount
import Ruvname.DomainMining
import Ruvname.Ownership
import Ruvname.RuvchainZones

open Exec

/-! ## Zones -/

theorem Node.Reachable.zones {P : Platform} {n : Node} (h : n.Reachable P) :
    n.chain.zones = loadZones := by
  obtain ⟨origin, run⟩ := h
  have hinv : ∃ f, n.chain.Grounded f ∧ n.chain.zones = loadZones := by
    refine (Node.chain_run run).invariant (I := fun c => ∃ f, c.Grounded f ∧ c.zones = loadZones) ?_ ?_
    · obtain ⟨f, hg⟩ := Node.grounded_fresh origin
      exact ⟨f, hg, rfl⟩
    · rintro c a c' ⟨f, hg, hzones⟩ - hstep
      obtain ⟨f', hg', -⟩ := hstep.ledger hg
      exact ⟨f', hg', hstep.zones hg hzones⟩
  obtain ⟨-, -, hzones⟩ := hinv
  exact hzones

/-- The empty zone is none of them. -/
theorem ne_empty_of_isAvailableZone {c : Chain} {name : String} (hzones : c.zones = loadZones)
    (h : c.isAvailableZone (getDomainZone name)) : name ≠ "" := by
  rintro rfl
  rw [Chain.isAvailableZone, hzones] at h
  exact absurd h (by decide +kernel)

namespace Chain

variable {P : Platform} {sha256 : List UInt8 → List UInt8} {now later : UtcTime} {c : Chain}
  {f : Ledger} {b last : Block} {t : Transaction} {identity key : Bytes} {height next : UInt64}
  {time : Int64} {name : String}

/-! ## The last full block of a key -/

/-- Seen from the next height, the last full block of a key is the one at this height, or the one
below it. -/
theorem getLastFullBlock_below (hr : c.db.Represents f) (hnext : next.toNat = height.toNat + 1)
    (hlt : next.toNat < 2 ^ 63) (h : c.getLastFullBlock next (some key) = some last)
    (hne : last.index ≠ height) : c.getLastFullBlock height (some key) = some last := by
  have hstep : ∀ x : UInt64, x < next → x ≠ height → x < height := by
    intro x hx hne
    have hneNat : x.toNat ≠ height.toNat := fun heq => hne (UInt64.toNat_inj.mp heq)
    rw [UInt64.lt_iff_toNat_lt] at hx ⊢
    omega
  have hquery : c.db.lastFullBlock next (some key) = some last →
      c.db.lastFullBlock height (some key) = some last := by
    intro hlast
    obtain ⟨⟨k, r⟩, hselect, rfl⟩ := Option.map_eq_some_iff.mp hlast
    obtain ⟨hfind, hcond, -⟩ := Table.lastWhere?_eq_some.mp hselect
    obtain ⟨hk, hfull⟩ := of_decide_eq_true hcond
    obtain ⟨n, x, rfl, hx, rfl⟩ := hr.exists_of_find? hfind
    have hindex : x.index ≠ height := by
      rw [hr.toBlock_eq_collapse hx] at hne
      exact hne
    have hn : x.index.toNat = n := hr.index n x hx
    have hbelow : x.index < height := by
      refine hstep _ ?_ hindex
      rw [asI64_of_lt hlt] at hk
      rw [UInt64.lt_iff_toNat_lt]
      omega
    have hbelowNat := UInt64.lt_iff_toNat_lt.mp hbelow
    have hheight := asI64_of_lt (show height.toNat < 2 ^ 63 by omega)
    have hnarrow : c.db.blocks.lastWhere? (fun id r =>
        id < asI64 height ∧ r.transaction.isSome ∧ ∀ k ∈ some key, r.pubKey = k)
        = some (↑n, BlockRow.ofBlock x) := by
      refine Table.lastWhere?_narrow hselect (decide_eq_true ⟨by omega, hfull⟩) fun j row hrow => ?_
      obtain ⟨hj, hjfull⟩ := of_decide_eq_true hrow
      have hnextId := asI64_of_lt hlt
      exact decide_eq_true ⟨by omega, hjfull⟩
    unfold Db.lastFullBlock
    rw [hnarrow]
    rfl
  have hbefore : ∀ full : Block, full.index < height → full.index < next := by
    intro full hfull
    rw [UInt64.lt_iff_toNat_lt] at hfull ⊢
    omega
  unfold getLastFullBlock at h ⊢
  cases hcached : c.lastFullBlock with
  | none =>
    rw [hcached] at h
    exact hquery h
  | some full =>
    rw [hcached] at h
    dsimp only at h ⊢
    split at h
    · -- the cached full block is the answer at both heights
      rename_i hfast
      cases h
      exact if_pos ⟨hstep _ hfast.1 hne, hfast.2⟩
    · rename_i hslow
      rw [if_neg fun hfast => hslow ⟨hbefore full hfast.1, hfast.2⟩]
      exact hquery h

/-! ## The cooldown -/

/-- The day after a full block of the key is over, as far as it can be told. -/
def DayOver (last : Block) (time : Int64) : Prop :=
  InI64 (last.timestamp.toInt + newDomainsInterval.toInt - time.toInt)
    ∧ last.timestamp.toInt + newDomainsInterval.toInt ≤ time.toInt

/-- Without overflow checks, a difference below the range wraps around to a long wait. -/
theorem not_pos_sub_iff {allowed : Int64} (h : allowed.toInt - time.toInt < 2 ^ 63) :
    ¬ 0 < allowed - time ↔ InI64 (allowed.toInt - time.toInt) ∧ allowed.toInt ≤ time.toInt := by
  have hallowed := allowed.le_toInt
  have htime := time.toInt_lt
  have hzero : (0 : Int64).toInt = 0 := rfl
  rw [Int64.lt_iff_toInt_lt, hzero]
  unfold InI64
  by_cases hrange : -2 ^ 63 ≤ allowed.toInt - time.toInt
  · rw [toInt_sub_of_range hrange h]
    omega
  · have hwrap : (allowed - time).toInt = allowed.toInt - time.toInt + 2 ^ 64 := by
      rw [Int64.toInt_sub, Int.bmod_def]
      split <;> omega
    rw [hwrap]
    omega

/-- `can_mine_identity` when the key has a full block: with overflow checks the wait has to be an
`i64`, and a new identity has to wait for a day. -/
theorem canMineIdentity_fine_iff (hlast : c.getLastFullBlock height (some key) = some last)
    (hstamp : last.timestamp.toInt ≤ 2 ^ 43 + 60) :
    c.canMineIdentity P identity height now.secs key = .ok .fine ↔
      (P.checks = true → InI64 (last.timestamp.toInt + newDomainsInterval.toInt - now.secs.toInt))
        ∧ (c.db.domainById identity height = none → DayOver last now.secs) := by
  have hday : newDomainsInterval.toInt = 86400 := by decide
  have hlow := last.timestamp.le_toInt
  have hnow := now.lower
  have hallowed : (last.timestamp + newDomainsInterval).toInt
      = last.timestamp.toInt + newDomainsInterval.toInt :=
    toInt_add_of_range (by omega) (by omega)
  have hover : ¬ 0 < last.timestamp + newDomainsInterval - now.secs ↔ DayOver last now.secs := by
    rw [not_pos_sub_iff (by omega), hallowed]
    rfl
  unfold canMineIdentity isDomainInBlockchain
  rw [hlast]
  dsimp only
  rw [addI64_of_range (by omega) (by omega), ok_bind, bind_eq_ok, ← hover, ← hallowed]
  constructor
  · rintro ⟨wait, hwait, hfine⟩
    obtain ⟨hrange, rfl⟩ := subI64_eq_ok.mp hwait
    refine ⟨hrange, fun hnone hpos => ?_⟩
    rw [hnone, if_pos ⟨by simp, hpos⟩] at hfine
    cases hfine
  · rintro ⟨hrange, hrested⟩
    refine ⟨_, subI64_eq_ok.mpr ⟨hrange, rfl⟩, congrArg Except.ok (if_neg ?_)⟩
    rintro ⟨hnone, hpos⟩
    exact hrested (by simpa using hnone) hpos

/-! ## Registrations below the tip -/

/-- Seen from the next height, the last registration of an identity is the one at this height, or the
one below it. -/
theorem domainById_below {i : ℤ} {row : DomainRow} (hnext : next.toNat = height.toNat + 1)
    (hlt : next.toNat < 2 ^ 63) (h : c.db.domainById identity next = some (i, row))
    (hne : i ≠ height.toNat) : c.db.domainById identity height = some (i, row) := by
  obtain ⟨hi, hidentity⟩ := of_decide_eq_true (Table.lastWhere?_eq_some.mp h).2.1
  rw [asI64_of_lt hlt] at hi
  refine Table.lastWhere?_narrow h (decide_eq_true ⟨?_, hidentity⟩) fun j other hother => ?_
  · rw [asI64_of_lt (by omega)]
    omega
  · obtain ⟨hj, hother⟩ := of_decide_eq_true hother
    refine decide_eq_true ⟨?_, hother⟩
    rw [asI64_of_lt (by omega)] at hj
    rw [asI64_of_lt hlt]
    omega

theorem domainById_below_none (hnext : next.toNat = height.toNat + 1) (hlt : next.toNat < 2 ^ 63)
    (h : c.db.domainById identity next = none) : c.db.domainById identity height = none := by
  refine Table.lastWhere?_narrow_none h fun j other hother => ?_
  obtain ⟨hj, hother⟩ := of_decide_eq_true hother
  refine decide_eq_true ⟨?_, hother⟩
  rw [asI64_of_lt (by omega)] at hj
  rw [asI64_of_lt hlt]
  omega

/-- If the last full block of the key stands at the height of the chain, its day is over, or the
identity is not new. -/
def Rested (P : Platform) (now : UtcTime) (c : Chain) (identity key : Bytes) : Prop :=
  ∀ last, c.getLastFullBlock (c.getHeight + 1) (some key) = some last → last.index = c.getHeight →
    (P.checks = true → InI64 (last.timestamp.toInt + newDomainsInterval.toInt - now.secs.toInt))
      ∧ (c.db.domainById identity (c.getHeight + 1) = none → DayOver last now.secs)

/-- The height has a successor, also as an `i64`. -/
theorem Clean.toNat_next (hc : c.Clean f) :
    (c.getHeight + 1).toNat = c.getHeight.toNat + 1 ∧ (c.getHeight + 1).toNat < 2 ^ 63 := by
  have hheight := hc.height_le
  have hrows := maxRows_lt
  have hnext : (c.getHeight + 1).toNat = c.getHeight.toNat + 1 := toNat_add_one (by omega)
  exact ⟨hnext, by omega⟩

/-- **The cooldown of the next block**, when the gate has found none. -/
theorem Clean.canMineIdentity_next_iff (hc : c.Clean f)
    (hgate : c.canMineIdentity P identity c.getHeight now.secs key = .ok .fine) :
    c.canMineIdentity P identity (c.getHeight + 1) now.secs key = .ok .fine
      ↔ Rested P now c identity key := by
  obtain ⟨hnext, hlt⟩ := hc.toNat_next
  cases hlast : c.getLastFullBlock (c.getHeight + 1) (some key) with
  | none =>
    unfold canMineIdentity Rested
    rw [hlast]
    exact ⟨fun _ => nofun, fun _ => rfl⟩
  | some last =>
    have hstamp := (hc.vetted_getLastFullBlock hlast).timestamp
    rw [canMineIdentity_fine_iff hlast hstamp]
    constructor
    · intro h last' hlast' _
      rw [hlast, Option.some.injEq] at hlast'
      exact hlast' ▸ h
    · intro h
      by_cases hindex : last.index = c.getHeight
      · exact h last hlast hindex
      · -- the same block that the gate has seen
        have hbelow := getLastFullBlock_below hc.db hnext (by omega) hlast hindex
        obtain ⟨hrange, hday⟩ := (canMineIdentity_fine_iff hbelow hstamp).mp hgate
        exact ⟨hrange, fun hnone => hday (domainById_below_none hnext (by omega) hnone)⟩

/-! ## The owner -/

/-- `is_id_available`: the key is the owner's, or the time to renew is over. -/
theorem Clean.isIdAvailable_iff (hc : c.Clean f) :
    c.isIdAvailable P height now.secs identity key = .ok true ↔
      ∀ i row, c.db.domainById identity height = some (i, row) →
        row.signing = key ∨ row.FreeAt now := by
  cases hrow : c.db.domainById identity height with
  | none =>
    rw [isIdAvailable, getIdentityTransactionAndState, hrow]
    refine ⟨fun _ i row hsome => ?_, fun _ => rfl⟩
    cases hsome
  | some r =>
    obtain ⟨i, row⟩ := r
    have hstamp := hc.domainById_timestamp hrow
    constructor
    · intro h i' row' hsome
      cases hsome
      exact (owner_or_free hrow hstamp h).imp_left Eq.symm
    · intro h
      obtain ⟨halive, htoAlive, howned, htoOwned⟩ := expiry_range (P := P) hstamp
      have hrenew : (0 : ℤ) ≤ domainRenewTime.toInt := by decide
      rw [isIdAvailable, getIdentityTransactionAndState_row _ hrow halive howned, ok_bind]
      dsimp only
      rcases h i row rfl with hkey | hfree
      · exact if_pos hkey
      · unfold DomainRow.FreeAt at hfree
        have hexpired : ¬ row.timestamp + domainLifetime ≥ now.secs := by
          rw [ge_iff_le, Int64.le_iff_toInt_le, htoAlive]
          omega
        have hover : ¬ row.timestamp + domainLifetime + domainRenewTime ≥ now.secs := by
          rw [ge_iff_le, Int64.le_iff_toInt_le, htoOwned]
          omega
        rw [if_neg hexpired, if_neg hover]
        split
        · rfl
        · rfl

/-- What has run out stays so. -/
theorem freeAt_later {row : DomainRow} (h : row.FreeAt now)
    (hlater : now.secs ≤ later.secs) : row.FreeAt later :=
  lt_of_lt_of_le h (Int64.le_iff_toInt_le.mp hlater)

/-! ## The difficulty -/

/-- A clock and a vetted timestamp are not so far apart that a discount could reach the full
difficulty from below. -/
theorem Clean.wholeDiscount_lower (hc : c.Clean f) :
    -2 ^ 26 ≤ c.wholeDiscount now.secs (c.db.domainById identity height) := by
  cases hrow : c.db.domainById identity height with
  | none => exact (by decide : (-2 ^ 26 : ℤ) ≤ 0)
  | some r =>
    obtain ⟨i, row⟩ := r
    have hstamp := hc.domainById_timestamp hrow
    have hnow := now.lower
    have hweek : oneWeek.toInt = 604800 := by decide
    rw [wholeDiscount_some]
    split
    · omega
    · split
      · omega
      · unfold fullWeeks
        rw [hweek, tdiv_by_sign]
        split <;> omega

/-- At a reading of the clock, the discount is computed. -/
theorem Clean.getIdentityDiscount_now (hc : c.Clean f) :
    ∃ k, c.getIdentityDiscount P identity false height now.secs = .ok k ∧ (k.toNat : ℤ)
      = c.wholeDiscount now.secs (c.db.domainById identity height) % 2 ^ 32 := by
  have hnow := now.lower
  have hnow' := now.upper
  have hlife : domainLifetime.toInt = 31536000 := by decide
  refine getIdentityDiscount_toNat (fun i row _ => ⟨by omega, by omega⟩) fun i row hrow hyoung _ => ?_
  have hstamp := hc.domainById_timestamp hrow
  exact ⟨by omega, by omega⟩

/-- The difficulty that is left after the discount.  Without overflow checks a negative discount
makes it larger. -/
theorem subU32_discount {k d : UInt32} {w : ℤ} (hk : (k.toNat : ℤ) = w % 2 ^ 32)
    (hlow : -2 ^ 26 ≤ w) (hhigh : w ≤ 8) :
    subU32 P.checks domainDifficulty k = .ok d ↔
      (P.checks = true → 0 ≤ w) ∧ (d.toNat : ℤ) = domainDifficulty.toNat - w := by
  have htotal : domainDifficulty.toNat = 24 := by decide
  by_cases hw : 0 ≤ w
  · obtain ⟨hsub, hvalue⟩ := domainDifficulty_sub (P := P) (k := k) (by omega)
    rw [hsub, Except.ok.injEq, ← UInt32.toNat_inj]
    exact ⟨fun h => ⟨fun _ => hw, by omega⟩, fun h => by omega⟩
  · have hlarge : domainDifficulty.toNat < k.toNat := by omega
    have hvalue : ((domainDifficulty - k).toNat : ℤ) = domainDifficulty.toNat - w := by
      rw [UInt32.toNat_sub]
      omega
    unfold subU32 guarded
    rw [decide_eq_true hlarge, Bool.and_true]
    cases hP : P.checks with
    | true =>
      rw [if_pos rfl]
      exact ⟨nofun, fun h => absurd (h.1 rfl) hw⟩
    | false =>
      rw [if_neg Bool.false_ne_true, Except.ok.injEq, ← UInt32.toNat_inj]
      exact ⟨fun h => ⟨nofun, by omega⟩, fun h => by omega⟩

/-- **The difficulty of the next block**, when it declares what was left at the height of the chain. -/
theorem Clean.checkDeclaredDifficulty_next_iff {data : DomainData} {k : UInt32} (hc : c.Clean f)
    (ht : b.transaction = some t) (hclass : t.class' = classDomain)
    (hdata : P.parseDomainData t.data = .ok (some data)) (htime : b.timestamp = now.secs)
    (hdiscount : c.getIdentityDiscount P t.identity false height now.secs = .ok k)
    (hdeclared : subU32 P.checks domainDifficulty k = .ok b.difficulty) :
    c.checkDeclaredDifficulty P b = .ok none ↔
      c.wholeDiscount now.secs (c.db.domainById t.identity height)
        ≤ c.wholeDiscount now.secs (c.db.domainById t.identity b.index) := by
  obtain ⟨k₀, hk₀, hvalue₀⟩ : ∃ k, c.getIdentityDiscount P t.identity false height now.secs = .ok k ∧ _ :=
    hc.getIdentityDiscount_now
  rw [hdiscount, Except.ok.injEq] at hk₀
  subst hk₀
  obtain ⟨k₁, hk₁, hvalue₁⟩ : ∃ k, c.getIdentityDiscount P t.identity false b.index now.secs = .ok k ∧ _ :=
    hc.getIdentityDiscount_now
  obtain ⟨hnonneg, hleft⟩ := (subU32_discount (P := P) hvalue₀ hc.wholeDiscount_lower
    (wholeDiscount_le_eight _)).mp hdeclared
  have hneeded : ∀ d, c.neededDifficulty P b = .ok d ↔
      (P.checks = true → 0 ≤ c.wholeDiscount now.secs (c.db.domainById t.identity b.index))
        ∧ (d.toNat : ℤ) = domainDifficulty.toNat
          - c.wholeDiscount now.secs (c.db.domainById t.identity b.index) := by
    intro d
    unfold neededDifficulty
    rw [ht]
    dsimp only
    rw [getDifficultyForTransaction_of_data hclass hdata, htime, hk₁, ok_bind]
    exact subU32_discount hvalue₁ hc.wholeDiscount_lower (wholeDiscount_le_eight _)
  have hlow : -2 ^ 26 ≤ c.wholeDiscount now.secs (c.db.domainById t.identity b.index) :=
    hc.wholeDiscount_lower
  have hhigh : c.wholeDiscount now.secs (c.db.domainById t.identity b.index) ≤ 8 :=
    wholeDiscount_le_eight _
  have htotal : domainDifficulty.toNat = 24 := by decide
  unfold checkDeclaredDifficulty
  rw [bind_verdictIf_eq_none]
  constructor
  · rintro ⟨needed, hneed, henough⟩
    obtain ⟨-, hvalue⟩ := (hneeded needed).mp hneed
    have hle := UInt32.le_iff_toNat_le.mp (UInt32.not_lt.mp henough)
    omega
  · intro hle
    let left : ℕ := 24 - (c.wholeDiscount now.secs (c.db.domainById t.identity b.index)).toNat
      + (-c.wholeDiscount now.secs (c.db.domainById t.identity b.index)).toNat
    have hleft' : (UInt32.ofNat left).toNat = left := UInt32.toNat_ofNat_of_lt' (by
      show left < 2 ^ 32
      omega)
    refine ⟨UInt32.ofNat left, (hneeded _).mpr ⟨fun h => ?_, by omega⟩, ?_⟩
    · have := hnonneg h
      omega
    · rw [UInt32.not_lt, UInt32.le_iff_toNat_le]
      omega

/-! ## What the gate and the interface have done -/

/-- What the gate has seen. -/
theorem Clean.canMineDomain_fine {U : Unicode} {isNumericChar : Char → Bool} (hc : c.Clean f)
    (hzones : c.zones = loadZones) (hname : U.toLowercase name = name)
    (h : c.canMineDomain P U isNumericChar sha256 now height name key = .ok .fine) :
    (∀ i row, c.db.domainById (hashIdentity sha256 name none) c.getHeight = some (i, row) →
        row.confirmation = hashIdentity sha256 name (some row.signing) →
        row.signing = key ∨ row.FreeAt now)
      ∧ c.canMineIdentity P (hashIdentity sha256 name none) height now.secs key = .ok .fine := by
  unfold canMineDomain at h
  rw [hname] at h
  dsimp only at h
  split at h
  · cases h
  · split at h
    · cases h
    · rename_i hzone
      rw [not_not] at hzone
      obtain ⟨⟨found, state⟩, hfound, h⟩ := bind_eq_ok.mp h
      dsimp only at h
      split at h
      · cases h
      · rename_i hfree
        refine ⟨fun i row hrow hconfirmed => ?_, h⟩
        have hidentity := (of_decide_eq_true (Table.lastWhere?_eq_some.mp hrow).2.1).2
        have hcheck : row.toTransaction.checkIdentity sha256 name :=
          decide_eq_true ⟨hidentity, hconfirmed⟩
        obtain ⟨halive, -, howned, htoOwned⟩ :=
          expiry_range (P := P) (hc.domainById_timestamp hrow)
        unfold getDomainTransactionAndState at hfound
        rw [if_neg (ne_empty_of_isAvailableZone hzones hzone),
          getIdentityTransactionAndState_row _ hrow halive howned, ok_bind] at hfound
        dsimp only at hfound
        rw [if_pos hcheck, Except.ok.injEq, Prod.mk.injEq] at hfound
        obtain ⟨rfl, rfl⟩ := hfound
        by_cases hkey : row.signing = key
        · exact Or.inl hkey
        · right
          have hother : decide (row.toTransaction.signing ≠ key) = true := decide_eq_true hkey
          by_contra hnot
          unfold DomainRow.FreeAt at hnot
          apply hfree
          split
          · exact hother
          · rw [if_pos]
            · exact hother
            · rw [ge_iff_le, Int64.le_iff_toInt_le, htoOwned]
              omega

/-- What `create_domain` has built. -/
theorem createDomain_eq_ok {W : DomainWriter} {class' : String} {data : DomainData}
    {difficulty : UInt32} {keystore : Keystore P} {signing encryption : Bytes} {renewal : Bool}
    {block : Block} (h : c.createDomain P sha256 W now class' name data difficulty keystore signing
      encryption renewal = .ok block) :
    ∃ t k, block.transaction = some t ∧ t.class' = class' ∧ t.identity = hashIdentity sha256 name none
      ∧ block.pubKey = keystore.getPublic
      ∧ c.getIdentityDiscount P t.identity renewal c.getHeight now.secs = .ok k
      ∧ subU32 P.checks difficulty k = .ok block.difficulty := by
  unfold createDomain at h
  split at h
  · cases h
  · obtain ⟨k, hk, h⟩ := bind_eq_ok.mp h
    obtain ⟨left, hleft, h⟩ := bind_eq_ok.mp h
    cases h
    exact ⟨_, k, rfl, rfl, rfl, rfl, hk, hleft⟩

/-- The block of the interface, mined on top of the chain at this reading of the clock. -/
structure MinedOn (c : Chain) (now : UtcTime) (block b : Block) : Prop where
  index : b.index = c.getHeight + 1
  timestamp : b.timestamp = now.secs
  difficulty : b.difficulty = block.difficulty
  pubKey : b.pubKey = block.pubKey
  transaction : b.transaction = block.transaction

/-- So is what the miner finds. -/
theorem findHash_minedOn {keystore : Keystore P} {random : UInt32} {nonce : UInt64}
    {block job found : Block} (hnew : block.index = 0)
    (hjob : c.prepareJob P block keystore = .ok (some job))
    (hfound : c.findHash P now random nonce job = .ok (some found)) :
    c.MinedOn now block (found.signed keystore) := by
  have hplain : ¬ (block.toMine.index > 0 ∧ ¬ block.toMine.prevBlockHash.isEmpty) := by
    rintro ⟨hpositive, -⟩
    have hzero : block.toMine.index = 0 := hnew
    rw [hzero] at hpositive
    exact absurd hpositive (by decide)
  unfold prepareJob at hjob
  dsimp only at hjob
  rw [if_neg hplain] at hjob
  obtain ⟨index, hindex, hjob⟩ := bind_eq_ok.mp hjob
  obtain ⟨x, hx, hfound⟩ := bind_eq_ok.mp hfound
  obtain ⟨waiting, -, hfound⟩ := bind_eq_ok.mp hfound
  dsimp only at hfound
  have hsum : index = c.getHeight + 1 := guarded_eq_ok hindex
  split at hfound
  · cases hfound
  · obtain ⟨difficulty, -, hfound⟩ := bind_eq_ok.mp hfound
    rw [Except.ok.injEq] at hfound
    split at hfound
    · cases hfound
      cases hjob
      unfold placed at hx
      cases hlast : c.lastBlock with
      | none =>
        rw [hlast] at hx
        cases hx
        exact ⟨hsum, rfl, rfl, rfl, rfl⟩
      | some last =>
        rw [hlast] at hx
        obtain ⟨next, hnext, hx⟩ := bind_eq_ok.mp hx
        cases hx
        refine ⟨?_, rfl, rfl, rfl, rfl⟩
        rw [getHeight_of_some hlast]
        exact guarded_eq_ok hnext
    · cases hfound

/-- None of the three checks that the gate anticipates refuses the block: neither for its declared
difficulty, nor for its identity, nor for its time. -/
structure PassesGate (P : Platform) (later : UtcTime) (c : Chain) (b : Block) : Prop where
  difficulty : c.checkDeclaredDifficulty P b = .ok none
  identity : ∀ t, b.transaction = some t → c.checkIdentity P later b t = .ok none
  cooldown : ∀ t, b.transaction = some t → c.checkCooldown P b t = .ok none

/-- What the gate does not see makes no difference: a registration of the identity in the tip gives
no smaller discount than the one below it, one below the tip that is not confirmed for the name is
owned by the key or free, and the key has rested. -/
structure TipIrrelevant (P : Platform) (sha256 : List UInt8 → List UInt8) (now later : UtcTime)
    (c : Chain) (name : String) (key : Bytes) : Prop where
  weeks : ∀ row, c.db.domainById (hashIdentity sha256 name none) (c.getHeight + 1)
      = some ((c.getHeight.toNat : ℤ), row) →
    c.wholeDiscount now.secs (c.db.domainById (hashIdentity sha256 name none) c.getHeight)
      ≤ c.wholeDiscount now.secs (some ((c.getHeight.toNat : ℤ), row))
  owner : ∀ i row, c.db.domainById (hashIdentity sha256 name none) c.getHeight = some (i, row) →
    row.confirmation ≠ hashIdentity sha256 name (some row.signing) →
    row.signing = key ∨ row.FreeAt later
  rested : Rested P now c (hashIdentity sha256 name none) key

/-- Only a registration in the tip can be seen by the validator and not by the gate. -/
theorem Clean.wholeDiscount_next_iff (hc : c.Clean f) :
    c.wholeDiscount now.secs (c.db.domainById identity c.getHeight)
        ≤ c.wholeDiscount now.secs (c.db.domainById identity (c.getHeight + 1))
      ↔ ∀ row, c.db.domainById identity (c.getHeight + 1) = some ((c.getHeight.toNat : ℤ), row) →
        c.wholeDiscount now.secs (c.db.domainById identity c.getHeight)
          ≤ c.wholeDiscount now.secs (some ((c.getHeight.toNat : ℤ), row)) := by
  obtain ⟨hnext, hlt⟩ := hc.toNat_next
  constructor
  · intro hle row hrow
    rwa [hrow] at hle
  · intro hle
    cases hseen : c.db.domainById identity (c.getHeight + 1) with
    | none => rw [domainById_below_none hnext hlt hseen]
    | some r =>
      obtain ⟨i, row⟩ := r
      by_cases hi : i = c.getHeight.toNat
      · rw [hi] at hseen ⊢
        exact hle row hseen
      · rw [domainById_below hnext hlt hseen hi]

/-- The validator looks at the row of the identity at the height of the gate, too, whether it is
confirmed for the name or not. -/
theorem Clean.checkIdentity_next_iff (hc : c.Clean f) (hindex : b.index = c.getHeight + 1)
    (hidentity : t.identity = hashIdentity sha256 name none)
    (howner : ∀ i row, c.db.domainById (hashIdentity sha256 name none) c.getHeight = some (i, row) →
      row.confirmation = hashIdentity sha256 name (some row.signing) →
      row.signing = b.pubKey ∨ row.FreeAt later) :
    c.checkIdentity P later b t = .ok none ↔ ∀ i row,
      c.db.domainById (hashIdentity sha256 name none) c.getHeight = some (i, row) →
      row.confirmation ≠ hashIdentity sha256 name (some row.signing) →
      row.signing = b.pubKey ∨ row.FreeAt later := by
  obtain ⟨hnext, -⟩ := hc.toNat_next
  have hpred : subU64 P.checks b.index 1 = .ok c.getHeight := by
    rw [hindex, subU64_one (by omega), UInt64.add_sub_cancel]
  unfold checkIdentity
  rw [hpred, ok_bind, bind_verdictIf_eq_none, hidentity]
  constructor
  · rintro ⟨available, havailable, htrue⟩ i row hrow -
    rw [not_not] at htrue
    subst htrue
    exact hc.isIdAvailable_iff.mp havailable i row hrow
  · intro h
    refine ⟨true, hc.isIdAvailable_iff.mpr fun i row hrow => ?_, by simp⟩
    by_cases hconfirmed : row.confirmation = hashIdentity sha256 name (some row.signing)
    · exact howner i row hrow hconfirmed
    · exact h i row hrow hconfirmed

theorem checkCooldown_eq_none_iff : c.checkCooldown P b t = .ok none
    ↔ c.canMineIdentity P t.identity b.index b.timestamp b.pubKey = .ok .fine := by
  unfold checkCooldown
  rw [bind_verdictIf_eq_none]
  constructor
  · rintro ⟨result, hresult, hfine⟩
    rw [not_not] at hfine
    rw [hresult, hfine]
  · exact fun h => ⟨.fine, h, by simp⟩

end Chain

namespace Node

open Chain

variable {P : Platform} {U : Unicode} {isNumericChar : Char → Bool}
  {sha256 : List UInt8 → List UInt8} {W : DomainWriter} {now later : UtcTime} {n : Node}
  {block b : Block} {name : String} {data : DomainData} {keystore : Keystore P}
  {signing encryption : Bytes}

/-- **The mining gate agrees with the validator** on a domain block for a name in lower case, if and
only if what the gate does not see makes no difference. -/
theorem passesGate_iff (hn : n.Reachable P) (hname : U.toLowercase name = name)
    (hfine : n.chain.canMineDomain P U isNumericChar sha256 now n.chain.getHeight name
      keystore.getPublic = .ok .fine)
    (hcreate : n.chain.createDomain P sha256 W now classDomain name data domainDifficulty keystore
      signing encryption false = .ok block)
    (hjson : ∀ t, block.transaction = some t → ∃ data', P.parseDomainData t.data = .ok (some data'))
    (hmined : n.chain.MinedOn now block b) (hlater : now.secs ≤ later.secs) :
    n.chain.PassesGate P later b
      ↔ n.chain.TipIrrelevant P sha256 now later name keystore.getPublic := by
  obtain ⟨f, hc⟩ := hn.clean
  obtain ⟨t, k, ht, hclass, hidentity, hkey, hdiscount, hleft⟩ := createDomain_eq_ok hcreate
  obtain ⟨data', hdata⟩ := hjson t ht
  obtain ⟨howner, hcooldown⟩ := hc.canMineDomain_fine hn.zones hname hfine
  have htx : b.transaction = some t := hmined.transaction.trans ht
  have hbkey : b.pubKey = keystore.getPublic := hmined.pubKey.trans hkey
  have hdifficulty : n.chain.checkDeclaredDifficulty P b = .ok none ↔ _ :=
    hc.checkDeclaredDifficulty_next_iff htx hclass hdata hmined.timestamp hdiscount
      (hmined.difficulty ▸ hleft)
  rw [hmined.index, hc.wholeDiscount_next_iff, hidentity] at hdifficulty
  have havailable : n.chain.checkIdentity P later b t = .ok none ↔ _ :=
    hc.checkIdentity_next_iff hmined.index hidentity fun i row hrow hconfirmed =>
      hbkey ▸ (howner i row hrow hconfirmed).imp_right fun hfree => freeAt_later hfree hlater
  rw [hbkey] at havailable
  have hrest : n.chain.checkCooldown P b t = .ok none
      ↔ Rested P now n.chain (hashIdentity sha256 name none) keystore.getPublic := by
    rw [checkCooldown_eq_none_iff, ← hc.canMineIdentity_next_iff hcooldown, hmined.index,
      hmined.timestamp, hbkey, hidentity]
  constructor
  · intro h
    exact ⟨hdifficulty.mp h.difficulty, havailable.mp (h.identity t htx), hrest.mp (h.cooldown t htx)⟩
  · intro h
    refine ⟨hdifficulty.mpr h.weeks, fun t' ht' => ?_, fun t' ht' => ?_⟩
    · rw [htx, Option.some.injEq] at ht'
      exact ht' ▸ havailable.mpr h.owner
    · rw [htx, Option.some.injEq] at ht'
      exact ht' ▸ hrest.mpr h.rested

end Node

/-! ## The gate on two short chains -/

namespace Sample

/-- The data of a domain with an encrypted name of three bytes. -/
def minedText : String := "\x7b\"encrypted\":\"010203\",\"zone\":\"ruv\"\x7d"

/-- The platform of the concrete runs, which also reads this text. -/
def gatePlatform : Platform :=
  { platform true with
    readDomainJson := fun s =>
      if s = minedText then some ("010203", some fun bytes => ⟨bytes, "ruv", "", [], []⟩)
      else if s = domainText then some ("", some fun bytes => ⟨bytes, "ruv", "", [], []⟩)
      else none }

def writer : DomainWriter where
  encryptionPublic := key 9
  encrypt _ _ := some ⟨[1, 2, 3]⟩
  toJson _ := minedText

def gateKeystore : Keystore gatePlatform where
  getPublic := key 2
  sign _ := ⟨List.replicate 64 1⟩
  getPublic_length := by decide
  validKey_getPublic := by decide
  sign_length _ := by decide
  verify_sign _ := rfl

/-- A registration of another identity by a key, a quarter of an hour ago. -/
def recent2 (pubKey : Bytes) : Block :=
  block 2 1699999000 3 genesis.hash pubKey (some (domain ⟨[7]⟩))

end Sample

namespace Node

open Chain Sample

/-- Another key has mined the block in the tip. -/
theorem passesGate_foo : ∃ n : Node, ∃ b, n.Reachable gatePlatform ∧
    n.chain.canMineDomain gatePlatform Unicode.ascii Char.isDigit sha256 now n.chain.getHeight "foo.ruv"
      gateKeystore.getPublic = .ok .fine ∧
    b.index = 3 ∧ n.chain.PassesGate gatePlatform now b := by
  have hrun : ∃ n, receive gatePlatform now [genesis, recent2 (key 3)] (fresh genesis.hash) = .ok n
      ∧ n.chain.getHeight = 2
      ∧ n.chain.db.domainById (hashIdentity sha256 "foo.ruv" none) (n.chain.getHeight + 1) = none
      ∧ n.chain.getLastFullBlock (n.chain.getHeight + 1) (some gateKeystore.getPublic) = none
      ∧ (∃ r, n.chain.canMineDomain gatePlatform Unicode.ascii Char.isDigit sha256 now
        n.chain.getHeight "foo.ruv" gateKeystore.getPublic = .ok r ∧ r = .fine)
      ∧ ∃ block, n.chain.createDomain gatePlatform sha256 writer now classDomain "foo.ruv"
          ⟨Bytes.default, "ruv", "", [], []⟩ domainDifficulty gateKeystore Bytes.default Bytes.default
          false = .ok block
        ∧ block.index = 0 ∧ (∀ t ∈ block.transaction, t.data = minedText)
        ∧ ∃ job, n.chain.prepareJob gatePlatform block gateKeystore = .ok (some job)
          ∧ ∃ found, n.chain.findHash gatePlatform now 0 5 job = .ok (some found)
            ∧ found.index = 3 := by
    decide +kernel
  obtain ⟨n, hn, hheight, hnone, hlast, ⟨r, hfine, rfl⟩, block, hcreate, hnew, htext, job, hjob, found,
    hfound, hindex⟩ := hrun
  have hreach : n.Reachable gatePlatform := ⟨_, receive_run (fun _ _ _ => trivial) hn⟩
  have hparse : gatePlatform.parseDomainData minedText
      = .ok (some ⟨⟨[1, 2, 3]⟩, "ruv", "", [], []⟩) := by
    decide +kernel
  refine ⟨n, found.signed gateKeystore, hreach, hfine, hindex, (passesGate_iff hreach (by decide +kernel)
    hfine hcreate (fun t ht => ⟨_, htext t ht ▸ hparse⟩)
    (findHash_minedOn hnew hjob hfound) (Int64.le_refl _)).mpr ?_⟩
  refine ⟨fun row hrow => ?_, fun i row hrow => ?_, fun last hsome => ?_⟩
  · rw [hnone] at hrow
    cases hrow
  · rw [domainById_below_none (by rw [hheight]; rfl) (by rw [hheight]; decide) hnone] at hrow
    cases hrow
  · rw [hlast] at hsome
    cases hsome

/-- The same key has: the gate lets it mine, and the validator refuses what it has mined. -/
theorem not_passesGate_foo : ∃ n : Node, ∃ block b, n.Reachable gatePlatform ∧
    n.chain.canMineDomain gatePlatform Unicode.ascii Char.isDigit sha256 now n.chain.getHeight "foo.ruv"
      gateKeystore.getPublic = .ok .fine ∧
    n.chain.createDomain gatePlatform sha256 writer now classDomain "foo.ruv"
      ⟨Bytes.default, "ruv", "", [], []⟩ domainDifficulty gateKeystore Bytes.default Bytes.default
      false = .ok block ∧
    n.chain.MinedOn now block b ∧
    (∃ s, n.chain.checkNewBlock gatePlatform now b = .ok (.bad, s)) ∧
    ¬ n.chain.PassesGate gatePlatform now b := by
  have hrun : ∃ n, receive gatePlatform now [genesis, recent2 (key 2)] (fresh genesis.hash) = .ok n
      ∧ (∃ r, n.chain.canMineDomain gatePlatform Unicode.ascii Char.isDigit sha256 now
        n.chain.getHeight "foo.ruv" gateKeystore.getPublic = .ok r ∧ r = .fine)
      ∧ ∃ block, n.chain.createDomain gatePlatform sha256 writer now classDomain "foo.ruv"
          ⟨Bytes.default, "ruv", "", [], []⟩ domainDifficulty gateKeystore Bytes.default Bytes.default
          false = .ok block
        ∧ block.index = 0
        ∧ ∃ job, n.chain.prepareJob gatePlatform block gateKeystore = .ok (some job)
          ∧ ∃ found, n.chain.findHash gatePlatform now 0 5 job = .ok (some found)
            ∧ (∃ r, n.chain.checkNewBlock gatePlatform now (found.signed gateKeystore) = .ok r
              ∧ r.1 = .bad)
            ∧ (found.signed gateKeystore).transaction = some ((found.transaction).getD origin)
            ∧ ∃ verdict, n.chain.checkCooldown gatePlatform (found.signed gateKeystore)
              (found.transaction.getD origin) = .ok verdict ∧ verdict = some .bad := by
    decide +kernel
  obtain ⟨n, hn, ⟨r, hfine, rfl⟩, block, hcreate, hnew, job, hjob, found, hfound, ⟨⟨q, s⟩, hbad, rfl⟩,
    htx, verdict, hcooldown, rfl⟩ := hrun
  refine ⟨n, block, found.signed gateKeystore, ⟨_, receive_run (fun _ _ _ => trivial) hn⟩, hfine,
    hcreate, findHash_minedOn hnew hjob hfound, ⟨s, hbad⟩, fun h => ?_⟩
  have hnone := h.cooldown _ htx
  rw [hcooldown] at hnone
  cases hnone

end Node
