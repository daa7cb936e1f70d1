/-
# What a fork is asked and what the next block is asked

`check_block` judges a fork against the tip, the height and the cached last full block of the
present chain.  Four rules for the next block refer to the chain below it instead: the order of the
timestamps, the cooldown of the key, the discount of a domain, and the signers of the last full
block.  A fork is good on the chain that has been cut off below it exactly if it keeps these rules
there (`Chain.AsNextBlock`).
-/
import Ruvname.Replay

open Exec

/-! ## Queries on a table that ends -/

namespace Db.Represents

variable {db : Db} {f : Ledger} {i : UInt64} {key : Option Bytes} {full : Block}

/-- On a table that ends below an index, the last full block below it is the last one of all. -/
theorem lastFullBlock_maxIndex (hr : db.Represents f) (hi : i.toNat < 2 ^ 63)
    (htop : ∀ m, (f m).isSome → m < i.toNat) :
    db.lastFullBlock maxIndex key = db.lastFullBlock i key := by
  have hmax : maxIndex.toNat < 2 ^ 63 := by decide
  have hall : ∀ m, (f m).isSome → m < maxIndex.toNat := by
    intro m hm
    have := hr.le_maxRows hm
    have : maxRows < maxIndex.toNat := by decide
    omega
  cases h₁ : db.lastFullBlock maxIndex key with
  | none =>
    cases h₂ : db.lastFullBlock i key with
    | none => rfl
    | some full =>
      obtain ⟨n, x, hx, -, -, hfull, -⟩ := hr.lastFullBlock_eq_some hi h₂
      exact absurd hfull (hr.lastFullBlock_eq_none hmax h₁ n x hx (hall n (by rw [hx]; rfl)))
  | some full =>
    obtain ⟨n, x, hx, rfl, -, hfull, hlast⟩ := hr.lastFullBlock_eq_some hmax h₁
    cases h₂ : db.lastFullBlock i key with
    | none => exact absurd hfull (hr.lastFullBlock_eq_none hi h₂ n x hx (htop n (by rw [hx]; rfl)))
    | some full' =>
      obtain ⟨m, y, hy, rfl, -, hfull', hlast'⟩ := hr.lastFullBlock_eq_some hi h₂
      have hnm : n = m := le_antisymm (hlast' n x hx (htop n (by rw [hx]; rfl)) hfull)
        (hlast m y hy (hall m (by rw [hy]; rfl)) hfull')
      subst hnm
      rw [hx, Option.some.injEq] at hy
      rw [hy]

/-- If the last full block is of the key, it is the last full block of the key. -/
theorem lastFullBlock_key (hr : db.Represents f) (hi : i.toNat < 2 ^ 63)
    (h : db.lastFullBlock i none = some full) :
    db.lastFullBlock i (some full.pubKey) = some full := by
  obtain ⟨n, x, hx, rfl, hn, hfull, hlast⟩ := hr.lastFullBlock_eq_some hi h
  have hkey : IsFullFor (some x.collapse.pubKey) x := by
    refine ⟨hfull.1, fun k hk => ?_⟩
    rw [Option.mem_some_iff] at hk
    exact hk
  cases h' : db.lastFullBlock i (some x.collapse.pubKey) with
  | none => exact absurd hkey (hr.lastFullBlock_eq_none hi h' n x hx hn)
  | some full' =>
    obtain ⟨m, y, hy, rfl, hm, hfull', hlast'⟩ := hr.lastFullBlock_eq_some hi h'
    have hnm : n = m := le_antisymm (hlast' n x hx hn hkey)
      (hlast m y hy hm ⟨hfull'.1, fun k hk => by cases hk⟩)
    subst hnm
    rw [hx, Option.some.injEq] at hy
    rw [hy]

end Db.Represents

namespace Chain

variable {P : Platform} {now : UtcTime} {c r : Chain} {b full l : Block} {f : Ledger} {i : UInt64}
  {s : SignersCache}

/-! ## The chain below a fork -/

/-- The chain without the rows from an index on, with the tip and the last full block loaded from
the tables. -/
def rollback (c : Chain) (i : UInt64) : Chain :=
  let db := c.db.truncateFromBlock i
  { c with
    db := db
    lastBlock := db.loadLastBlock
    lastFullBlock := db.lastFullBlock maxIndex none }

/-- What the next block is asked and a fork is not: it is not older than its parent; the cooldown is
over that the tables give; the discount of a domain is the one of the early chain, where the fork is
early; and a signing block is by a signer of the last full block below it who has not signed yet,
unless this block is locked already. -/
structure AsNextBlock (P : Platform) (c : Chain) (b : Block) : Prop where
  timestamp : ∀ parent, c.getBlock (b.index - 1) = some parent → ¬ b.timestamp < parent.timestamp
  cooldown : ∀ t, b.transaction = some t →
    { c with lastFullBlock := none }.checkCooldown P b t = .ok none
  discount : ∀ t time, b.transaction = some t → t.class' = classDomain →
    b.index ≤ blocksWithoutDiscount →
    c.getDomainUpdateTime P t.identity b.index b.timestamp = .ok (some time) →
    domainDifficulty - 1 ≤ b.difficulty
  signer : b.transaction = none → blockSignersStart < b.index →
    ∀ full, c.db.lastFullBlock b.index none = some full →
      b.index.toNat - 1 - full.index.toNat < blockSignersAll →
      (∃ signers s, c.getBlockSigners P full = .ok (signers, s) ∧ b.pubKey ∈ signers) ∧
        ∀ i x, full.index < i → i < b.index → c.getBlock i = some x → x.pubKey ≠ b.pubKey

/-- What is known of the chain below a fork: it ends with the parent. -/
structure Below (c : Chain) (b : Block) (f : Ledger) (parent : Block) : Prop where
  represents : (c.rollback b.index).db.Represents f
  tip : (c.rollback b.index).lastBlock = some parent
  index : parent.index.toNat + 1 = b.index.toNat
  stored : c.getBlock (b.index - 1) = some parent
  top : ∀ m, (f m).isSome → m < b.index.toNat
  le : b.index ≤ c.getHeight
  bound : b.index.toNat < 2 ^ 63

theorem rollback_agree (c : Chain) (i : UInt64) : AgreeBelow i c (c.rollback i) :=
  AgreeBelow.of_truncate rfl

/-- A fork has a parent. -/
theorem Grounded.below (hg : c.Grounded f) (hb : 2 ≤ b.index.toNat)
    (hfork : c.checkNewBlock P now b = .ok (.fork, s)) :
    ∃ parent, Below c b (f.truncate b.index.toNat) parent := by
  obtain ⟨l, my, hl, hle, -, -⟩ := hg.fork_cases hfork
  have hrows := hg.index_le_maxRows hl
  have hmax := maxRows_lt
  have hpred : (b.index - 1).toNat = b.index.toNat - 1 := toNat_sub_one (by omega)
  have hr : (c.rollback b.index).db.Represents (f.truncate b.index.toNat) :=
    hg.db.truncateFromBlock (by omega)
  have htop : ∀ m, (f.truncate b.index.toNat m).isSome → m < b.index.toNat := by
    intro m hm
    by_contra hlt
    rw [Ledger.truncate_of_le (by omega)] at hm
    cases hm
  have hparent := hg.isSome_of_le_tip hl (n := b.index.toNat - 1) (by omega) (by omega)
  have hparent' : (f.truncate b.index.toNat (b.index.toNat - 1)).isSome := by
    rw [Ledger.truncate_of_lt (by omega)]
    exact hparent
  cases htip : (c.rollback b.index).lastBlock with
  | none =>
    have hnone := hr.loadLastBlock_eq_none htip (b.index.toNat - 1)
    rw [hnone] at hparent'
    cases hparent'
  | some parent =>
    obtain ⟨n, x, hx, rfl, hgreatest⟩ := hr.loadLastBlock_eq_some htip
    have hn : n = b.index.toNat - 1 := by
      have := htop n (by rw [hx]; rfl)
      have := hgreatest _ hparent'
      omega
    have hindex : x.collapse.index.toNat = n := hr.index n x hx
    have hheight : b.index ≤ c.getHeight := by
      rw [getHeight_of_some hl, UInt64.le_iff_toNat_le]
      exact hle
    refine ⟨x.collapse, hr, htip, by omega, ?_, htop, hheight, by omega⟩
    rw [getBlock, hg.db.getBlock, hpred, ← hn, (Ledger.truncate_eq_some hx).2, Option.map_some]

namespace Below

variable {parent : Block} (hd : Below c b f parent)
include hd

/-- The last full block of the chain below a fork, in the terms of the whole chain. -/
theorem lastFullBlock : (c.rollback b.index).lastFullBlock = c.db.lastFullBlock b.index none :=
  (hd.represents.lastFullBlock_maxIndex hd.bound hd.top).trans
    ((rollback_agree c b.index).lastFullBlock le_rfl)

/-- So is the last full block of a key. -/
theorem getLastFullBlock (key : Bytes) :
    (c.rollback b.index).getLastFullBlock b.index (some key)
      = c.db.lastFullBlock b.index (some key) := by
  have hquery : (c.rollback b.index).db.lastFullBlock b.index (some key)
      = c.db.lastFullBlock b.index (some key) :=
    (rollback_agree c b.index).lastFullBlock le_rfl
  unfold Chain.getLastFullBlock
  rw [hquery]
  have hcached : (c.rollback b.index).lastFullBlock = (c.rollback b.index).db.lastFullBlock b.index none :=
    hd.represents.lastFullBlock_maxIndex hd.bound hd.top
  cases hfull : (c.rollback b.index).lastFullBlock with
  | none => rfl
  | some full =>
    dsimp only
    split
    · rename_i hkey
      obtain rfl : full.pubKey = key := hkey.2 key rfl
      rw [← hquery]
      rw [hfull] at hcached
      exact (hd.represents.lastFullBlock_key hd.bound hcached.symm).symm
    · rfl

/-- The cooldown on the chain below the fork is the one that the tables give. -/
theorem checkCooldown (t : Transaction) : (c.rollback b.index).checkCooldown P b t
    = { c with lastFullBlock := none }.checkCooldown P b t := by
  have hdomain : (c.rollback b.index).isDomainInBlockchain b.index t.identity
      = { c with lastFullBlock := none }.isDomainInBlockchain b.index t.identity :=
    (rollback_agree c b.index).isDomainInBlockchain
  have hlast : { c with lastFullBlock := none }.getLastFullBlock b.index (some b.pubKey)
      = c.db.lastFullBlock b.index (some b.pubKey) := rfl
  unfold Chain.checkCooldown canMineIdentity
  rw [hd.getLastFullBlock, hlast, hdomain]

/-- A transaction that passes in a fork passes below it exactly if the cooldown is over there. -/
theorem checkTransaction (h : c.checkTransaction P now b = .ok none) :
    (c.rollback b.index).checkTransaction P now b = .ok none ↔ ∀ t, b.transaction = some t →
      { c with lastFullBlock := none }.checkCooldown P b t = .ok none := by
  unfold Chain.checkTransaction at h ⊢
  cases ht : b.transaction with
  | none => exact iff_of_true rfl fun t ht => by cases ht
  | some t =>
    rw [ht] at h
    dsimp only at h ⊢
    have hindex := hd.index
    have hidentity : (c.rollback b.index).checkIdentity P now b t = c.checkIdentity P now b t :=
      (rollback_agree c b.index).checkIdentity (by omega) hd.bound
    have hrecords : (c.rollback b.index).checkRecords P t = c.checkRecords P t :=
      AgreeBelow.checkRecords rfl
    rw [firstVerdict_eq_none] at h ⊢
    simp only [List.forall_mem_cons, List.not_mem_nil, false_implies, implies_true, and_true] at h ⊢
    rw [hidentity, hrecords, hd.checkCooldown]
    constructor
    · rintro ⟨-, -, hcooldown, -⟩ t' ⟨⟩
      exact hcooldown
    · intro hcooldown
      exact ⟨h.1, h.2.1, hcooldown t rfl, h.2.2.2⟩

theorem height : (c.rollback b.index).getHeight.toNat + 1 = b.index.toNat := by
  rw [getHeight_of_some hd.tip]
  exact hd.index

/-- At an early fork a domain has the discount of the early chain. -/
theorem discount_early {identity : Bytes} {time : Int64} (hearly : b.index ≤ blocksWithoutDiscount)
    (h : c.getDomainUpdateTime P identity b.index b.timestamp = .ok (some time)) :
    (c.rollback b.index).getIdentityDiscount P identity false b.index b.timestamp = .ok 1 := by
  have hlow : (c.rollback b.index).getHeight < blocksWithoutDiscount := by
    rw [UInt64.lt_iff_toNat_lt]
    have := UInt64.le_iff_toNat_le.mp hearly
    have := hd.height
    omega
  have htime : (c.rollback b.index).getDomainUpdateTime P identity b.index b.timestamp
      = c.getDomainUpdateTime P identity b.index b.timestamp :=
    (rollback_agree c b.index).getDomainUpdateTime
  unfold Chain.getIdentityDiscount
  rw [htime, h, ok_bind]
  simp [hlow]

/-- At any other, and for a new domain, the discount is the one of the whole chain. -/
theorem discount_same {identity : Bytes} (h : b.index ≤ blocksWithoutDiscount →
      ∀ time, c.getDomainUpdateTime P identity b.index b.timestamp ≠ .ok (some time)) :
    (c.rollback b.index).getIdentityDiscount P identity false b.index b.timestamp
      = c.getIdentityDiscount P identity false b.index b.timestamp := by
  have htime : (c.rollback b.index).getDomainUpdateTime P identity b.index b.timestamp
      = c.getDomainUpdateTime P identity b.index b.timestamp :=
    (rollback_agree c b.index).getDomainUpdateTime
  unfold Chain.getIdentityDiscount
  rw [htime]
  cases hown : c.getDomainUpdateTime P identity b.index b.timestamp with
  | error e => rfl
  | ok o =>
    cases o with
    | none => rfl
    | some time =>
      have hlate : ¬ b.index ≤ blocksWithoutDiscount := fun hearly => h hearly time hown
      rw [UInt64.not_le, UInt64.lt_iff_toNat_lt] at hlate
      have hheight := hd.height
      have hbelow : ¬ (c.rollback b.index).getHeight < blocksWithoutDiscount := by
        rw [UInt64.lt_iff_toNat_lt]
        omega
      have habove : ¬ c.getHeight < blocksWithoutDiscount := by
        have := UInt64.le_iff_toNat_le.mp hd.le
        rw [UInt64.lt_iff_toNat_lt]
        omega
      rw [ok_bind, ok_bind]
      simp [hbelow, habove]

/-- A difficulty that is high enough for a fork is so below it, unless the discount is smaller
there. -/
theorem checkDeclaredDifficulty (hp : Passed P now c b c.lastBlock) :
    (c.rollback b.index).checkDeclaredDifficulty P b = .ok none ↔
      ∀ t time, b.transaction = some t → t.class' = classDomain → b.index ≤ blocksWithoutDiscount →
        c.getDomainUpdateTime P t.identity b.index b.timestamp = .ok (some time) →
        domainDifficulty - 1 ≤ b.difficulty := by
  obtain ⟨needed, hneeded, hle⟩ := bind_verdictIf_eq_none.mp hp.declaredDifficulty
  unfold neededDifficulty at hneeded
  have hiff : (c.rollback b.index).checkDeclaredDifficulty P b = .ok none ↔
      ∃ needed, (c.rollback b.index).neededDifficulty P b = .ok needed ∧ ¬ b.difficulty < needed :=
    bind_verdictIf_eq_none
  rw [hiff]
  unfold neededDifficulty
  cases ht : b.transaction with
  | none =>
    rw [ht] at hneeded
    refine iff_of_true ⟨needed, hneeded, hle⟩ ?_
    rintro t time ⟨⟩
  | some t =>
    rw [ht] at hneeded
    dsimp only at hneeded ⊢
    by_cases hclass : t.class' = classDomain
    · by_cases hgap : b.index ≤ blocksWithoutDiscount ∧
          ∃ time, c.getDomainUpdateTime P t.identity b.index b.timestamp = .ok (some time)
      · obtain ⟨hearly, time, htime⟩ := hgap
        unfold getDifficultyForTransaction at hneeded ⊢
        rw [if_pos hclass] at hneeded ⊢
        obtain ⟨discount, -, hneeded⟩ := bind_eq_ok.mp hneeded
        obtain ⟨data, hdata, hneeded⟩ := bind_eq_ok.mp hneeded
        cases data with
        | none =>
          -- no difficulty would be enough
          cases hneeded
          have hlow := hp.difficulty_le
          rw [UInt32.not_lt, UInt32.le_iff_toNat_le] at hle
          have hmax : (4294967295 : UInt32).toNat = 4294967295 := rfl
          omega
        | some data =>
          have hone : subU32 P.checks domainDifficulty 1 = .ok (domainDifficulty - 1) := by
            cases P.checks <;> rfl
          rw [hd.discount_early hearly htime, ok_bind, hdata, ok_bind]
          dsimp only
          rw [hone]
          constructor
          · rintro ⟨_, ⟨⟩, henough⟩ t' time' - - - -
            exact UInt32.not_lt.mp henough
          · intro henough
            exact ⟨_, rfl, UInt32.not_lt.mpr (henough t time rfl hclass hearly htime)⟩
      · have hsame : (c.rollback b.index).getDifficultyForTransaction P t b.index b.timestamp
            = c.getDifficultyForTransaction P t b.index b.timestamp := by
          unfold getDifficultyForTransaction
          rw [hd.discount_same fun hearly time htime => hgap ⟨hearly, time, htime⟩]
        refine iff_of_true ⟨needed, hsame.trans hneeded, hle⟩ ?_
        rintro t' time ⟨⟩ - hearly htime
        exact absurd ⟨hearly, time, htime⟩ hgap
    · have hsame : (c.rollback b.index).getDifficultyForTransaction P t b.index b.timestamp
          = c.getDifficultyForTransaction P t b.index b.timestamp := by
        unfold getDifficultyForTransaction
        rw [if_neg hclass, if_neg hclass]
      refine iff_of_true ⟨needed, hsame.trans hneeded, hle⟩ ?_
      rintro t' time ⟨⟩ hclass'
      exact absurd hclass' hclass

/-- The last full block below a fork lies below it. -/
theorem full_lt (hfull : c.db.lastFullBlock b.index none = some full) :
    full.index < b.index ∧ full.index ≤ (c.rollback b.index).getHeight := by
  rw [← hd.lastFullBlock] at hfull
  have hmax : maxIndex.toNat < 2 ^ 63 := by decide
  obtain ⟨n, x, hx, rfl, -⟩ := hd.represents.lastFullBlock_eq_some hmax hfull
  have hindex : x.collapse.index.toNat = n := hd.represents.index n x hx
  have hlow := hd.top n (by rw [hx]; rfl)
  have hheight := hd.height
  rw [UInt64.lt_iff_toNat_lt, UInt64.le_iff_toNat_le]
  omega

/-- The signers of the last full block below a fork. -/
theorem getBlockSigners (hfull : c.db.lastFullBlock b.index none = some full) :
    (c.rollback b.index).getBlockSigners P full = c.getBlockSigners P full := by
  obtain ⟨hlt, hle⟩ := hd.full_lt hfull
  have hle' : full.index ≤ c.getHeight := UInt64.le_trans (UInt64.le_of_lt hlt) hd.le
  have hbound := hd.bound
  rw [UInt64.lt_iff_toNat_lt] at hlt
  rw [getBlockSigners_eq, getBlockSigners_eq]
  by_cases hstart : blockSignersStart ≤ full.index
  · have hbelow : AgreeBelow full.index c (c.rollback b.index) :=
      (rollback_agree c b.index).below hbound hlt.le
    have hselect : (c.rollback b.index).selectSigners P full = c.selectSigners P full :=
      hbelow.selectSigners hstart (by omega)
    rw [if_neg (not_or.mpr ⟨UInt64.not_lt.mpr hstart, UInt64.not_lt.mpr hle⟩),
      if_neg (not_or.mpr ⟨UInt64.not_lt.mpr hstart, UInt64.not_lt.mpr hle'⟩), hselect]
    rfl
  · have hearly : full.index < blockSignersStart := UInt64.not_le.mp hstart
    rw [if_pos (Or.inl hearly), if_pos (Or.inl hearly)]
    rfl

/-- Below the fork nobody between the full block and the fork has signed with the key. -/
theorem alreadySigned (hfull : c.db.lastFullBlock b.index none = some full) :
    (c.rollback b.index).alreadySigned b.pubKey (b.index.toNat - (full.index + 1).toNat) (full.index + 1)
        = .ok false
      ↔ ∀ i x, full.index < i → i < b.index → c.getBlock i = some x → x.pubKey ≠ b.pubKey := by
  obtain ⟨hlt, -⟩ := hd.full_lt hfull
  have hbound := hd.bound
  have hindex := hd.index
  rw [UInt64.lt_iff_toNat_lt] at hlt
  have hnext : (full.index + 1).toNat = full.index.toNat + 1 :=
    toNat_add_one (by omega)
  have hg : (c.rollback b.index).Grounded f := grounded_of_load hd.represents rfl
  obtain ⟨signed, hsigned⟩ : ((c.rollback b.index).alreadySigned b.pubKey
      (b.index.toNat - (full.index + 1).toNat) (full.index + 1)).Returns :=
    hg.returns_alreadySigned hd.tip (by omega) (by omega)
  have hiff := alreadySigned_eq_ok (by omega) hsigned
  have hget : ∀ i : UInt64, i < b.index → (c.rollback b.index).getBlock i = c.getBlock i := by
    intro i hi
    rw [UInt64.lt_iff_toNat_lt] at hi
    exact (rollback_agree c b.index).getBlock (asI64_lt_asI64 hbound hi)
  rw [hsigned, Except.ok.injEq]
  constructor
  · rintro rfl i x h₁ h₂ hx hkey
    have hself : UInt64.ofNat i.toNat = i := UInt64.ofNat_toNat
    rw [UInt64.lt_iff_toNat_lt] at h₁
    have h₂' := UInt64.lt_iff_toNat_lt.mp h₂
    have := hiff.mpr ⟨i.toNat, x, by omega, by omega, by rw [hself, hget i h₂, hx], hkey⟩
    cases this
  · intro hfresh
    cases signed with
    | false => rfl
    | true =>
      obtain ⟨k, x, h₁, h₂, hx, hkey⟩ := hiff.mp rfl
      have hk : (UInt64.ofNat k).toNat = k := UInt64.toNat_ofNat_of_lt' (show k < 2 ^ 64 by omega)
      have hbelow : UInt64.ofNat k < b.index := by
        rw [UInt64.lt_iff_toNat_lt]
        omega
      have habove : full.index < UInt64.ofNat k := by
        rw [UInt64.lt_iff_toNat_lt]
        omega
      rw [hget _ hbelow] at hx
      exact absurd hkey (hfresh _ x habove hbelow hx)

/-- The rule for signers below a fork. -/
theorem isGoodSignerForBlock (hfull : c.db.lastFullBlock b.index none = some full) :
    (∃ s, (c.rollback b.index).isGoodSignerForBlock P b full = .ok (true, s)) ↔
      (∃ signers s, c.getBlockSigners P full = .ok (signers, s) ∧ b.pubKey ∈ signers) ∧
        ∀ i x, full.index < i → i < b.index → c.getBlock i = some x → x.pubKey ≠ b.pubKey := by
  obtain ⟨hlt, -⟩ := hd.full_lt hfull
  have hbound := hd.bound
  rw [UInt64.lt_iff_toNat_lt] at hlt
  have hadd : addU64 P.checks full.index 1 = .ok (full.index + 1) :=
    addU64_one (by omega)
  rw [← hd.alreadySigned hfull, ← hd.getBlockSigners hfull]
  constructor
  · rintro ⟨s, h⟩
    obtain ⟨⟨signers, cache⟩, hget, h⟩ := bind_eq_ok.mp h
    dsimp only at h
    by_cases hmem : b.pubKey ∉ signers
    · rw [if_pos hmem] at h
      cases h
    · rw [if_neg hmem, hadd, ok_bind] at h
      obtain ⟨signed, hsigned, h⟩ := bind_eq_ok.mp h
      cases signed with
      | true => cases h
      | false => exact ⟨⟨signers, cache, hget, not_not.mp hmem⟩, hsigned⟩
  · rintro ⟨⟨signers, cache, hget, hmem⟩, hsigned⟩
    exact ⟨cache, isGoodSignerForBlock_eq_true hget hmem (by omega) hsigned⟩

/-- The signing stage below a fork. -/
theorem signStage :
    (∃ s, (c.rollback b.index).signStage P b (c.rollback b.index).lastFullBlock = .ok (true, s)) ↔
      (b.transaction = none → blockSignersStart < b.index →
        ∀ full, c.db.lastFullBlock b.index none = some full →
          b.index.toNat - 1 - full.index.toNat < blockSignersAll →
          (∃ signers s, c.getBlockSigners P full = .ok (signers, s) ∧ b.pubKey ∈ signers) ∧
            ∀ i x, full.index < i → i < b.index → c.getBlock i = some x → x.pubKey ≠ b.pubKey) := by
  rw [hd.lastFullBlock]
  by_cases hstart : blockSignersStart < b.index
  swap
  · unfold Chain.signStage
    rw [if_neg hstart]
    exact iff_of_true ⟨_, rfl⟩ fun _ hlt => absurd hlt hstart
  cases htx : b.transaction with
  | some t =>
    unfold Chain.signStage isGoodSignBlock
    rw [if_pos hstart, htx]
    exact iff_of_true ⟨_, rfl⟩ fun h => by cases h
  | none =>
    cases hfull : c.db.lastFullBlock b.index none with
    | none =>
      unfold Chain.signStage isGoodSignBlock
      rw [if_pos hstart, htx]
      exact iff_of_true ⟨_, rfl⟩ fun _ _ full h => by cases h
    | some full =>
      obtain ⟨-, hle⟩ := hd.full_lt hfull
      have hheight := hd.height
      rw [signStage_eq htx hstart hle]
      by_cases hfew : b.index.toNat - 1 - full.index.toNat < blockSignersAll
      · rw [if_pos (by omega), hd.isGoodSignerForBlock hfull]
        constructor
        · rintro hgood - - full' ⟨⟩ -
          exact hgood
        · intro hgood
          exact hgood rfl hstart full rfl hfew
      · rw [if_neg (by omega)]
        refine iff_of_true ⟨_, rfl⟩ ?_
        rintro - - full' ⟨⟩ hfew'
        exact absurd hfew' hfew

/-- Below a fork, the block that has passed there is next to the tip and linked to it. -/
theorem compareWithTip (hp : Passed P now c b c.lastBlock) :
    (c.rollback b.index).compareWithTip b parent = .good := by
  have hindex := hd.index
  have hne : b.index ≠ 0 := by
    intro h
    rw [h] at hindex
    cases hindex
  rw [compareWithTip_eq_good]
  refine Or.inr ⟨UInt64.lt_iff_toNat_lt.mpr (by omega), ?_⟩
  exact hp.prevBlockHash_eq hne hd.stored

/-- **A fork as the next block** of the chain below it. -/
theorem good_iff (hp : Passed P now c b c.lastBlock) :
    (∃ s, (c.rollback b.index).checkNewBlock P now b = .ok (.good, s)) ↔ c.AsNextBlock P b := by
  have hindex := hd.index
  have hbound := hd.bound
  have hnext : addU64 P.checks parent.index 1 = .ok b.index := by
    rw [addU64_one (by omega), Except.ok.injEq]
    apply UInt64.toNat_inj.mp
    rw [toNat_add_one (by omega), hindex]
  have hlt : parent.index < b.index := UInt64.lt_iff_toNat_lt.mpr (by omega)
  constructor
  · rintro ⟨s, hgood⟩
    obtain ⟨hpassed, hpos⟩ := (checkBlock_accepting accepting_good).mp hgood
    rw [hd.tip, checkPosition_some accepting_good] at hpos
    obtain ⟨htime, -, hsign, -⟩ := hpos
    refine ⟨?_, (hd.checkTransaction hp.transaction).mp hpassed.transaction,
      (hd.checkDeclaredDifficulty hp).mp hpassed.declaredDifficulty, hd.signStage.mp ⟨s, hsign⟩⟩
    intro parent' hparent' hbefore
    rw [hd.stored, Option.some.injEq] at hparent'
    subst hparent'
    exact htime ⟨hbefore, hlt⟩
  · intro hrules
    obtain ⟨s, hsign⟩ := hd.signStage.mpr hrules.signer
    have hparent : (c.rollback b.index).checkParent P b = .ok none :=
      (rollback_agree c b.index).checkParent (by omega) hbound hp.parent
    have hahead : checkAhead P b (c.rollback b.index).lastBlock = .ok none := by
      rw [hd.tip, checkAhead, hnext, ok_bind, verdictIf_eq_none.mpr (UInt64.lt_irrefl _)]
    refine ⟨s, (checkBlock_accepting accepting_good).mpr ⟨⟨hp.version, hp.wrongHash, hp.clock, hahead,
      (hd.checkDeclaredDifficulty hp).mpr hrules.discount, hp.hashDifficulty, hp.hash, hp.signature,
      hparent, (hd.checkTransaction hp.transaction).mpr hrules.cooldown⟩, ?_⟩⟩
    rw [hd.tip, checkPosition_some accepting_good]
    refine ⟨?_, ⟨b.index, hnext, UInt64.lt_irrefl _⟩, hsign, hd.compareWithTip hp⟩
    rintro ⟨hbefore, -⟩
    exact hrules.timestamp parent hd.stored hbefore

end Below

end Chain

namespace Node

variable {P : Platform} {n : Node} {now : UtcTime} {b : Block} {s : SignersCache}

/-- **What a fork would have been as the next block.**  In every state of a node, a block of index 2
or more that is judged a fork is good on the chain that has been cut off below it if and only if it
keeps there the rules that are not asked of a fork. -/
theorem rollback_good_iff (hn : Reachable P n) (hb : 2 ≤ b.index)
    (hfork : n.chain.checkNewBlock P now b = .ok (.fork, s)) :
    (∃ s', (n.chain.rollback b.index).checkNewBlock P now b = .ok (.good, s'))
      ↔ n.chain.AsNextBlock P b := by
  obtain ⟨f, hg⟩ := hn.grounded
  obtain ⟨parent, hd⟩ := hg.below (UInt64.le_iff_toNat_le.mp hb) hfork
  exact hd.good_iff ((Chain.checkBlock_accepting Chain.accepting_fork).mp hfork).1

end Node

namespace Sample

/-- Two signing blocks on top of the origin block, and forks at index 3: one as old as the block
that it replaces, and one that is older than its parent. -/
def threeBlocks : List Block :=
  [genesis, block 2 10 3 genesis.hash (key 2) none, block 3 20 4 (hash [3]) (key 2) none]
def laterFork : Block := block 3 20 8 (hash [3]) (key 3) none
def earlierFork : Block := block 3 5 8 (hash [3]) (key 3) none

end Sample

namespace Node

/-- A fork that could have been the next block. -/
theorem rollback_good_laterFork : ∃ n : Node, n.Reachable (Sample.platform true) ∧
    (∃ s, n.chain.checkNewBlock (Sample.platform true) Sample.now Sample.laterFork = .ok (.fork, s)) ∧
    n.chain.AsNextBlock (Sample.platform true) Sample.laterFork := by
  have hrun : ∃ n, receive (Sample.platform true) Sample.now Sample.threeBlocks
        (fresh Sample.genesis.hash) = .ok n
      ∧ (∃ r, n.chain.checkNewBlock (Sample.platform true) Sample.now Sample.laterFork = .ok r
        ∧ r.1 = .fork)
      ∧ ∃ r, (n.chain.rollback 3).checkNewBlock (Sample.platform true) Sample.now Sample.laterFork = .ok r
        ∧ r.1 = .good := by
    decide +kernel
  obtain ⟨n, hn, ⟨⟨q, s⟩, hfork, rfl⟩, ⟨q', s'⟩, hgood, rfl⟩ := hrun
  have hreach : n.Reachable (Sample.platform true) :=
    ⟨Sample.genesis.hash, receive_run (fun _ _ _ => trivial) hn⟩
  exact ⟨n, hreach, ⟨s, hfork⟩, (rollback_good_iff hreach (by decide) hfork).mp ⟨s', hgood⟩⟩

/-- A fork that is older than its parent would have been refused as the next block, and replaces the
block that is stored. -/
theorem not_rollback_good_earlierFork : ∃ n : Node, n.Reachable (Sample.platform true) ∧
    (2 : UInt64) ≤ Sample.earlierFork.index ∧
    (∃ s, n.chain.checkNewBlock (Sample.platform true) Sample.now Sample.earlierFork
      = .ok (.fork, s)) ∧
    (∃ s, (n.chain.rollback Sample.earlierFork.index).checkNewBlock (Sample.platform true) Sample.now
      Sample.earlierFork = .ok (.bad, s)) ∧
    ∃ n' state, n.handleBlock (Sample.platform true) (fun _ => Sample.now) Sample.earlierFork
      = .ok (n', state) ∧ n'.chain.getBlock 3 = some Sample.earlierFork := by
  have hrun : ∃ n, receive (Sample.platform true) Sample.now Sample.threeBlocks
        (fresh Sample.genesis.hash) = .ok n
      ∧ (∃ r, n.chain.checkNewBlock (Sample.platform true) Sample.now Sample.earlierFork = .ok r
        ∧ r.1 = .fork)
      ∧ (∃ r, (n.chain.rollback 3).checkNewBlock (Sample.platform true) Sample.now Sample.earlierFork
        = .ok r ∧ r.1 = .bad)
      ∧ ∃ r, n.handleBlock (Sample.platform true) (fun _ => Sample.now) Sample.earlierFork = .ok r
        ∧ r.1.chain.getBlock 3 = some Sample.earlierFork := by
    decide +kernel
  obtain ⟨n, hn, ⟨⟨q, s⟩, hfork, rfl⟩, ⟨⟨q', s'⟩, hbad, rfl⟩, ⟨n', state⟩, hhandle, hstored⟩ := hrun
  exact ⟨n, ⟨Sample.genesis.hash, receive_run (fun _ _ _ => trivial) hn⟩, by decide, ⟨s, hfork⟩,
    ⟨s', hbad⟩, n', state, hhandle, hstored⟩

end Node
