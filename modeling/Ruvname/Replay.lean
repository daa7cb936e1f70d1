/-
# Replay of a stored chain

The stored blocks are judged and appended one by one from empty tables.  As long as this goes
well, the chain it leads to has the rows of the stored chain below the next block.

Two rules read the height of the chain: the discount of a domain by its age, and the test of the
signers.  Here they are read at the height of a given tip, and both get more lenient with it.
-/
import Ruvname.Redelivery

open Exec

/-! ## Tables of one ledger -/

/-- The same database with empty tables. -/
def Db.cleared (db : Db) : Db := { db with blocks := Table.empty, domains := Table.empty }

theorem Db.represents_cleared (db : Db) : db.cleared.Represents (fun _ => none) where
  blocks _ := rfl
  blocks_neg _ _ := rfl
  domains _ := rfl
  domains_neg _ _ := rfl
  index _ _ h := by cases h
  closed _ h := by cases h

/-- A database is determined by its ledger and its options. -/
theorem Db.Represents.eq {db db' : Db} {f : Ledger} (hr : db.Represents f) (hr' : db'.Represents f)
    (hoptions : db.options = db'.options) : db = db' := by
  apply Db.ext
  · apply Table.ext_find?
    intro k
    rcases lt_or_ge k 0 with hk | hk
    · rw [hr.blocks_neg k hk, hr'.blocks_neg k hk]
    · obtain ⟨n, rfl⟩ := Int.eq_ofNat_of_zero_le hk
      rw [hr.blocks, hr'.blocks]
  · apply Table.ext_find?
    intro k
    rcases lt_or_ge k 0 with hk | hk
    · rw [hr.domains_neg k hk, hr'.domains_neg k hk]
    · obtain ⟨n, rfl⟩ := Int.eq_ofNat_of_zero_le hk
      rw [hr.domains, hr'.domains]
  · exact hoptions

namespace Chain

variable {P : Platform} {now : UtcTime} {c c' r r' : Chain} {b l full : Block} {f : Ledger}
  {s : SignersCache} {tip : Option Block}

/-- Adding a block leaves the options. -/
theorem addBlock_options (h : c.addBlock b = .ok c') : c'.db.options = c.db.options := by
  unfold addBlock at h
  split at h
  · cases h
    rfl
  · rename_i db hdb
    have hoptions : db.options = c.db.options := by
      obtain ⟨blocks, -, rfl⟩ := Option.map_eq_some_iff.mp hdb
      rfl
    split at h
    · cases h
      exact hoptions
    · split at h
      · cases h
      · rename_i db' hdb'
        cases h
        unfold Db.addTransactionToTable at hdb'
        split at hdb'
        · obtain ⟨domains, -, rfl⟩ := Option.map_eq_some_iff.mp hdb'
          exact hoptions
        · split at hdb'
          · cases hdb'
            exact hoptions
          · cases hdb'

/-! ## Replay -/

/-- The stored blocks `1..k`, as they are read. -/
def storedBlocks (c : Chain) (k : ℕ) : List Block :=
  (List.range k).filterMap fun i => c.getBlock (UInt64.ofNat (i + 1))

/-- The first `k` stored blocks, judged and appended one by one from empty tables. -/
def replay (P : Platform) (now : UtcTime) (c : Chain) (k : ℕ) : Exec (Option Chain) :=
  (Chain.new c.origin c.db.cleared).appendAll P now (c.storedBlocks k)

/-- The chain with another tip in its cache, and thus of another height. -/
def withTip (c : Chain) (tip : Option Block) : Chain := { c with lastBlock := tip }

/-- **The rules for the next block**, where those that read the height read that of `tip`. -/
structure KeepsRules (P : Platform) (now : UtcTime) (r : Chain) (tip : Option Block) (b : Block) :
    Prop where
  passed : Passed P now (r.withTip tip) b r.lastBlock
  timestamp : ∀ l, r.lastBlock = some l → ¬ b.timestamp < l.timestamp
  link : ∀ l, r.lastBlock = some l → b.prevBlockHash = l.hash
  signed : ∃ s, (r.withTip tip).signStage P b r.lastFullBlock = .ok (true, s)

/-- The next block is good exactly if it keeps the rules. -/
theorem checkBlock_withTip_good (hl : r.lastBlock = some l) (hnext : addU64 P.checks l.index 1 = .ok b.index)
    (hlt : l.index < b.index) :
    (∃ s, (r.withTip tip).checkBlock P now b r.lastBlock r.lastFullBlock = .ok (.good, s))
      ↔ r.KeepsRules P now tip b := by
  have hcompare : (r.withTip tip).compareWithTip b l = .good ↔ b.prevBlockHash = l.hash := by
    unfold compareWithTip
    rw [if_neg (UInt64.not_le.mpr hlt)]
    by_cases hne : b.prevBlockHash = l.hash <;> simp [hne]
  constructor
  · rintro ⟨s, h⟩
    obtain ⟨hpassed, hpos⟩ := (checkBlock_accepting accepting_good).mp h
    rw [hl, checkPosition_some accepting_good] at hpos
    obtain ⟨htime, -, hsign, hgood⟩ := hpos
    refine ⟨hpassed, ?_, ?_, s, hsign⟩
    · intro l' hl' hbefore
      rw [hl, Option.some.injEq] at hl'
      subst hl'
      exact htime ⟨hbefore, hlt⟩
    · intro l' hl'
      rw [hl, Option.some.injEq] at hl'
      subst hl'
      exact hcompare.mp hgood
  · rintro ⟨hpassed, htime, hlink, s, hsign⟩
    refine ⟨s, (checkBlock_accepting accepting_good).mpr ⟨hpassed, ?_⟩⟩
    rw [hl, checkPosition_some accepting_good]
    refine ⟨?_, ?_, hsign, hcompare.mpr (hlink l hl)⟩
    · rintro ⟨hbefore, -⟩
      exact htime l hl hbefore
    · exact ⟨b.index, hnext, UInt64.lt_irrefl _⟩

/-! ## The state of a replay -/

/-- A stored chain as it is opened at startup: the blocks from the origin block on. -/
structure Opened (c : Chain) (f : Ledger) : Prop where
  new : ∃ db, c = Chain.new c.origin db
  db : c.db.Represents f
  zero : f 0 = none
  first : ∃ g, f 1 = some g ∧ g.hash = c.origin
  plain : ∀ n x, f n = some x → x.collapse = x

/-- The chain that the first `k` blocks replay to. -/
structure Replayed (P : Platform) (c : Chain) (f : Ledger) (k : ℕ) (r : Chain) : Prop where
  settled : r.Settled P (f.truncate (k + 1))
  options : r.db.options = c.db.options
  origin : r.origin = c.origin
  zones : r.zones = c.zones
  height : r.getHeight.toNat = k
  mono : ∀ l, r.lastBlock = some l → ∀ n x, f n = some x → n ≤ k → x.timestamp.toInt ≤ l.timestamp.toInt

/-- A database that has been opened without being cleared is opened so again. -/
theorem Opened.new_cleared (hc : c.Opened f) : (Chain.new c.origin c.db.cleared).db = c.db.cleared := by
  obtain ⟨db, hdb⟩ := hc.new
  obtain ⟨g, hg, -⟩ := hc.first
  by_cases hforeign : ¬ c.origin.isZero ∧ db.options.origin ≠ "" ∧ toHex c.origin.data ≠ db.options.origin
  · -- nothing would be stored
    have hempty : c.db = Db.empty := by
      rw [hdb]
      exact if_pos hforeign
    have hr := hc.db
    rw [hempty] at hr
    rw [hr.eq_none_of_empty] at hg
    cases hg
  · have hsame : c.db = db := by
      rw [hdb]
      exact if_neg hforeign
    have hoptions : c.db.cleared.options = db.options := by rw [hsame]; rfl
    unfold Chain.new
    dsimp only
    rw [hoptions, if_neg hforeign]

theorem Opened.zones (hc : c.Opened f) : c.zones = loadZones := by
  obtain ⟨db, hdb⟩ := hc.new
  rw [hdb]
  rfl

theorem Opened.replayed_zero (hc : c.Opened f) :
    Replayed P c f 0 (Chain.new c.origin c.db.cleared) := by
  have hdb := hc.new_cleared
  have hledger : f.truncate 1 = fun _ => none := by
    funext n
    by_cases hn : n < 1
    · rw [Ledger.truncate_of_lt hn, show n = 0 by omega, hc.zero]
    · exact Ledger.truncate_of_le (by omega)
  have hnone : ∀ g : Ledger, (Chain.new c.origin c.db.cleared).db.Represents g → g = fun _ => none := by
    intro g hg
    funext n
    have hrow := hg.blocks n
    rw [hdb, show c.db.cleared.blocks.find? (n : ℤ) = none from rfl, eq_comm,
      Option.map_eq_none_iff] at hrow
    exact hrow
  have hclean : (Chain.new c.origin c.db.cleared).Clean (fun _ => none) := by
    obtain ⟨g, hg⟩ := Clean.of_new c.db.represents_cleared (fun n x hx => by cases hx) c.origin
    exact hnone g hg.db ▸ hg
  have hcached : (Chain.new c.origin c.db.cleared).Cached (fun _ => none) := by
    obtain ⟨g, hg⟩ := Cached.of_new c.db.represents_cleared c.origin
    exact hnone g hg.db ▸ hg
  have hlast : (Chain.new c.origin c.db.cleared).lastBlock = none := by
    rcases Option.eq_none_or_eq_some (Chain.new c.origin c.db.cleared).lastBlock with h | ⟨l, hl⟩
    · exact h
    · obtain ⟨a, ha, -⟩ := hcached.tip l hl
      cases ha
  refine ⟨?_, ?_, rfl, hc.zones.symm, ?_, ?_⟩
  · rw [hledger]
    exact ⟨hcached, hclean, rfl, fun hne => absurd rfl hne⟩
  · rw [hdb]
    rfl
  · rw [getHeight_of_none hlast]
    rfl
  · intro l hl
    rw [hlast] at hl
    cases hl

/-- Below the next block the replayed chain has the rows of the stored one. -/
theorem Replayed.agree {k : ℕ} (hr : Replayed P c f k r) (hc : c.Opened f) {i : UInt64}
    (hi : i.toNat = k + 1) (hlt : k + 1 < 2 ^ 63) : AgreeBelow i r c := by
  have htwice : (f.truncate (k + 1)).truncate (k + 1) = f.truncate (k + 1) := by
    funext n
    by_cases hn : n < k + 1
    · rw [Ledger.truncate_of_lt hn]
    · rw [Ledger.truncate_of_le (by omega), Ledger.truncate_of_le (by omega)]
  have hstored := hc.db.truncateFromBlock (i := i) (by omega)
  have hreplayed := hr.settled.db.truncateFromBlock (i := i) (by omega)
  rw [hi] at hstored hreplayed
  rw [htwice] at hreplayed
  exact hstored.eq hreplayed hr.options.symm

/-- It has exactly those rows. -/
theorem Replayed.db_eq {k : ℕ} (hr : Replayed P c f k r) (hc : c.Opened f) {i : UInt64}
    (hi : i.toNat = k + 1) (hlt : k + 1 < 2 ^ 63) : r.db = c.db.truncateFromBlock i := by
  have hstored := hc.db.truncateFromBlock (i := i) (by omega)
  rw [hi] at hstored
  exact hr.settled.db.eq hstored hr.options

theorem truncate_put_succ {k : ℕ} (hb : f (k + 1) = some b) (hindex : b.index.toNat = k + 1) :
    (f.truncate (k + 1)).put b = f.truncate (k + 2) := by
  funext n
  by_cases hn : n = k + 1
  · rw [hn, Ledger.truncate_of_lt (by omega), hb, ← hindex, Ledger.put_self]
  · rw [Ledger.put_of_ne (by omega)]
    by_cases hlt : n < k + 1
    · rw [Ledger.truncate_of_lt hlt, Ledger.truncate_of_lt (by omega)]
    · rw [Ledger.truncate_of_le (by omega), Ledger.truncate_of_le (by omega)]

/-- **The next block of a replay.**  A good block is stored: there is room for it. -/
theorem Replayed.step {k : ℕ} (hr : Replayed P c f k r) (hc : c.Opened f) (hb : f (k + 1) = some b)
    (hgood : r.checkNewBlock P now b = .ok (.good, s))
    (hadd : { r with signers := s }.addBlock b = .ok r') :
    Replayed P c f (k + 1) r' ∧ { r with signers := s }.Added b r' := by
  have hindex : b.index.toNat = k + 1 := hc.db.index _ _ hb
  have hbound := hc.db.le_maxRows (show (f (k + 1)).isSome by rw [hb]; rfl)
  have hmax := maxRows_lt
  have hne : b.index ≠ 0 := by
    intro h
    rw [h] at hindex
    cases hindex
  have hfree : f.truncate (k + 1) b.index.toNat = none := Ledger.truncate_of_le (by omega)
  rcases append_ledger hr.settled.toGrounded hgood hadd with ⟨-, hfail⟩ | ⟨-, hg', hadded⟩
  · -- the stored chain has one row more
    have hrow : c.db.blocks.find? (asI64 b.index) = some (BlockRow.ofBlock b) := by
      rw [hc.db.find?_asI64, hindex, hb, Option.map_some]
    have hroom := length_deleteFrom_lt hrow
    have hfull := full_of_addBlockToTable hr.settled.db hfree hfail
    rw [hr.db_eq hc hindex (by omega)] at hfull
    have hlen : (c.db.blocks.deleteFrom (asI64 b.index)).rows.length = maxRows := hfull
    omega
  · have hagree : AgreeBelow b.index r r' :=
      addBlock_truncateFromBlock (c := { r with signers := s }) hadd le_rfl
    have hsettled := hr.settled.put hne hgood hfree hg' hadded hagree
    rw [truncate_put_succ hb hindex] at hsettled
    refine ⟨⟨hsettled, (addBlock_options hadd).trans hr.options, hadded.origin.trans hr.origin,
      hadded.zones.trans hr.zones, ?_, ?_⟩, hadded⟩
    · rw [getHeight_of_some hadded.lastBlock, hindex]
    · intro l hl n x hx hn
      rw [hadded.lastBlock, Option.some.injEq] at hl
      subst hl
      by_cases hlast : n = k + 1
      · rw [hlast, hb, Option.some.injEq] at hx
        rw [hx]
      · -- the block is not older than the tip, and no block below is younger than that
        have hx' : f.truncate (k + 1) n = some x := by
          rw [Ledger.truncate_of_lt (by omega), hx]
        obtain ⟨l, hl⟩ := hr.settled.exists_tip hx'
        have hpos := ((checkBlock_accepting accepting_good).mp hgood).2
        rw [hl, checkPosition_some accepting_good] at hpos
        have hheight := hr.height
        rw [getHeight_of_some hl] at hheight
        have hle : l.timestamp.toInt ≤ b.timestamp.toInt := by
          by_contra hlt
          exact hpos.1 ⟨Int64.lt_iff_toInt_lt.mpr (by omega), UInt64.lt_iff_toNat_lt.mpr (by omega)⟩
        exact (hr.mono l hl n x hx (by omega)).trans hle

/-- A good block of the stored chain can be appended. -/
theorem Replayed.exists_addBlock {k : ℕ} (hr : Replayed P c f k r) (hc : c.Opened f)
    (hb : f (k + 1) = some b) (hgood : r.checkNewBlock P now b = .ok (.good, s)) :
    ∃ r', { r with signers := s }.addBlock b = .ok r' := by
  have hindex : b.index.toNat = k + 1 := hc.db.index _ _ hb
  have hbound := hc.db.le_maxRows (show (f (k + 1)).isSome by rw [hb]; rfl)
  have hmax := maxRows_lt
  have hdb := hr.db_eq hc hindex (by omega)
  unfold addBlock
  cases htable : r.db.addBlockToTable b with
  | none => exact ⟨_, rfl⟩
  | some db =>
    dsimp only
    cases ht : b.transaction with
    | none => exact ⟨_, rfl⟩
    | some t =>
      have hpassed := ((checkBlock_accepting accepting_good).mp hgood).1
      have howned : (ownedTransaction b.pubKey t).class' = t.class' := by
        unfold ownedTransaction
        split
        · rfl
        · rfl
      have hdomains : db.domains = c.db.domains.deleteFrom (asI64 b.index) := by
        obtain ⟨blocks, -, rfl⟩ := Option.map_eq_some_iff.mp htable
        show r.db.domains = _
        rw [hdb]
        rfl
      have hrow : ∃ db', db.addTransactionToTable b.index b.timestamp (ownedTransaction b.pubKey t)
          = some db' := by
        unfold Db.addTransactionToTable
        rw [howned]
        rcases hpassed.class_eq ht with hclass | hclass
        · -- the stored chain has this row, so there is room for it
          have hstored : c.db.domains.find? (asI64 b.index) = b.domainRow? := by
            rw [asI64_of_lt (by omega), hc.db.domains, hindex, hb, Option.bind_some]
          rw [Block.domainRow?, ht, Option.bind_some, if_pos hclass] at hstored
          have hfree : db.domains.find? (asI64 b.index) = none := by
            rw [hdomains, Table.find?_deleteFrom, if_neg (lt_irrefl _)]
          have hroom : db.domains.rows.length < maxRows := by
            rw [hdomains]
            exact length_deleteFrom_lt hstored
          have hinsert := (Table.insert?_isSome (a := DomainRow.ofTransaction b.timestamp
            (ownedTransaction b.pubKey t))).mpr ⟨hfree, hroom⟩
          obtain ⟨domains, hdomains'⟩ := Option.isSome_iff_exists.mp hinsert
          rw [if_pos hclass, hdomains']
          exact ⟨_, rfl⟩
        · have hnot : t.class' ≠ classDomain := by
            rw [hclass]
            decide
          rw [if_neg hnot, if_pos hclass]
          exact ⟨_, rfl⟩
      obtain ⟨db', hdb'⟩ := hrow
      dsimp only
      rw [hdb']
      exact ⟨_, rfl⟩

/-! ## Rules that read the height -/

/-- The first component of a result that is known. -/
theorem map_fst_eq_ok {α β : Type} {x : Exec (α × β)} {a : α} :
    x.map Prod.fst = .ok a ↔ ∃ b, x = .ok (a, b) := by
  cases x with
  | error e => simp [Except.map]
  | ok r =>
    obtain ⟨a', b'⟩ := r
    simp [Except.map]

/-- Two chains that agree below a full block, both with valid memos, give it the same signers. -/
theorem getBlockSigners_fst {f' : Ledger} {x x' : Block} (hv : SignersValid P c f)
    (hv' : SignersValid P c' f') (hx : f.StoredAs full x) (hx' : f'.StoredAs full x')
    (hheight : full.index ≤ c.getHeight) (hheight' : full.index ≤ c'.getHeight)
    (hsome : full.transaction.isSome) (hagree : AgreeBelow full.index c c')
    (hbound : full.index.toNat < 2 ^ 63) :
    (c'.getBlockSigners P full).map Prod.fst = (c.getBlockSigners P full).map Prod.fst := by
  by_cases hstart : blockSignersStart ≤ full.index
  · rw [hv.getBlockSigners hx hstart hheight hsome, hv'.getBlockSigners hx' hstart hheight' hsome,
      hagree.selectSigners hstart hbound]
  · have hearly : full.index < blockSignersStart := UInt64.not_le.mp hstart
    rw [getBlockSigners_eq, getBlockSigners_eq, if_pos (Or.inl hearly), if_pos (Or.inl hearly)]
    rfl

/-- Then they agree on whether a block above it is signed well. -/
theorem isGoodSignerForBlock_fst
    (hsigners : (c'.getBlockSigners P full).map Prod.fst = (c.getBlockSigners P full).map Prod.fst)
    (hagree : AgreeBelow b.index c c') (hlt : full.index < b.index) (hbound : b.index.toNat < 2 ^ 63) :
    (c'.isGoodSignerForBlock P b full).map Prod.fst = (c.isGoodSignerForBlock P b full).map Prod.fst := by
  have hlt' := UInt64.lt_iff_toNat_lt.mp hlt
  have hnext : full.index.toNat + 1 < 2 ^ 64 := by omega
  have hsigned : c'.alreadySigned b.pubKey (b.index.toNat - (full.index + 1).toNat) (full.index + 1)
      = c.alreadySigned b.pubKey (b.index.toNat - (full.index + 1).toNat) (full.index + 1) := by
    apply hagree.alreadySigned hbound
    rw [toNat_add_one hnext]
    omega
  unfold isGoodSignerForBlock
  cases hget : c.getBlockSigners P full with
  | error e =>
    rw [hget] at hsigners
    cases hget' : c'.getBlockSigners P full with
    | error e' =>
      rw [hget'] at hsigners
      cases hsigners
      rfl
    | ok r' =>
      rw [hget'] at hsigners
      cases hsigners
  | ok r =>
    rw [hget] at hsigners
    obtain ⟨cache, hget'⟩ := map_fst_eq_ok.mp hsigners
    rw [hget', ok_bind, ok_bind]
    dsimp only
    by_cases hmem : b.pubKey ∉ r.1
    · rw [if_pos hmem, if_pos hmem]
      rfl
    · rw [if_neg hmem, if_neg hmem, addU64_one hnext, ok_bind, ok_bind, hsigned]
      cases c.alreadySigned b.pubKey (b.index.toNat - (full.index + 1).toNat) (full.index + 1) with
      | error e => rfl
      | ok signed => rfl

/-- Another tip does not make the memo invalid. -/
theorem SignersValid.withTip (hv : SignersValid P r f) (tip : Option Block) :
    SignersValid P (r.withTip tip) f := by
  intro hne
  obtain ⟨x, hx, hstart, hselect⟩ := hv hne
  refine ⟨x, hx, hstart, ?_⟩
  have hsame : (r.withTip tip).selectSigners P x = r.selectSigners P x := by
    apply selectSigners_of_db
    rfl
  rw [hsame, hselect]
  rfl

/-- A domain gets its discount at the height of `tip` and not at its own. -/
def DiscountGap (r : Chain) (tip : Option Block) (b : Block) : Prop :=
  b.transaction.isSome ∧ r.getHeight < blocksWithoutDiscount
    ∧ blocksWithoutDiscount ≤ (r.withTip tip).getHeight

/-- A signing block is asked for its signer at its own height and not at that of `tip`. -/
def SignerGap (r : Chain) (tip : Option Block) (b : Block) : Prop :=
  b.transaction = none ∧ blockSignersStart < b.index ∧ ∃ full, r.lastFullBlock = some full
    ∧ r.getHeight.toNat - full.index.toNat < blockSignersAll
    ∧ blockSignersAll ≤ (r.withTip tip).getHeight.toNat - full.index.toNat

theorem checkDeclaredDifficulty_withTip (hle : r.getHeight ≤ (r.withTip tip).getHeight)
    (hgap : ¬ r.DiscountGap tip b) :
    r.checkDeclaredDifficulty P b = (r.withTip tip).checkDeclaredDifficulty P b := by
  unfold checkDeclaredDifficulty neededDifficulty
  cases ht : b.transaction with
  | none => rfl
  | some t =>
    have hside : r.getHeight < blocksWithoutDiscount
        ↔ (r.withTip tip).getHeight < blocksWithoutDiscount := by
      refine ⟨fun hlow => ?_, fun hlow => UInt64.lt_of_le_of_lt hle hlow⟩
      by_contra hhigh
      exact hgap ⟨by rw [ht]; rfl, hlow, UInt64.not_lt.mp hhigh⟩
    have hdiscount : r.getIdentityDiscount P t.identity false b.index b.timestamp
        = (r.withTip tip).getIdentityDiscount P t.identity false b.index b.timestamp := by
      unfold getIdentityDiscount
      simp only [hside]
      rfl
    unfold getDifficultyForTransaction
    simp only [hdiscount]

/-- Away from the gap the signing rule does not depend on the height. -/
theorem Replayed.signStage_withTip {k : ℕ} (hr : Replayed P c f k r) (hindex : b.index.toNat = k + 1)
    (hbound : k + 1 < 2 ^ 63) (htip : k ≤ (r.withTip tip).getHeight.toNat)
    (hgap : ¬ r.SignerGap tip b) :
    ((r.withTip tip).signStage P b r.lastFullBlock).map Prod.fst
      = (r.signStage P b r.lastFullBlock).map Prod.fst := by
  by_cases hstart : blockSignersStart < b.index
  swap
  · rw [signStage, signStage, if_neg hstart, if_neg hstart]
    rfl
  cases htx : b.transaction with
  | some t =>
    rw [signStage, signStage, if_pos hstart, if_pos hstart]
    unfold isGoodSignBlock
    rw [htx]
    rfl
  | none =>
    rcases Option.eq_none_or_eq_some r.lastFullBlock with hfull | ⟨full, hfull⟩
    · rw [hfull, signStage, signStage, if_pos hstart, if_pos hstart]
      unfold isGoodSignBlock
      rw [htx]
      rfl
    · have hle := hr.settled.index_le hfull
      have hleNat := UInt64.le_iff_toNat_le.mp hle
      rw [hr.height] at hleNat
      have hle' : full.index ≤ (r.withTip tip).getHeight :=
        UInt64.le_iff_toNat_le.mpr (hleNat.trans htip)
      rw [hfull, signStage_eq htx hstart hle', signStage_eq htx hstart hle]
      by_cases hfew : (r.withTip tip).getHeight.toNat - full.index.toNat < blockSignersAll
      · have hheight := hr.height
        obtain ⟨x, hx, hsome⟩ := hr.settled.stored_full hfull
        have hsigners := getBlockSigners_fst hr.settled.signers (hr.settled.signers.withTip tip) hx hx
          hle hle' hsome rfl (by omega)
        rw [if_pos hfew, if_pos (by omega)]
        exact isGoodSignerForBlock_fst hsigners rfl (UInt64.lt_iff_toNat_lt.mpr (by omega)) (by omega)
      · have hmany : ¬ r.getHeight.toNat - full.index.toNat < blockSignersAll := by
          intro hown
          exact hgap ⟨htx, hstart, full, hfull, hown, Nat.le_of_not_lt hfew⟩
        rw [if_neg hfew, if_neg hmany]
        rfl

/-- In the gap every signer will do. -/
theorem SignerGap.signStage (hgap : r.SignerGap tip b) :
    ∃ s, (r.withTip tip).signStage P b r.lastFullBlock = .ok (true, s) := by
  obtain ⟨htx, hstart, full, hfull, -, hmany⟩ := hgap
  have hle : full.index ≤ (r.withTip tip).getHeight := by
    have hall : blockSignersAll = 7 := rfl
    rw [UInt64.le_iff_toNat_le]
    omega
  rw [hfull, signStage_eq htx hstart hle, if_neg (Nat.not_lt.mpr hmany)]
  exact ⟨_, rfl⟩

/-- The signing rule does not get stricter with the height. -/
theorem Replayed.signStage_later {k : ℕ} (hr : Replayed P c f k r) (hindex : b.index.toNat = k + 1)
    (hbound : k + 1 < 2 ^ 63) (htip : k ≤ (r.withTip tip).getHeight.toNat)
    (h : ∃ s, r.signStage P b r.lastFullBlock = .ok (true, s)) :
    ∃ s, (r.withTip tip).signStage P b r.lastFullBlock = .ok (true, s) := by
  by_cases hgap : r.SignerGap tip b
  · exact hgap.signStage
  · rw [← map_fst_eq_ok] at h ⊢
    rw [hr.signStage_withTip hindex hbound htip hgap, h]

/-- The registrations below the next block are not younger than the tip. -/
theorem Replayed.domainById_timestamp {k : ℕ} (hr : Replayed P c f k r) (hl : r.lastBlock = some l)
    {identity : Bytes} {height : UInt64} {i : ℤ} {row : DomainRow}
    (hrow : r.db.domainById identity height = some (i, row)) :
    row.timestamp.toInt ≤ l.timestamp.toInt := by
  obtain ⟨n, x, -, hx, hdomain⟩ :=
    hr.settled.db.exists_of_find?_domains (Table.lastWhere?_eq_some.mp hrow).1
  obtain ⟨hn, hx⟩ := Ledger.truncate_eq_some hx
  obtain ⟨t, -, ht⟩ := Option.bind_eq_some_iff.mp hdomain
  split at ht
  · cases ht
    exact hr.mono l hl n x hx (by omega)
  · cases ht

/-- **Height makes the rules more lenient.**  What keeps them at its own height does so at every
greater one. -/
theorem Replayed.keepsRules_later {k : ℕ} (hr : Replayed P c f k r) (hl : r.lastBlock = some l)
    (hindex : b.index.toNat = k + 1) (hbound : k + 1 < 2 ^ 63)
    (htip : k ≤ (r.withTip tip).getHeight.toNat) (h : r.KeepsRules P now r.lastBlock b) :
    r.KeepsRules P now tip b := by
  have hp := h.passed
  have hagree : AgreeBelow b.index r (r.withTip tip) := rfl
  have hparent : (r.withTip tip).checkParent P b = .ok none :=
    hagree.checkParent (by omega) (by omega) hp.parent
  have hdifficulty : (r.withTip tip).checkDeclaredDifficulty P b = .ok none := by
    refine checkDeclaredDifficulty_later hagree ?_ ?_ hp.declaredDifficulty
    · rw [UInt64.le_iff_toNat_le, hr.height]
      exact htip
    · intro t i row _ hrow
      have htime := h.timestamp l hl
      rw [Int64.lt_iff_toInt_lt] at htime
      have := hr.domainById_timestamp hl hrow
      omega
  exact ⟨⟨hp.version, hp.wrongHash, hp.clock, hp.ahead, hdifficulty, hp.hashDifficulty, hp.hash,
    hp.signature, hparent, hp.transaction⟩, h.timestamp, h.link,
    hr.signStage_later hindex hbound htip h.signed⟩

/-- **What the check at startup can keep beyond a replay**: a block that owes its discount, or
the silence about its signer, to the blocks above it. -/
theorem Replayed.gap {k : ℕ} (hr : Replayed P c f k r) (hindex : b.index.toNat = k + 1)
    (hbound : k + 1 < 2 ^ 63) (htip : k ≤ (r.withTip tip).getHeight.toNat)
    (h : r.KeepsRules P now tip b) (hnot : ¬ r.KeepsRules P now r.lastBlock b) :
    r.DiscountGap tip b ∨ r.SignerGap tip b := by
  by_contra hgap
  rw [not_or] at hgap
  have hp := h.passed
  have hagree : AgreeBelow b.index (r.withTip tip) r := rfl
  have hle : r.getHeight ≤ (r.withTip tip).getHeight := by
    rw [UInt64.le_iff_toNat_le, hr.height]
    exact htip
  have hsigned := h.signed
  refine hnot ⟨⟨hp.version, hp.wrongHash, hp.clock, hp.ahead, ?_, hp.hashDifficulty, hp.hash,
    hp.signature, ?_, hp.transaction⟩, h.timestamp, h.link, ?_⟩
  · exact (checkDeclaredDifficulty_withTip hle hgap.1).trans hp.declaredDifficulty
  · exact hagree.checkParent (by omega) (by omega) hp.parent
  · rw [← map_fst_eq_ok, hr.signStage_withTip hindex hbound htip hgap.2] at hsigned
    exact map_fst_eq_ok.mp hsigned

end Chain
