/-
# The check at startup against a replay

`check_chain(u64::MAX)` judges all stored blocks again, in order.  A replay does the same from
empty tables: every block is judged by the chain of its predecessors and then appended.  In the
check at startup the tables already hold the later blocks, and the cached tip is the last block
of all.  The statements only look below the block that is judged; what differs are the two rules
that read the height.  Thus the check at startup keeps what replays, and may keep more.

The origin block is not judged at all at startup, and the rows of `domains` are those of the
blocks as they once arrived, not as they are read back.
-/
import Ruvname.Replay

open Exec

namespace Chain

variable {P : Platform} {now : UtcTime} {c c' r r' : Chain} {b l full : Block} {f : Ledger}
  {s : SignersCache} {tip : Option Block}

/-- **What the check at startup is for.**  It keeps the longest prefix that replays. -/
def KeepsReplayed (P : Platform) (now : UtcTime) (c : Chain) : Prop :=
  ∃ c' k, c.checkChain P (fun _ => now) 18446744073709551615 = .ok c'
    ∧ IsGreatest {k | k ≤ c.getHeight.toNat ∧ ∃ r, c.replay P now k = .ok (some r)} k
    ∧ c'.getHeight.toNat = k ∧ c'.db = c.db.truncateFromBlock (UInt64.ofNat (k + 1))

/-- The rows of `domains` are those of the blocks as they are read. -/
def RowsAgree (c : Chain) : Prop :=
  ∀ i b, c.getBlock i = some b → c.db.domains.find? (asI64 i) = b.domainRow?

/-! ## The loop and the replay side by side -/

theorem Opened.cached (hc : c.Opened f) : c.Cached f := by
  obtain ⟨db, hdb⟩ := hc.new
  have hr := hc.db
  rw [hdb] at hr ⊢
  exact Cached.of_opened hr

/-- The loop of `check_chain` after the block `k`, next to the replay of the blocks `1..k`.  The
origin block is not noted as a full block by the loop. -/
structure Follows (P : Platform) (c : Chain) (f : Ledger) (k : ℕ) (cl : Chain)
    (last lastFull : Option Block) (r : Chain) : Prop where
  replayed : Replayed P c f k r
  db : cl.db = c.db
  origin : cl.origin = c.origin
  zones : cl.zones = c.zones
  lastBlock : cl.lastBlock = c.lastBlock
  last : last = r.lastBlock
  full : (lastFull = none ∧ cl.lastFullBlock = c.lastFullBlock
      ∧ ∀ full, r.lastFullBlock = some full → full.index = 1)
    ∨ ∃ full, lastFull = some full ∧ cl.lastFullBlock = some full ∧ r.lastFullBlock = some full
  signers : SignersValid P cl f

namespace Follows

variable {k : ℕ} {cl : Chain} {last lastFull : Option Block}

theorem agree (hf : Follows P c f k cl last lastFull r) (hc : c.Opened f) {i : UInt64}
    (hi : i.toNat = k + 1) (hlt : k + 1 < 2 ^ 63) : AgreeBelow i r cl := by
  have h := hf.replayed.agree hc hi hlt
  unfold AgreeBelow at h ⊢
  rw [hf.db, h]

/-- The full block that the loop has noted is a stored one. -/
theorem stored (hf : Follows P c f k cl last lastFull r) :
    ∀ full, lastFull = some full → ∃ x, f.StoredAs full x := by
  intro full hfull
  rcases hf.full with ⟨hnone, -⟩ | ⟨full', hsome, -, hr⟩
  · rw [hnone] at hfull
    cases hfull
  · rw [hsome, Option.some.injEq] at hfull
    subst hfull
    obtain ⟨x, ⟨hx, hrest⟩, -⟩ := hf.replayed.settled.stored_full hr
    exact ⟨x, (Ledger.truncate_eq_some hx).2, hrest⟩

/-- The cache of the loop answers like the table below the next block. -/
theorem getLastFullBlock_timestamp (hf : Follows P c f k cl last lastFull r) (hc : c.Opened f)
    {i : UInt64} (hi : i.toNat = k + 1) (hlt : k + 1 < 2 ^ 63) (key : Bytes) :
    (cl.getLastFullBlock i (some key)).map Block.timestamp
      = (r.getLastFullBlock i (some key)).map Block.timestamp := by
  have hrepresents : cl.db.Represents f := hf.db ▸ hc.db
  rw [hf.replayed.settled.getLastFullBlock_timestamp (by omega),
    Chain.getLastFullBlock_timestamp hrepresents (by omega),
    (hf.agree hc hi hlt).lastFullBlock le_rfl]
  intro full hfull hbelow
  rw [hi]
  rcases hf.full with ⟨-, hcache, -⟩ | ⟨full', -, hcache, hr⟩
  · -- the last full block of all, if it lies below
    have hlast := hc.cached.full
    rw [← hcache, hfull] at hlast
    apply hlast.truncate
    intro full' hfull'
    cases hfull'
    rw [← hi]
    exact UInt64.lt_iff_toNat_lt.mp hbelow
  · rw [hcache, Option.some.injEq] at hfull
    subst hfull
    have hlast := hf.replayed.settled.full
    rw [hr] at hlast
    exact hlast

/-- The loop and the replay are at the height of the stored chain. -/
theorem getHeight (hf : Follows P c f k cl last lastFull r) :
    cl.getHeight = (r.withTip c.lastBlock).getHeight := by
  unfold Chain.getHeight
  rw [hf.lastBlock]
  rfl

/-- They ask for the same difficulty. -/
theorem checkDeclaredDifficulty (hf : Follows P c f k cl last lastFull r) (hc : c.Opened f)
    (hindex : b.index.toNat = k + 1) (hbound : k + 1 < 2 ^ 63) :
    cl.checkDeclaredDifficulty P b = (r.withTip c.lastBlock).checkDeclaredDifficulty P b := by
  have hagree : AgreeBelow b.index (r.withTip c.lastBlock) cl := hf.agree hc hindex hbound
  have hdiscount : ∀ t : Transaction, cl.getIdentityDiscount P t.identity false b.index b.timestamp
      = (r.withTip c.lastBlock).getIdentityDiscount P t.identity false b.index b.timestamp := by
    intro t
    unfold getIdentityDiscount
    rw [hagree.getDomainUpdateTime, hf.getHeight]
  unfold Chain.checkDeclaredDifficulty neededDifficulty getDifficultyForTransaction
  simp only [hdiscount]

theorem checkParent (hf : Follows P c f k cl last lastFull r) (hc : c.Opened f)
    (hindex : b.index.toNat = k + 1) (hbound : k + 1 < 2 ^ 63) :
    cl.checkParent P b = (r.withTip c.lastBlock).checkParent P b := by
  have hagree : AgreeBelow b.index (r.withTip c.lastBlock) cl := hf.agree hc hindex hbound
  have hone : 1 ≤ b.index.toNat := by omega
  have hpred : asI64 (b.index - 1) < asI64 b.index :=
    asI64_lt_asI64 (by omega) (by rw [toNat_sub_one hone]; omega)
  unfold Chain.checkParent
  rw [subU64_one hone, ok_bind, ok_bind, hagree.getBlock hpred, hf.getHeight]

theorem checkTransaction (hf : Follows P c f k cl last lastFull r) (hc : c.Opened f)
    (hindex : b.index.toNat = k + 1) (hbound : k + 1 < 2 ^ 63) :
    cl.checkTransaction P now b = (r.withTip c.lastBlock).checkTransaction P now b := by
  have hagree : AgreeBelow b.index (r.withTip c.lastBlock) cl := hf.agree hc hindex hbound
  have hzones : cl.zones = (r.withTip c.lastBlock).zones := hf.zones.trans hf.replayed.zones.symm
  unfold Chain.checkTransaction
  cases b.transaction with
  | none => rfl
  | some t =>
    dsimp only
    rw [hagree.checkIdentity (by omega) (by omega), AgreeBelow.checkRecords hzones,
      checkCooldown_congr hagree (hf.getLastFullBlock_timestamp hc hindex hbound b.pubKey)]

/-- They test the signature in the same way.  Where only the replay knows the origin block as a
full one, that block has enough blocks on top. -/
theorem signStage (hf : Follows P c f k cl last lastFull r) (hc : c.Opened f)
    (hindex : b.index.toNat = k + 1) (hbound : k + 1 < 2 ^ 63) (htop : k + 1 ≤ c.getHeight.toNat) :
    (cl.signStage P b lastFull).map Prod.fst
      = ((r.withTip c.lastBlock).signStage P b r.lastFullBlock).map Prod.fst := by
  have hagree : AgreeBelow b.index (r.withTip c.lastBlock) cl := hf.agree hc hindex hbound
  have hheight : (r.withTip c.lastBlock).getHeight.toNat = c.getHeight.toNat := rfl
  by_cases hstart : blockSignersStart < b.index
  swap
  · rw [Chain.signStage, Chain.signStage, if_neg hstart, if_neg hstart]
    rfl
  cases htx : b.transaction with
  | some t =>
    rw [Chain.signStage, Chain.signStage, if_pos hstart, if_pos hstart]
    unfold isGoodSignBlock
    rw [htx]
    rfl
  | none =>
    -- without a full block there is nothing to sign
    have hnoFull : ∀ c : Chain, (c.signStage P b none).map Prod.fst = .ok true := by
      intro c
      rw [Chain.signStage, if_pos hstart]
      unfold isGoodSignBlock
      rw [htx]
      rfl
    rcases hf.full with ⟨hnone, -, horigin⟩ | ⟨full, hsome, -, hr⟩
    · rw [hnone, hnoFull]
      cases hr : r.lastFullBlock with
      | none => rw [hnoFull]
      | some full =>
        -- only the replay has the origin block, which is signed by now
        have hone := horigin full hr
        have hstart' : blockSignersStart.toNat < b.index.toNat := UInt64.lt_iff_toNat_lt.mp hstart
        have hmany : blockSignersStart.toNat = 35 := by decide
        have hall : blockSignersAll = 7 := rfl
        rw [signStage_eq htx hstart, if_neg]
        · rfl
        · rw [hone, one_toNat]
          omega
        · rw [hone, UInt64.le_iff_toNat_le, one_toNat]
          omega
    · -- both have the same full block, and agree on all that is below it
      obtain ⟨x, hx, hfull⟩ := hf.replayed.settled.stored_full hr
      obtain ⟨y, hy⟩ := hf.stored full hsome
      have hle : full.index.toNat ≤ k := by
        have := UInt64.le_iff_toNat_le.mp (hf.replayed.settled.index_le hr)
        rw [hf.replayed.height] at this
        exact this
      have hle' : full.index ≤ (r.withTip c.lastBlock).getHeight :=
        UInt64.le_iff_toNat_le.mpr (by omega)
      have hbelow : AgreeBelow full.index (r.withTip c.lastBlock) cl :=
        hagree.below (by omega) (by omega)
      have hsigners := getBlockSigners_fst (hf.replayed.settled.signers.withTip c.lastBlock)
        hf.signers hx hy hle' (hf.getHeight ▸ hle') hfull hbelow (by omega)
      have hsame := isGoodSignerForBlock_fst hsigners hagree
        (UInt64.lt_iff_toNat_lt.mpr (by omega)) (by omega)
      rw [hsome, hr, signStage_eq htx hstart hle', signStage_eq htx hstart (hf.getHeight ▸ hle'),
        hf.getHeight]
      split
      · exact hsame
      · rfl

/-- **The loop and the replay at the final height judge the next block alike.** -/
theorem checkBlock (now : UtcTime) (hf : Follows P c f k cl last lastFull r) (hc : c.Opened f)
    (hl : r.lastBlock = some l) (hindex : b.index.toNat = k + 1) (hbound : k + 1 < 2 ^ 63)
    (htop : k + 1 ≤ c.getHeight.toNat) :
    (cl.checkBlock P now b last lastFull).map Prod.fst
      = ((r.withTip c.lastBlock).checkBlock P now b r.lastBlock r.lastFullBlock).map Prod.fst := by
  have hchecks : cl.checks P now b last = (r.withTip c.lastBlock).checks P now b r.lastBlock := by
    unfold Chain.checks
    rw [hf.last, hf.checkDeclaredDifficulty hc hindex hbound, hf.checkParent hc hindex hbound,
      hf.checkTransaction hc hindex hbound]
  have hheight := hf.replayed.height
  rw [getHeight_of_some hl] at hheight
  have habove : ¬ b.index ≤ l.index := by
    rw [UInt64.le_iff_toNat_le]
    omega
  have hcompare : cl.compareWithTip b l = (r.withTip c.lastBlock).compareWithTip b l := by
    unfold compareWithTip
    rw [if_neg habove, if_neg habove]
  have hsign := hf.signStage hc hindex hbound htop
  have hposition : (cl.checkPosition P b last lastFull).map Prod.fst
      = ((r.withTip c.lastBlock).checkPosition P b r.lastBlock r.lastFullBlock).map Prod.fst := by
    rw [hf.last, hl]
    unfold checkPosition
    dsimp only
    split
    · rfl
    · cases addU64 P.checks l.index 1 with
      | error e => rfl
      | ok next =>
        rw [ok_bind, ok_bind]
        split
        · rfl
        · cases hown : (r.withTip c.lastBlock).signStage P b r.lastFullBlock with
          | error e =>
            rw [hown] at hsign
            cases hloop : cl.signStage P b lastFull with
            | error e' =>
              rw [hloop] at hsign
              cases hsign
              rfl
            | ok q =>
              rw [hloop] at hsign
              cases hsign
          | ok q =>
            rw [hown] at hsign
            obtain ⟨cache, hloop⟩ := map_fst_eq_ok.mp hsign
            rw [hloop, hcompare]
            rfl
  unfold Chain.checkBlock
  rw [hchecks]
  cases firstVerdict ((r.withTip c.lastBlock).checks P now b r.lastBlock) with
  | error e => rfl
  | ok verdict =>
    cases verdict with
    | some q => rfl
    | none => exact hposition

/-- One iteration of the loop at a block other than the first one. -/
theorem checkLoop_succ (now : UtcTime) (hf : Follows P c f k cl last lastFull r) (hc : c.Opened f)
    (hk : 1 ≤ k) (hb : f (k + 1) = some b) (n : ℕ) :
    checkLoop P (fun _ => now) (n + 1) (UInt64.ofNat (k + 1)) cl last lastFull
      = if b.hash ∈ wrongHashes then
          .ok ({ cl with db := cl.db.truncateFromBlock b.index }, some b.index)
        else cl.checkBlock P now b last lastFull >>= fun q =>
          if q.1 ≠ .good then
            .ok ({ cl with signers := q.2, db := cl.db.truncateFromBlock b.index }, some b.index)
          else if b.transaction.isSome then
            checkLoop P (fun _ => now) n (UInt64.ofNat (k + 2))
              { cl with signers := q.2, lastFullBlock := some b } (some b) (some b)
          else checkLoop P (fun _ => now) n (UInt64.ofNat (k + 2))
            { cl with signers := q.2 } (some b) lastFull := by
  have hindex : b.index.toNat = k + 1 := hc.db.index _ _ hb
  have hbound := hc.db.le_maxRows (show (f (k + 1)).isSome by rw [hb]; rfl)
  have hmax := maxRows_lt
  have hid : (UInt64.ofNat (k + 1)).toNat = k + 1 :=
    UInt64.toNat_ofNat_of_lt' (show k + 1 < 2 ^ 64 by omega)
  have hget : cl.getBlock (UInt64.ofNat (k + 1)) = some b := by
    rw [getBlock, hf.db, hc.db.getBlock, hid, hb, Option.map_some, hc.plain _ _ hb]
  have hnot : b.index ≠ 1 := by
    intro h
    rw [h, one_toNat] at hindex
    omega
  have hnext : UInt64.ofNat (k + 1) + 1 = UInt64.ofNat (k + 2) := by
    apply UInt64.toNat_inj.mp
    rw [toNat_add_one (by rw [hid]; omega), hid,
      UInt64.toNat_ofNat_of_lt' (show k + 2 < 2 ^ 64 by omega)]
  rw [checkLoop, hget]
  dsimp only
  rw [if_neg hnot, hnext]

/-- The tip of the replay. -/
theorem exists_tip (hr : Replayed P c f k r) (hk : 1 ≤ k) (hbound : k + 1 < 2 ^ 63)
    (hindex : b.index.toNat = k + 1) :
    ∃ l, r.lastBlock = some l ∧ addU64 P.checks l.index 1 = .ok b.index ∧ l.index < b.index := by
  have hheight := hr.height
  obtain ⟨l, hl, htip⟩ := exists_lastBlock (c := r) (by omega)
  rw [htip] at hheight
  refine ⟨l, hl, ?_, UInt64.lt_iff_toNat_lt.mpr (by omega)⟩
  rw [addU64_one (by omega), Except.ok.injEq]
  apply UInt64.toNat_inj.mp
  rw [toNat_add_one (by omega)]
  omega

/-- A block that the replay appends is passed by the loop. -/
theorem step (hf : Follows P c f k cl last lastFull r) (hc : c.Opened f) (hk : 1 ≤ k)
    (hb : f (k + 1) = some b) (htop : k + 1 ≤ c.getHeight.toNat)
    (hgood : r.checkNewBlock P now b = .ok (.good, s))
    (hadd : { r with signers := s }.addBlock b = .ok r') :
    ∃ cl' last' lastFull', Follows P c f (k + 1) cl' last' lastFull' r'
      ∧ ∀ n, checkLoop P (fun _ => now) (n + 1) (UInt64.ofNat (k + 1)) cl last lastFull
        = checkLoop P (fun _ => now) n (UInt64.ofNat (k + 2)) cl' last' lastFull' := by
  have hindex : b.index.toNat = k + 1 := hc.db.index _ _ hb
  have hmaxRows := hc.db.le_maxRows (show (f (k + 1)).isSome by rw [hb]; rfl)
  have hmax := maxRows_lt
  have hbound : k + 1 < 2 ^ 63 := by omega
  obtain ⟨l, hl, hnext, hlt⟩ := exists_tip hf.replayed hk hbound hindex
  have hkeeps : r.KeepsRules P now r.lastBlock b :=
    (checkBlock_withTip_good hl hnext hlt).mp ⟨s, hgood⟩
  have hlater : r.KeepsRules P now c.lastBlock b :=
    hf.replayed.keepsRules_later hl hindex hbound (show k ≤ c.getHeight.toNat by omega) hkeeps
  obtain ⟨s', hown⟩ := (checkBlock_withTip_good hl hnext hlt).mpr hlater
  have hsame := hf.checkBlock now hc hl hindex hbound htop
  rw [hown] at hsame
  obtain ⟨s'', hcheck⟩ := map_fst_eq_ok.mp hsame
  have hwrong : b.hash ∉ wrongHashes := by
    have := hkeeps.passed.wrongHash
    rwa [checkWrongHash, Except.ok.injEq, verdictIf_eq_none] at this
  have hvalid := hf.signers.memo_checkBlock hf.stored hcheck
  obtain ⟨hreplayed, hadded⟩ := hf.replayed.step hc hb hgood hadd
  have hloop := fun n => hf.checkLoop_succ now hc hk hb n
  simp only [if_neg hwrong, hcheck, ok_bind, ne_eq, not_true_eq_false, if_false] at hloop
  by_cases htx : b.transaction.isSome
  · simp only [if_pos htx] at hloop
    refine ⟨{ cl with signers := s'', lastFullBlock := some b }, some b, some b,
      ⟨hreplayed, hf.db, hf.origin, hf.zones, hf.lastBlock, hadded.lastBlock.symm, Or.inr ⟨b, rfl, rfl, ?_⟩,
      hvalid.congr rfl rfl⟩, hloop⟩
    rw [hadded.lastFullBlock, if_pos htx]
  · simp only [if_neg htx] at hloop
    have hkept : r'.lastFullBlock = r.lastFullBlock := by
      rw [hadded.lastFullBlock, if_neg htx]
    refine ⟨{ cl with signers := s'' }, some b, lastFull, ⟨hreplayed, hf.db, hf.origin, hf.zones,
      hf.lastBlock, hadded.lastBlock.symm, ?_, hvalid⟩, hloop⟩
    rw [hkept]
    exact hf.full

end Follows

/-! ## The replay, block by block -/

theorem appendAll_append (xs ys : List Block) (c : Chain) :
    c.appendAll P now (xs ++ ys) = c.appendAll P now xs >>= fun o =>
      match o with
      | none => .ok none
      | some c' => c'.appendAll P now ys := by
  induction xs generalizing c with
  | nil => rfl
  | cons x xs ih =>
    rw [List.cons_append, appendAll, appendAll, bind_assoc]
    congr 1
    funext q
    dsimp only
    split
    · rw [bind_assoc]
      congr 1
      funext c'
      exact ih c'
    · rfl

theorem storedBlocks_succ {k : ℕ} (hb : c.getBlock (UInt64.ofNat (k + 1)) = some b) :
    c.storedBlocks (k + 1) = c.storedBlocks k ++ [b] := by
  unfold storedBlocks
  rw [List.range_succ, List.filterMap_append]
  congr 1
  rw [List.filterMap_cons, hb]
  rfl

/-- One block more. -/
theorem replay_succ {k : ℕ} (hb : c.getBlock (UInt64.ofNat (k + 1)) = some b) :
    c.replay P now (k + 1) = .ok (some r') ↔ ∃ r s, c.replay P now k = .ok (some r)
      ∧ r.checkNewBlock P now b = .ok (.good, s) ∧ { r with signers := s }.addBlock b = .ok r' := by
  unfold replay
  rw [storedBlocks_succ hb, appendAll_append]
  constructor
  · intro h
    obtain ⟨o, ho, h⟩ := bind_eq_ok.mp h
    cases o with
    | none => cases h
    | some r =>
      obtain ⟨s, hgood, hadd⟩ := appendAll_singleton h
      exact ⟨r, s, ho, hgood, hadd⟩
  · rintro ⟨r, s, hr, hgood, hadd⟩
    rw [hr, ok_bind]
    dsimp only
    rw [appendAll, hgood, ok_bind]
    dsimp only
    rw [if_pos rfl, hadd, ok_bind]
    rfl

namespace Opened

variable {k : ℕ}

theorem getBlock (hc : c.Opened f) (hk : k < 2 ^ 64) : c.getBlock (UInt64.ofNat k) = f k := by
  rw [Chain.getBlock, hc.db.getBlock, UInt64.toNat_ofNat_of_lt' (show k < 2 ^ 64 from hk)]
  cases hb : f k with
  | none => rfl
  | some b => rw [Option.map_some, hc.plain _ _ hb]

/-- The blocks up to the height are there. -/
theorem exists_block (hc : c.Opened f) (hone : 1 ≤ k) (htop : k ≤ c.getHeight.toNat) :
    ∃ b, f k = some b ∧ c.getBlock (UInt64.ofNat k) = some b := by
  have hsome : (f k).isSome := by
    obtain ⟨l, hl, htip⟩ := exists_lastBlock (c := c) (by omega)
    exact hc.cached.isSome_of_le_tip hl hone (htip ▸ htop)
  have hbound := hc.db.le_maxRows hsome
  have hmax := maxRows_lt
  obtain ⟨b, hb⟩ := Option.isSome_iff_exists.mp hsome
  exact ⟨b, hb, by rw [hc.getBlock (by omega), hb]⟩

/-- There is at least the origin block. -/
theorem one_le_height (hc : c.Opened f) : 1 ≤ c.getHeight.toNat := by
  obtain ⟨g, hg, -⟩ := hc.first
  exact hc.cached.top 1 (by rw [hg]; rfl)

/-- The loop passes the origin block, which the replay has to append. -/
theorem follows_one (hc : c.Opened f) (hr : c.replay P now 1 = .ok (some r)) :
    ∃ last lastFull, Follows P c f 1 c last lastFull r
      ∧ checkLoop P (fun _ => now) c.getHeight.toNat 1 c none none
        = checkLoop P (fun _ => now) (c.getHeight.toNat - 1) (UInt64.ofNat 2) c last lastFull := by
  obtain ⟨g, hg, horigin⟩ := hc.first
  have hget : c.getBlock (UInt64.ofNat (0 + 1)) = some g := by rw [hc.getBlock (by omega), hg]
  obtain ⟨r₀, s, hr₀, hgood, hadd⟩ := (replay_succ hget).mp hr
  cases hr₀
  have hzero := hc.replayed_zero (P := P)
  obtain ⟨hreplayed, hadded⟩ := hzero.step hc hg hgood hadd
  have hindex : g.index = 1 := UInt64.toNat_inj.mp (hc.db.index _ _ hg)
  refine ⟨some g, none, ⟨hreplayed, rfl, rfl, rfl, rfl, hadded.lastBlock.symm, Or.inl ⟨rfl, rfl, ?_⟩,
    ?_⟩, ?_⟩
  · intro full hfull
    rw [hadded.lastFullBlock] at hfull
    split at hfull
    · cases hfull
      exact hindex
    · -- nothing was cached before
      obtain ⟨x, ⟨hx, -⟩, -⟩ := hzero.settled.stored_full hfull
      obtain ⟨hlt, hx⟩ := Ledger.truncate_eq_some hx
      rw [show full.index.toNat = 0 by omega, hc.zero] at hx
      cases hx
  · obtain ⟨db, hdb⟩ := hc.new
    intro hne
    rw [hdb] at hne
    exact absurd rfl hne
  · obtain ⟨m, hm⟩ : ∃ m, c.getHeight.toNat = m + 1 :=
      ⟨c.getHeight.toNat - 1, by have := hc.one_le_height; omega⟩
    have hget' : c.getBlock 1 = some g := hget
    rw [hm, checkLoop, hget']
    dsimp only
    rw [if_pos hindex, if_neg (not_not_intro horigin)]
    rfl

/-- **The loop passes what replays.** -/
theorem follows (hc : c.Opened f) (hk : 1 ≤ k) (htop : k ≤ c.getHeight.toNat)
    (hr : c.replay P now k = .ok (some r)) :
    ∃ cl last lastFull, Follows P c f k cl last lastFull r
      ∧ checkLoop P (fun _ => now) c.getHeight.toNat 1 c none none
        = checkLoop P (fun _ => now) (c.getHeight.toNat - k) (UInt64.ofNat (k + 1)) cl last lastFull := by
  induction k, hk using Nat.le_induction generalizing r with
  | base =>
    obtain ⟨last, lastFull, hf, hloop⟩ := hc.follows_one hr
    exact ⟨c, last, lastFull, hf, hloop⟩
  | succ k hk ih =>
    obtain ⟨b, hb, hget⟩ := hc.exists_block (by omega) htop
    obtain ⟨r₀, s, hr₀, hgood, hadd⟩ := (replay_succ hget).mp hr
    obtain ⟨cl, last, lastFull, hf, hloop⟩ := ih (by omega) hr₀
    obtain ⟨cl', last', lastFull', hf', hstep⟩ := hf.step hc hk hb htop hgood hadd
    refine ⟨cl', last', lastFull', hf', ?_⟩
    rw [hloop, show c.getHeight.toNat - k = (c.getHeight.toNat - (k + 1)) + 1 by omega, hstep]

/-- A shorter prefix of a prefix that replays. -/
theorem replay_le (hc : c.Opened f) {j : ℕ} (hj : j ≤ k) (htop : k ≤ c.getHeight.toNat)
    (h : ∃ r, c.replay P now k = .ok (some r)) : ∃ r, c.replay P now j = .ok (some r) := by
  induction k, hj using Nat.le_induction with
  | base => exact h
  | succ k hk ih =>
    obtain ⟨r, hr⟩ := h
    obtain ⟨b, -, hget⟩ := hc.exists_block (by omega) htop
    obtain ⟨r₀, s, hr₀, -⟩ := (replay_succ hget).mp hr
    exact ih (by omega) ⟨r₀, hr₀⟩

/-- Cutting above the tip changes nothing. -/
theorem truncate_top (hc : c.Opened f) {i : UInt64} (hi : i.toNat = c.getHeight.toNat + 1)
    (hlt : i.toNat < 2 ^ 63) : c.db.truncateFromBlock i = c.db := by
  have hsame : f.truncate i.toNat = f := by
    apply Ledger.truncate_of_top
    intro m hm
    have := hc.cached.top m hm
    omega
  have hcut := hc.db.truncateFromBlock hlt
  rw [hsame] at hcut
  exact hcut.eq hc.db rfl

/-- The height after a cut. -/
theorem height_of_cut (hc : c.Opened f) (hone : 1 ≤ k) (htop : k ≤ c.getHeight.toNat)
    {i : UInt64} (hi : i.toNat = k + 1) (hlt : i.toNat < 2 ^ 63)
    (hdb : c'.db = c.db.truncateFromBlock i) (hlast : c'.lastBlock = c'.db.loadLastBlock) :
    c'.getHeight.toNat = k := by
  have hr : c'.db.Represents (f.truncate (k + 1)) := by
    rw [hdb, ← hi]
    exact hc.db.truncateFromBlock hlt
  obtain ⟨b, hb, -⟩ := hc.exists_block hone htop
  have hle : k ≤ c'.getHeight.toNat := by
    apply le_getHeight_of_load hr hlast
    rw [Ledger.truncate_of_lt (by omega), hb]
    rfl
  have hground := grounded_of_load hr hlast
  obtain ⟨l, hl, htip⟩ := exists_lastBlock (c := c') (by omega)
  obtain ⟨a, ha, -⟩ := hground.tip l hl
  have := (Ledger.truncate_eq_some ha).1
  rw [htip] at hle ⊢
  omega

end Opened

/-- `check_chain(u64::MAX)` is the loop over all blocks, and then the caches. -/
theorem checkChain_all (c : Chain) (clock : ℕ → UtcTime) :
    c.checkChain P clock 18446744073709551615 = checkLoop P clock c.getHeight.toNat 1 c none none
      >>= fun q => .ok { q.1 with
        lastBlock := q.1.db.loadLastBlock
        lastFullBlock := q.1.getLastFullBlock maxIndex none } := by
  have hcount : ¬ c.getHeight > 18446744073709551615 := by
    have := c.getHeight.toNat_lt
    rw [gt_iff_lt, UInt64.lt_iff_toNat_lt]
    exact not_lt.mpr (Nat.le_of_lt_succ this)
  unfold checkChain checkFrom
  rw [if_neg hcount, ok_bind]
  rfl

/-- The loop does not cut below the block it starts with. -/
theorem checkLoop_keeps {clock : ℕ → UtcTime} {n : ℕ} {id i : UInt64} {last lastFull : Option Block}
    {cut : Option UInt64} (hr : c.db.Represents f) (hi : (f i.toNat).isSome) (hlt : i.toNat < id.toNat)
    (hn : id.toNat + n ≤ 2 ^ 63) (h : checkLoop P clock n id c last lastFull = .ok (c', cut)) :
    c'.db ≠ c.db.truncateFromBlock i := by
  have hbound := hr.le_maxRows hi
  have hmax := maxRows_lt
  have hgone : (c.db.truncateFromBlock i).blocks.find? (i.toNat : ℤ) = none := by
    rw [(hr.truncateFromBlock (by omega)).blocks, Ledger.truncate_of_le (le_refl _)]
    rfl
  have hkept : (c'.db.blocks.find? (i.toNat : ℤ)).isSome := by
    rcases (checkLoop_spec hr (by omega) hn h).2 with ⟨-, hdb⟩ | ⟨j, -, -, hle, hj, hdb⟩
    · rw [hdb, hr.blocks, Option.isSome_map]
      exact hi
    · have hjbound := hr.le_maxRows hj
      rw [hdb, (hr.truncateFromBlock (by omega)).blocks, Ledger.truncate_of_lt (by omega),
        Option.isSome_map]
      exact hi
  intro heq
  rw [heq, hgone] at hkept
  cases hkept

/-- A wrong hash is refused at once. -/
theorem returns_checkBlock_of_wrongHash {last lastFull : Option Block} (h : b.hash ∈ wrongHashes) :
    (c.checkBlock P now b last lastFull).Returns := by
  unfold checkBlock checks
  rw [checkVersion, checkWrongHash, verdictIf_eq_some.mpr ⟨h, rfl⟩]
  by_cases hversion : b.version > chainVersion
  · rw [verdictIf_eq_some.mpr ⟨hversion, rfl⟩]
    exact ⟨_, rfl⟩
  · rw [verdictIf_eq_none.mpr hversion]
    exact ⟨_, rfl⟩

namespace Opened

variable {k : ℕ}

/-- The next block, as the ledger has it. -/
theorem next_block (hc : c.Opened f) (htop : k < c.getHeight.toNat)
    (hget : c.getBlock (UInt64.ofNat (k + 1)) = some b) :
    f (k + 1) = some b ∧ b.index.toNat = k + 1 ∧ k + 1 < 2 ^ 63 := by
  obtain ⟨b', hb, hget'⟩ := hc.exists_block (k := k + 1) (by omega) htop
  rw [hget, Option.some.injEq] at hget'
  subst hget'
  have hmaxRows := hc.db.le_maxRows (show (f (k + 1)).isSome by rw [hb]; rfl)
  have hmax := maxRows_lt
  exact ⟨hb, hc.db.index _ _ hb, by omega⟩

/-- The replayed chain judges the next block by the rules. -/
theorem good_iff (hc : c.Opened f) (hone : 1 ≤ k) (htop : k < c.getHeight.toNat)
    (hr : c.replay P now k = .ok (some r)) (hget : c.getBlock (UInt64.ofNat (k + 1)) = some b) :
    (∃ s, r.checkNewBlock P now b = .ok (.good, s)) ↔ r.KeepsRules P now r.lastBlock b := by
  obtain ⟨hb, hindex, hbound⟩ := hc.next_block htop hget
  obtain ⟨cl, last, lastFull, hf, -⟩ := hc.follows hone htop.le hr
  obtain ⟨l, hl, hnext, hlt⟩ := Follows.exists_tip hf.replayed hone hbound hindex
  exact checkBlock_withTip_good hl hnext hlt

/-- A loop that goes on past a block does not come back to cut there. -/
theorem checkLoop_after {cl : Chain} {last lastFull : Option Block} {n : ℕ}
    {r : Chain × Option UInt64} (hc : c.Opened f) (hb : f (k + 1) = some b)
    (hn : k + 2 + n ≤ 2 ^ 63)
    (h : checkLoop P (fun _ => now) n (UInt64.ofNat (k + 2)) cl last lastFull = .ok r)
    (hdb : cl.db = c.db) : r.1.db ≠ cl.db.truncateFromBlock b.index := by
  have hindex : b.index.toNat = k + 1 := hc.db.index _ _ hb
  have hrepresents : cl.db.Represents f := hdb ▸ hc.db
  have hsome : (f b.index.toNat).isSome := by rw [hindex, hb]; rfl
  have hnext : (UInt64.ofNat (k + 2)).toNat = k + 2 :=
    UInt64.toNat_ofNat_of_lt' (show k + 2 < 2 ^ 64 by omega)
  exact checkLoop_keeps hrepresents hsome (by omega) (by omega) h

/-- **The first block that does not replay.**  The check cuts there exactly if the block does not
keep the rules at the final height either, and judging it returns. -/
theorem cut_iff (hc : c.Opened f) (hone : 1 ≤ k) (htop : k < c.getHeight.toNat)
    (hr : c.replay P now k = .ok (some r)) (hget : c.getBlock (UInt64.ofNat (k + 1)) = some b) :
    (∃ c', c.checkChain P (fun _ => now) 18446744073709551615 = .ok c'
        ∧ c'.db = c.db.truncateFromBlock (UInt64.ofNat (k + 1)))
      ↔ ¬ r.KeepsRules P now c.lastBlock b
        ∧ ((r.withTip c.lastBlock).checkBlock P now b r.lastBlock r.lastFullBlock).Returns := by
  obtain ⟨hb, hindex, hbound⟩ := hc.next_block htop hget
  have hmax := maxRows_lt
  have hid : b.index = UInt64.ofNat (k + 1) := by
    apply UInt64.toNat_inj.mp
    rw [hindex, UInt64.toNat_ofNat_of_lt' (show k + 1 < 2 ^ 64 by omega)]
  obtain ⟨cl, last, lastFull, hf, hloop⟩ := hc.follows hone htop.le hr
  obtain ⟨l, hl, hnext, hlt⟩ := Follows.exists_tip hf.replayed hone hbound hindex
  have hsame := hf.checkBlock now hc hl hindex hbound htop
  have hkeeps : (∃ s, (r.withTip c.lastBlock).checkBlock P now b r.lastBlock r.lastFullBlock
      = .ok (.good, s)) ↔ r.KeepsRules P now c.lastBlock b := checkBlock_withTip_good hl hnext hlt
  rw [checkChain_all, hloop, show c.getHeight.toNat - k = (c.getHeight.toNat - (k + 1)) + 1 by omega,
    hf.checkLoop_succ now hc hone hb, ← hid, ← hf.db]
  by_cases hwrong : b.hash ∈ wrongHashes
  · rw [if_pos hwrong, ok_bind]
    refine ⟨fun _ => ⟨?_, returns_checkBlock_of_wrongHash hwrong⟩, fun _ => ⟨_, rfl, rfl⟩⟩
    intro h
    have hpassed := h.passed.wrongHash
    rw [checkWrongHash, Except.ok.injEq, verdictIf_eq_none] at hpassed
    exact hpassed hwrong
  rw [if_neg hwrong]
  cases hown : (r.withTip c.lastBlock).checkBlock P now b r.lastBlock r.lastFullBlock with
  | error e =>
    -- neither returns
    rw [hown] at hsame
    cases hcheck : cl.checkBlock P now b last lastFull with
    | error e' =>
      constructor
      · rintro ⟨c', h, -⟩
        cases h
      · rintro ⟨-, q, hq⟩
        cases hq
    | ok q =>
      rw [hcheck] at hsame
      cases hsame
  | ok q =>
    rw [hown] at hsame hkeeps
    obtain ⟨cache, hcheck⟩ := map_fst_eq_ok.mp hsame
    rw [hcheck, ok_bind]
    by_cases hgood : q.1 = .good
    · -- the loop goes on, and does not come back to this block
      have hrules : r.KeepsRules P now c.lastBlock b := by
        apply hkeeps.mp
        refine ⟨q.2, ?_⟩
        rw [← hgood]
      constructor
      · rintro ⟨c', h, hdb⟩
        exfalso
        have hheight := hc.cached.height_le
        simp only [hgood, ne_eq, not_true_eq_false, if_false] at h
        obtain ⟨⟨c₁, cut⟩, hrest, h⟩ := bind_eq_ok.mp h
        cases h
        split at hrest
        · exact checkLoop_after hc hb (by omega) hrest hf.db hdb
        · exact checkLoop_after hc hb (by omega) hrest hf.db hdb
      · rintro ⟨hnot, -⟩
        exact absurd hrules hnot
    · refine ⟨fun _ => ⟨?_, q, rfl⟩, fun _ => ?_⟩
      · intro hrules
        obtain ⟨s, hs⟩ := hkeeps.mpr hrules
        cases hs
        exact hgood rfl
      · dsimp only
        rw [if_pos hgood, ok_bind]
        exact ⟨_, rfl, rfl⟩

/-- The check leaves the tip of the table. -/
theorem lastBlock_checkChain (h : c.checkChain P (fun _ => now) 18446744073709551615 = .ok c') :
    c'.lastBlock = c'.db.loadLastBlock := by
  rw [checkChain_all] at h
  obtain ⟨q, -, h⟩ := bind_eq_ok.mp h
  cases h
  rfl

/-- The origin block stays. -/
theorem one_le_checked (hc : c.Opened f)
    (h : c.checkChain P (fun _ => now) 18446744073709551615 = .ok c') : 1 ≤ c'.getHeight.toNat := by
  obtain ⟨g, hg, -⟩ := hc.first
  obtain ⟨f', hg', -, hf'⟩ := recheck_ledger hc.cached.toGrounded h
  apply le_getHeight_of_load hg'.db (lastBlock_checkChain h)
  rcases hf' with rfl | ⟨i, htwo, -, rfl⟩
  · rw [hg]
    rfl
  · rw [Ledger.truncate_of_lt (by omega), hg]
    rfl

/-- A block that keeps the rules can be replayed. -/
theorem replay_of_keepsRules (hc : c.Opened f) (hone : 1 ≤ k) (htop : k < c.getHeight.toNat)
    (hr : c.replay P now k = .ok (some r)) (hget : c.getBlock (UInt64.ofNat (k + 1)) = some b)
    (hrules : r.KeepsRules P now r.lastBlock b) : ∃ r', c.replay P now (k + 1) = .ok (some r') := by
  obtain ⟨hb, -⟩ := hc.next_block htop hget
  obtain ⟨cl, last, lastFull, hf, -⟩ := hc.follows hone htop.le hr
  obtain ⟨s, hgood⟩ := (hc.good_iff hone htop hr hget).mpr hrules
  obtain ⟨r', hadd⟩ := hf.replayed.exists_addBlock hc hb hgood
  exact ⟨r', (replay_succ hget).mpr ⟨r, s, hr, hgood, hadd⟩⟩

end Opened

/-- **When the check agrees with the replay.**  The origin block replays, and the first later block
that does not is refused at the height of the whole stored chain as well. -/
structure RefusesAtTop (P : Platform) (now : UtcTime) (c : Chain) : Prop where
  origin : ∃ r, c.replay P now 1 = .ok (some r)
  refused : ∀ k r b, 1 ≤ k → k < c.getHeight.toNat → c.replay P now k = .ok (some r) →
    c.getBlock (UInt64.ofNat (k + 1)) = some b → ¬ r.KeepsRules P now r.lastBlock b →
      ¬ r.KeepsRules P now c.lastBlock b
        ∧ ((r.withTip c.lastBlock).checkBlock P now b r.lastBlock r.lastFullBlock).Returns

namespace Opened

variable {k : ℕ}

theorem keepsReplayed_of_refusesAtTop (hc : c.Opened f) (h : c.RefusesAtTop P now) :
    c.KeepsReplayed P now := by
  classical
  have hone := hc.one_le_height
  -- the longest prefix that replays
  let K := Nat.findGreatest (fun k => ∃ r, c.replay P now k = .ok (some r)) c.getHeight.toNat
  have hK : K ≤ c.getHeight.toNat := Nat.findGreatest_le _
  have hKone : 1 ≤ K := Nat.le_findGreatest hone h.origin
  have hKreplay : ∃ r, c.replay P now K = .ok (some r) :=
    Nat.findGreatest_spec (P := fun k => ∃ r, c.replay P now k = .ok (some r)) hone h.origin
  have hgreatest : IsGreatest {k | k ≤ c.getHeight.toNat ∧ ∃ r, c.replay P now k = .ok (some r)} K :=
    ⟨⟨hK, hKreplay⟩, fun k hk => Nat.le_findGreatest hk.1 hk.2⟩
  have hheight := hc.cached.height_le
  have hmax := maxRows_lt
  have hid : (UInt64.ofNat (K + 1)).toNat = K + 1 :=
    UInt64.toNat_ofNat_of_lt' (show K + 1 < 2 ^ 64 by omega)
  obtain ⟨r, hr⟩ := hKreplay
  have hcut : ∃ c', c.checkChain P (fun _ => now) 18446744073709551615 = .ok c'
      ∧ c'.db = c.db.truncateFromBlock (UInt64.ofNat (K + 1)) := by
    rcases Nat.eq_or_lt_of_le hK with hall | hlt
    · -- everything replays
      obtain ⟨cl, last, lastFull, hf, hloop⟩ := hc.follows hKone hK hr
      rw [checkChain_all, hloop, ← hall, Nat.sub_self, checkLoop, ok_bind]
      refine ⟨_, rfl, ?_⟩
      rw [hc.truncate_top (by omega) (by omega)]
      exact hf.db
    · obtain ⟨b, -, hget⟩ := hc.exists_block (k := K + 1) (by omega) hlt
      have hnot : ¬ r.KeepsRules P now r.lastBlock b := by
        intro hrules
        have hnext := hc.replay_of_keepsRules hKone hlt hr hget hrules
        have := hgreatest.2 ⟨hlt, hnext⟩
        omega
      exact (hc.cut_iff hKone hlt hr hget).mpr (h.refused K r b hKone hlt hr hget hnot)
  obtain ⟨c', hcheck, hdb⟩ := hcut
  exact ⟨c', K, hcheck, hgreatest,
    hc.height_of_cut hKone hK hid (by omega) hdb (lastBlock_checkChain hcheck), hdb⟩

theorem refusesAtTop_of_keepsReplayed (hc : c.Opened f) (h : c.KeepsReplayed P now) :
    c.RefusesAtTop P now := by
  obtain ⟨c', K, hcheck, ⟨⟨hK, hKreplay⟩, hgreatest⟩, hKheight, hdb⟩ := h
  have hKone : 1 ≤ K := hKheight ▸ hc.one_le_checked hcheck
  refine ⟨hc.replay_le hKone hK hKreplay, ?_⟩
  intro k r b hone htop hr hget hnot
  have hkK : k ≤ K := hgreatest ⟨htop.le, r, hr⟩
  have hKk : K ≤ k := by
    by_contra hlt
    obtain ⟨r', hr'⟩ := hc.replay_le (j := k + 1) (by omega) hK hKreplay
    obtain ⟨r₀, s, hr₀, hgood, -⟩ := (replay_succ hget).mp hr'
    rw [hr, Except.ok.injEq, Option.some.injEq] at hr₀
    subst hr₀
    exact hnot ((hc.good_iff hone htop hr hget).mp ⟨s, hgood⟩)
  obtain rfl : K = k := by omega
  exact (hc.cut_iff hone htop hr hget).mp ⟨c', hcheck, hdb⟩

/-- A chain that replays as a whole is kept as a whole. -/
theorem refusesAtTop_of_replay (hc : c.Opened f)
    (h : ∃ r, c.replay P now c.getHeight.toNat = .ok (some r)) : c.RefusesAtTop P now := by
  refine ⟨hc.replay_le hc.one_le_height le_rfl h, ?_⟩
  intro k r b hone htop hr hget hnot
  obtain ⟨r', hr'⟩ := hc.replay_le (j := k + 1) htop le_rfl h
  obtain ⟨r₀, s, hr₀, hgood, -⟩ := (replay_succ hget).mp hr'
  rw [hr, Except.ok.injEq, Option.some.injEq] at hr₀
  subst hr₀
  exact absurd ((hc.good_iff hone htop hr hget).mp ⟨s, hgood⟩) hnot

end Opened

/-! ## Stored chains -/

/-- A ledger whose domains agree with its blocks is one of blocks as they are read. -/
theorem opened_of_rowsAgree {db : Db} {origin : Bytes} (hr : (Chain.new origin db).db.Represents f)
    (hzero : f 0 = none) (hfirst : ∃ g, f 1 = some g ∧ g.hash = origin)
    (hrows : (Chain.new origin db).RowsAgree) :
    (Chain.new origin db).Opened (fun n => (f n).map Block.collapse) := by
  obtain ⟨g, hg, hhash⟩ := hfirst
  refine ⟨⟨db, rfl⟩, ⟨?_, hr.blocks_neg, ?_, hr.domains_neg, ?_, ?_⟩, ?_, ⟨g.collapse, ?_, hhash⟩, ?_⟩
  · intro n
    have hsame : BlockRow.ofBlock ∘ Block.collapse = BlockRow.ofBlock := by
      funext b
      exact b.ofBlock_collapse
    rw [hr.blocks, Option.map_map, hsame]
  · intro n
    rcases Option.eq_none_or_eq_some (f n) with hn | ⟨x, hx⟩
    · rw [hr.domains, hn]
      rfl
    · have hindex := hr.index n x hx
      have hbound := hr.le_maxRows (show (f n).isSome by rw [hx]; rfl)
      have hmax := maxRows_lt
      have hget : (Chain.new origin db).getBlock x.index = some x.collapse := by
        rw [Chain.getBlock, hr.getBlock, hindex, hx, Option.map_some]
      have hrow := hrows x.index x.collapse hget
      rw [asI64_of_lt (by omega), hindex] at hrow
      rw [hrow, hx]
      rfl
  · intro n b hb
    obtain ⟨x, hx, rfl⟩ := Option.map_eq_some_iff.mp hb
    exact hr.index n x hx
  · intro n hn j hj hjn
    rw [Option.isSome_map] at hn ⊢
    exact hr.closed n hn j hj hjn
  · rw [hzero]
    rfl
  · rw [hg]
    rfl
  · intro n b hb
    obtain ⟨x, -, rfl⟩ := Option.map_eq_some_iff.mp hb
    exact x.collapse_collapse

/-- **The check at startup against the replay.**  On a stored chain with the origin block at its
start, the check keeps exactly the longest prefix that replays if and only if the origin block
replays and the first later block that does not is refused at the final height too. -/
theorem keepsReplayed_iff {db : Db} {origin : Bytes} (hr : (Chain.new origin db).db.Represents f)
    (hzero : f 0 = none) (hfirst : ∃ g, f 1 = some g ∧ g.hash = origin)
    (hrows : (Chain.new origin db).RowsAgree) :
    (Chain.new origin db).KeepsReplayed P now ↔ (Chain.new origin db).RefusesAtTop P now := by
  have hc := opened_of_rowsAgree hr hzero hfirst hrows
  exact ⟨hc.refusesAtTop_of_keepsReplayed, hc.keepsReplayed_of_refusesAtTop⟩

end Chain

/-! ## Stored lists of blocks -/

/-- The ledger of a list of blocks, the first of which has index 1. -/
def Ledger.ofList (stored : List Block) : Ledger
  | 0 => none
  | n + 1 => stored[n]?

/-- The blocks of a list are numbered from 1 on. -/
def Numbered (stored : List Block) : Prop :=
  stored.map (fun b => b.index.toNat) = List.range' 1 stored.length

instance (stored : List Block) : Decidable (Numbered stored) :=
  inferInstanceAs (Decidable (_ = _))

theorem Numbered.pairwise {stored : List Block} (h : Numbered stored) :
    stored.Pairwise fun a b => (a.index.toNat : ℤ) < b.index.toNat := by
  have hlt : (stored.map fun b => b.index.toNat).Pairwise (· < ·) := by
    rw [h]
    exact List.pairwise_lt_range'
  rw [List.pairwise_map] at hlt
  exact hlt.imp fun hab => by exact_mod_cast hab

/-- The tables that hold exactly the blocks of a list. -/
def Db.ofList (stored : List Block) (h : Numbered stored) (hroom : stored.length ≤ maxRows) : Db where
  blocks :=
    { rows := stored.map fun b => ((b.index.toNat : ℤ), BlockRow.ofBlock b)
      sorted := by
        rw [List.pairwise_map]
        exact h.pairwise
      bounded := by
        rw [List.length_map]
        exact hroom }
  domains :=
    { rows := stored.filterMap fun b => b.domainRow?.map fun row => ((b.index.toNat : ℤ), row)
      sorted := by
        rw [List.pairwise_filterMap]
        apply h.pairwise.imp
        intro a b hab x hx y hy
        obtain ⟨_, -, rfl⟩ := Option.map_eq_some_iff.mp hx
        obtain ⟨_, -, rfl⟩ := Option.map_eq_some_iff.mp hy
        exact hab
      bounded := (List.length_filterMap_le _ _).trans hroom }
  options := Db.empty.options

namespace Numbered

variable {stored : List Block} (h : Numbered stored) {hroom : stored.length ≤ maxRows}
include h

theorem index_eq {n : ℕ} {b : Block} (hb : Ledger.ofList stored n = some b) : b.index.toNat = n := by
  cases n with
  | zero => cases hb
  | succ n =>
    have hb : stored[n]? = some b := hb
    obtain ⟨hn, -⟩ := List.getElem?_eq_some_iff.mp hb
    have hnth : (stored.map fun b => b.index.toNat)[n]? = (List.range' 1 stored.length)[n]? := by
      rw [h]
    rw [List.getElem?_map, hb, Option.map_some, List.getElem?_range' hn, Option.some.injEq] at hnth
    omega

theorem ofList_eq_some {n : ℕ} {b : Block} :
    Ledger.ofList stored n = some b ↔ b ∈ stored ∧ b.index.toNat = n := by
  constructor
  · intro hb
    refine ⟨?_, h.index_eq hb⟩
    cases n with
    | zero => cases hb
    | succ n => exact List.mem_of_getElem? hb
  · rintro ⟨hb, rfl⟩
    obtain ⟨i, hi⟩ := List.mem_iff_getElem?.mp hb
    rw [h.index_eq (n := i + 1) hi]
    exact hi

theorem find?_blocks {k : ℤ} {row : BlockRow} : (Db.ofList stored h hroom).blocks.find? k = some row
    ↔ ∃ b ∈ stored, (b.index.toNat : ℤ) = k ∧ BlockRow.ofBlock b = row := by
  rw [← Table.mem_rows_iff, Db.ofList, List.mem_map]
  simp only [Prod.mk.injEq]

theorem find?_domains {k : ℤ} {row : DomainRow} :
    (Db.ofList stored h hroom).domains.find? k = some row
      ↔ ∃ b ∈ stored, (b.index.toNat : ℤ) = k ∧ b.domainRow? = some row := by
  rw [← Table.mem_rows_iff, Db.ofList, List.mem_filterMap]
  simp only [Option.map_eq_some_iff, Prod.mk.injEq]
  grind

/-- The tables of a list represent its ledger. -/
theorem represents : (Db.ofList stored h hroom).Represents (Ledger.ofList stored) where
  blocks n := by
    apply Option.ext
    intro row
    rw [h.find?_blocks, Option.map_eq_some_iff]
    simp only [h.ofList_eq_some]
    grind
  blocks_neg k hk := by
    rw [Option.eq_none_iff_forall_ne_some]
    intro row hrow
    obtain ⟨b, -, hb, -⟩ := h.find?_blocks.mp hrow
    omega
  domains n := by
    apply Option.ext
    intro row
    rw [h.find?_domains, Option.bind_eq_some_iff]
    simp only [h.ofList_eq_some]
    grind
  domains_neg k hk := by
    rw [Option.eq_none_iff_forall_ne_some]
    intro row hrow
    obtain ⟨b, -, hb, -⟩ := h.find?_domains.mp hrow
    omega
  index n b := h.index_eq
  closed n hn j hj hjn := by
    obtain ⟨i, rfl⟩ : ∃ i, j = i + 1 := ⟨j - 1, by omega⟩
    obtain ⟨m, rfl⟩ : ∃ m, n = m + 1 := ⟨n - 1, by omega⟩
    have hm : m < stored.length := by
      by_contra hlt
      rw [show Ledger.ofList stored (m + 1) = none from List.getElem?_eq_none (by omega)] at hn
      cases hn
    rw [show Ledger.ofList stored (i + 1) = some stored[i] from List.getElem?_eq_getElem (by omega)]
    rfl

end Numbered

namespace Chain

/-- Tables without options belong to every origin. -/
theorem new_ofList {stored : List Block} (origin : Bytes) (h : Numbered stored)
    (hroom : stored.length ≤ maxRows) :
    (Chain.new origin (Db.ofList stored h hroom)).db = Db.ofList stored h hroom := by
  unfold Chain.new
  dsimp only
  rw [if_neg]
  rintro ⟨-, hne, -⟩
  exact hne rfl

theorem represents_new_ofList {stored : List Block} (origin : Bytes) (h : Numbered stored)
    (hroom : stored.length ≤ maxRows) :
    (Chain.new origin (Db.ofList stored h hroom)).db.Represents (Ledger.ofList stored) := by
  rw [new_ofList]
  exact h.represents

/-- Blocks that are read as they were written give matching tables. -/
theorem rowsAgree_ofList {stored : List Block} (origin : Bytes) (h : Numbered stored)
    (hroom : stored.length ≤ maxRows) (hplain : ∀ b ∈ stored, b.collapse = b) :
    (Chain.new origin (Db.ofList stored h hroom)).RowsAgree := by
  have hr := represents_new_ofList origin h hroom
  intro i b hb
  rw [Chain.getBlock, hr.getBlock] at hb
  obtain ⟨x, hx, rfl⟩ := Option.map_eq_some_iff.mp hb
  have hbound := hr.le_maxRows (show (Ledger.ofList stored i.toNat).isSome by rw [hx]; rfl)
  have hmax := maxRows_lt
  rw [hplain x (h.ofList_eq_some.mp hx).1, asI64_of_lt (by omega), hr.domains, hx, Option.bind_some]

end Chain

namespace Sample

/-- Seven blocks on top of block 35 by one key, which is not among its signers. -/
def strangers35 : List Block :=
  (List.range 7).map fun k => block (UInt64.ofNat (k + 36)) 30 (UInt64.ofNat (k + 36))
    (hash [UInt8.ofNat (k + 35)]) (key 99) none

/-- Stored chains of 39 and of 42 blocks, with the signers of block 35 and with the strangers. -/
def signedDb : Db := Db.ofList (early ++ full35 :: signers35) (by decide +kernel) (by decide +kernel)
def strangeDb : Db := Db.ofList (early ++ full35 :: strangers35) (by decide +kernel) (by decide +kernel)

end Sample

namespace Chain

/-- A stored chain of 39 blocks that replays. -/
theorem keepsReplayed_signers35 :
    (Chain.new Sample.genesis.hash Sample.signedDb).getHeight = 39
      ∧ (Chain.new Sample.genesis.hash Sample.signedDb).KeepsReplayed (Sample.platform true)
        Sample.now := by
  have hplain : ∀ b ∈ Sample.early ++ Sample.full35 :: Sample.signers35, b.collapse = b := by
    decide +kernel
  have hheight : (Chain.new Sample.genesis.hash Sample.signedDb).getHeight = 39 := by decide +kernel
  have hreplay : ∃ r, (Chain.new Sample.genesis.hash Sample.signedDb).replay (Sample.platform true)
      Sample.now 39 = .ok (some r) ∧ r.getHeight = 39 := by
    decide +kernel
  have hfirst : ∃ g, Ledger.ofList (Sample.early ++ Sample.full35 :: Sample.signers35) 1 = some g
      ∧ g.hash = Sample.genesis.hash := ⟨Sample.genesis, rfl, rfl⟩
  have hr : (Chain.new Sample.genesis.hash Sample.signedDb).db.Represents
      (Ledger.ofList (Sample.early ++ Sample.full35 :: Sample.signers35)) :=
    represents_new_ofList _ _ _
  have hrows : (Chain.new Sample.genesis.hash Sample.signedDb).RowsAgree := rowsAgree_ofList _ _ _ hplain
  refine ⟨hheight, (keepsReplayed_iff hr rfl hfirst hrows).mpr ?_⟩
  apply (opened_of_rowsAgree hr rfl hfirst hrows).refusesAtTop_of_replay
  obtain ⟨r, hr, -⟩ := hreplay
  rw [hheight]
  exact ⟨r, hr⟩

/-- Seven blocks above block 35, none by one of its signers, replay only up to block 35, and the
check keeps all 42: at that height no block above block 35 is tested any more. -/
theorem not_keepsReplayed_strangers35 : ∃ f : Ledger,
    (Chain.new Sample.genesis.hash Sample.strangeDb).db.Represents f ∧ f 0 = none
      ∧ (∃ g, f 1 = some g ∧ g.hash = Sample.genesis.hash)
      ∧ (Chain.new Sample.genesis.hash Sample.strangeDb).RowsAgree
      ∧ ¬ (Chain.new Sample.genesis.hash Sample.strangeDb).KeepsReplayed (Sample.platform true)
        Sample.now := by
  have hplain : ∀ b ∈ Sample.early ++ Sample.full35 :: Sample.strangers35, b.collapse = b := by
    decide +kernel
  have hcheck : ∃ c', (Chain.new Sample.genesis.hash Sample.strangeDb).checkChain (Sample.platform true)
      (fun _ => Sample.now) 18446744073709551615 = .ok c' ∧ c'.getHeight = 42 := by
    decide +kernel
  have hreplay : ∃ r, (Chain.new Sample.genesis.hash Sample.strangeDb).replay (Sample.platform true)
      Sample.now 42 = .ok r ∧ r.isNone := by
    decide +kernel
  refine ⟨_, represents_new_ofList _ _ _, rfl, ⟨Sample.genesis, rfl, rfl⟩,
    rowsAgree_ofList _ _ _ hplain, ?_⟩
  rintro ⟨c', k, hc', ⟨⟨-, hk⟩, -⟩, hheight, -⟩
  obtain ⟨c'', hc'', h42⟩ := hcheck
  rw [hc', Except.ok.injEq] at hc''
  subst hc''
  rw [h42] at hheight
  obtain ⟨r, hr, hnone⟩ := hreplay
  obtain ⟨r', hr'⟩ := hk
  rw [← hheight] at hr'
  rw [show (42 : UInt64).toNat = 42 from rfl, hr, Except.ok.injEq] at hr'
  rw [hr'] at hnone
  cases hnone

end Chain
