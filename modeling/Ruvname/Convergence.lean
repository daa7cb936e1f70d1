/-
# Two blocks for one place

Two nodes in one state receive two good blocks for the next index in opposite orders.  The first
block is appended, the second one is a fork and takes its place if it is better.  So the nodes end
with the same block if exactly one of the two displaces the other.

Both displace each other if a signing block has a better hash than a full one.  A block also has to
pass as a fork: what lies on top may have begun the discounts of domains, and a new full block has
signers of its own and ends the shortcut of the cooldown (`Chain.AsFork`).
-/
import Ruvname.ForkChoice
import Ruvname.OwnBlocks
import Ruvname.StoreInvariant

open Exec

namespace Chain

variable {P : Platform} {now : UtcTime} {c c' c'' : Chain} {a b x full : Block} {f : Ledger}
  {s : SignersCache} {signers : List Bytes}

/-- What a good block is asked a second time, as a fork: the difficulty, if the discounts have begun
since; the cooldown, if a full block has taken its place; and to be signed by a signer of that full
block. -/
structure AsFork (P : Platform) (c : Chain) (b : Block) : Prop where
  difficulty : b.index ≤ blocksWithoutDiscount → blocksWithoutDiscount ≤ c.getHeight →
    c.checkDeclaredDifficulty P b = .ok none
  cooldown : ∀ t full, b.transaction = some t → c.lastFullBlock = some full → b.index ≤ full.index →
    c.checkCooldown P b t = .ok none
  signer : ∀ full, b.transaction = none → c.lastFullBlock = some full → b.index ≤ full.index →
    ∃ s, c.signStage P b (some full) = .ok (true, s)

/-- The second block takes the place of the first: it passes as a fork and it is better. -/
def Displaces (P : Platform) (c : Chain) (b first : Block) : Prop :=
  c.AsFork P b ∧ Block.Better P.checks b first

/-! ## The list of signers while a chain grows -/

/-- Judging a block leaves the signers of the cached full block as they are. -/
theorem getBlockSigners_judge {q : BlockQuality} (hfull : c.lastFullBlock = some full)
    (hget : ∃ s, c.getBlockSigners P full = .ok (signers, s)) (hne : signers ≠ [])
    (h : c.checkNewBlock P now x = .ok (q, s)) :
    ∃ s', { c with signers := s }.getBlockSigners P full = .ok (signers, s') := by
  obtain ⟨s', hget⟩ := hget
  rcases memo_cases_checkBlock h with rfl | ⟨full', signers', hfull', hget'⟩
  · exact ⟨s', hget⟩
  · rw [hfull, Option.some.injEq] at hfull'
    rw [← hfull', hget] at hget'
    cases hget'
    exact ⟨s, getBlockSigners_again hget hne⟩

/-- So does a block that is added above this full block. -/
theorem getBlockSigners_add (hadd : c.addBlock x = .ok c') (hadded : c.Added x c')
    (hget : ∃ s, c.getBlockSigners P full = .ok (signers, s)) (hne : signers ≠ [])
    (hlow : full.index.toNat < x.index.toNat) (hbound : x.index.toNat < 2 ^ 63) :
    ∃ s', c'.getBlockSigners P full = .ok (signers, s') := by
  obtain ⟨s, hget⟩ := hget
  rw [getBlockSigners_eq] at hget
  split at hget
  · cases hget
    exact absurd rfl hne
  · rename_i hguard
    rw [not_or, UInt64.not_lt, UInt64.not_lt] at hguard
    have hstart := hguard.1
    have hheight : full.index ≤ c'.getHeight := by
      rw [getHeight_of_some hadded.lastBlock]
      exact UInt64.le_iff_toNat_le.mpr hlow.le
    have hagree : AgreeBelow full.index c c' :=
      addBlock_truncateFromBlock hadd (asI64_le_asI64 hbound hlow.le)
    rw [getBlockSigners_eq, if_neg (not_or.mpr ⟨UInt64.not_lt.mpr hstart, UInt64.not_lt.mpr hheight⟩),
      hadded.signers, hagree.selectSigners hstart (by omega)]
    split at hget
    · cases hget
    · rename_i htx
      rw [if_neg htx]
      split at hget
      · rename_i hmemo
        rw [if_pos hmemo]
        exact ⟨s, hget⟩
      · rename_i hmemo
        rw [if_neg hmemo]
        exact ⟨s, hget⟩

/-! ## The chain that has grown -/

/-- The chain has grown by a block and by others on top of it. -/
structure GrownBy (P : Platform) (c : Chain) (a : Block) (c' : Chain) : Prop where
  ledger : ∃ f', c'.Grounded f' ∧ f' a.index.toNat = some a
  agree : AgreeBelow a.index c c'
  le_height : a.index ≤ c'.getHeight
  zones : c'.zones = c.zones
  maxHeight : c'.maxHeight = c.maxHeight
  full : c'.lastFullBlock = c.lastFullBlock
    ∨ ∃ full, c'.lastFullBlock = some full ∧ a.index ≤ full.index
  signers : ∀ full signers s, c'.lastFullBlock = some full → full.index < a.index →
    c.getBlockSigners P full = .ok (signers, s) → signers ≠ [] →
    ∃ s', c'.getBlockSigners P full = .ok (signers, s')

/-- A good block that the table takes. -/
theorem Grounded.grownBy (hg : c.Grounded f) (hgood : c.checkNewBlock P now a = .ok (.good, s))
    (hindex : a.index.toNat = c.getHeight.toNat + 1)
    (hadd : { c with signers := s }.addBlock a = .ok c') (hroom : c.db.addBlockToTable a ≠ none) :
    GrownBy P c a c' := by
  have hheight := hg.height_le
  have hmax := maxRows_lt
  rcases append_ledger hg hgood hadd with ⟨-, hfail⟩ | ⟨-, hg', hadded⟩
  · exact absurd hfail hroom
  · have hlast := hadded.lastFullBlock
    refine ⟨⟨_, hg', Ledger.put_self f a⟩,
      addBlock_truncateFromBlock (c := { c with signers := s }) hadd le_rfl, ?_, hadded.zones,
      hadded.maxHeight, ?_, ?_⟩
    · rw [getHeight_of_some hadded.lastBlock]
      exact UInt64.le_refl _
    · split at hlast
      · exact Or.inr ⟨a, hlast, UInt64.le_refl _⟩
      · exact Or.inl hlast
    · intro full signers s' hfull hlow hget hne
      rw [hlast] at hfull
      split at hfull
      · cases hfull
        exact absurd hlow (UInt64.lt_irrefl _)
      · have hcached : c.lastFullBlock = some full := hfull
        have hjudged := getBlockSigners_judge hcached ⟨s', hget⟩ hne hgood
        exact getBlockSigners_add hadd hadded hjudged hne (UInt64.lt_iff_toNat_lt.mp hlow) (by omega)

namespace GrownBy

/-- The full block that is cached, if it lies below, has been cached before. -/
theorem lastFullBlock_eq (h : GrownBy P c a c') (hfull : c'.lastFullBlock = some full)
    (hlow : full.index < a.index) : c'.lastFullBlock = c.lastFullBlock := by
  rcases h.full with hsame | ⟨full', hfull', hle⟩
  · exact hsame
  · rw [hfull, Option.some.injEq] at hfull'
    rw [← hfull'] at hle
    exact absurd hlow (UInt64.not_lt.mpr hle)

/-- Judging a block. -/
theorem judge {q : BlockQuality} (h : GrownBy P c a c') (hcheck : c'.checkNewBlock P now x = .ok (q, s)) :
    GrownBy P c a { c' with signers := s } where
  ledger := by
    obtain ⟨f', hg', ha⟩ := h.ledger
    exact ⟨f', hg'.congr rfl rfl, ha⟩
  agree := h.agree
  le_height := h.le_height
  zones := h.zones
  maxHeight := h.maxHeight
  full := h.full
  signers full signers s' hfull hlow hget hne :=
    getBlockSigners_judge hfull (h.signers full signers s' hfull hlow hget hne) hne hcheck

/-- Appending a good block on top. -/
theorem append (h : GrownBy P c a c') (hx : x.index ≠ 0)
    (hgood : c'.checkNewBlock P now x = .ok (.good, s))
    (hadd : { c' with signers := s }.addBlock x = .ok c'') : GrownBy P c a c'' := by
  obtain ⟨f', hg', ha⟩ := h.ledger
  have hindex := hg'.index_eq_succ hx hgood
  have hle := UInt64.le_iff_toNat_le.mp h.le_height
  have hheight := hg'.height_le
  have hmax := maxRows_lt
  rcases append_ledger hg' hgood hadd with ⟨rfl, -⟩ | ⟨-, hg'', hadded⟩
  · exact h.judge hgood
  · have hlast := hadded.lastFullBlock
    have hbelow : AgreeBelow a.index c' c'' := by
      refine addBlock_truncateFromBlock (c := { c' with signers := s }) hadd ?_
      exact asI64_le_asI64 (by omega) (by omega)
    refine ⟨⟨_, hg'', ?_⟩, h.agree.trans hbelow, ?_, hadded.zones.trans h.zones,
      hadded.maxHeight.trans h.maxHeight, ?_, ?_⟩
    · rw [Ledger.put_of_ne (by omega), ha]
    · rw [getHeight_of_some hadded.lastBlock]
      exact UInt64.le_iff_toNat_le.mpr (by omega)
    · split at hlast
      · exact Or.inr ⟨x, hlast, UInt64.le_iff_toNat_le.mpr (by omega)⟩
      · rw [hlast]
        exact h.full
    · intro full signers s' hfull hlow hget hne
      have hlow' := UInt64.lt_iff_toNat_lt.mp hlow
      rw [hlast] at hfull
      split at hfull
      · cases hfull
        omega
      · have hkept := h.signers full signers s' hfull hlow hget hne
        exact getBlockSigners_add hadd hadded (getBlockSigners_judge hfull hkept hne hgood) hne
          (by omega) (by omega)

/-! ## The second block as a fork -/

section Fork

variable (h : GrownBy P c a c') (hindex : b.index = a.index)
  (hheight : b.index.toNat = c.getHeight.toNat + 1)
include h hindex

/-- The cooldown of the second block, if no full block has been added. -/
theorem checkCooldown_eq (hfull : c'.lastFullBlock = c.lastFullBlock) (t : Transaction) :
    c'.checkCooldown P b t = c.checkCooldown P b t := by
  have hagree : AgreeBelow b.index c c' := hindex ▸ h.agree
  apply checkCooldown_congr hagree
  unfold getLastFullBlock
  rw [hfull, hagree.lastFullBlock le_rfl]

/-- Beside the tip, the second block is a fork. -/
theorem compareWithTip_eq {l : Block} (hne : a.hash ≠ b.hash) (hl : c'.lastBlock = some l) :
    c'.compareWithTip b l = .fork := by
  obtain ⟨f', hg', ha⟩ := h.ledger
  have hle : b.index ≤ c'.getHeight := hindex ▸ h.le_height
  rw [getHeight_of_some hl] at hle
  have hstored : c'.getBlock b.index = some a.collapse := by
    rw [Chain.getBlock, hg'.db.getBlock, hindex, ha, Option.map_some]
  refine compareWithTip_eq_fork.mpr ⟨hle, ?_, a.collapse, hstored, hne⟩
  rintro ⟨htip, hhash⟩
  obtain ⟨y, hy, hrow⟩ := hg'.tip l hl
  rw [← htip, hindex, ha, Option.some.injEq] at hy
  apply hne
  calc a.hash = (BlockRow.ofBlock a).hash := rfl
    _ = (BlockRow.ofBlock l).hash := by rw [hy, hrow]
    _ = b.hash := hhash

include hheight

/-- The difficulty of the second block, unless the discounts have begun in between. -/
theorem checkDeclaredDifficulty_eq
    (hbegun : ¬ (b.index ≤ blocksWithoutDiscount ∧ blocksWithoutDiscount ≤ c'.getHeight)) :
    c'.checkDeclaredDifficulty P b = c.checkDeclaredDifficulty P b := by
  have hagree : AgreeBelow b.index c c' := hindex ▸ h.agree
  have hle := UInt64.le_iff_toNat_le.mp (hindex ▸ h.le_height)
  have hsame : c'.getHeight < blocksWithoutDiscount ↔ c.getHeight < blocksWithoutDiscount := by
    rw [UInt64.le_iff_toNat_le, UInt64.le_iff_toNat_le] at hbegun
    rw [UInt64.lt_iff_toNat_lt, UInt64.lt_iff_toNat_lt]
    omega
  unfold checkDeclaredDifficulty neededDifficulty getDifficultyForTransaction getIdentityDiscount
  simp only [hagree.getDomainUpdateTime, hsame]

/-- The signers of the second block, if the last full block lies below it. -/
theorem signStage_kept (hgood : c.checkNewBlock P now b = .ok (.good, s))
    (hlow : ∀ full, c'.lastFullBlock = some full → full.index < b.index) :
    ∃ s', c'.signStage P b c'.lastFullBlock = .ok (true, s') := by
  have hagree : AgreeBelow b.index c c' := hindex ▸ h.agree
  have hle := UInt64.le_iff_toNat_le.mp (hindex ▸ h.le_height)
  obtain ⟨f', hg', -⟩ := h.ledger
  have hbound := hg'.height_le
  have hmax := maxRows_lt
  by_cases hstart : blockSignersStart < b.index
  swap
  · unfold signStage
    rw [if_neg hstart]
    exact ⟨_, rfl⟩
  cases htx : b.transaction with
  | some t =>
    unfold signStage isGoodSignBlock
    rw [if_pos hstart, htx]
    exact ⟨_, rfl⟩
  | none =>
    cases hfull : c'.lastFullBlock with
    | none =>
      unfold signStage isGoodSignBlock
      rw [if_pos hstart, htx]
      exact ⟨_, rfl⟩
    | some full =>
      have hbelow := hlow full hfull
      have hbelow' := UInt64.lt_iff_toNat_lt.mp hbelow
      have hcached : c.lastFullBlock = some full := by
        rw [← h.lastFullBlock_eq hfull (hindex ▸ hbelow), hfull]
      have hunder : full.index ≤ c.getHeight := UInt64.le_iff_toNat_le.mpr (by omega)
      rw [signStage_eq htx hstart (UInt64.le_iff_toNat_le.mpr (by omega))]
      by_cases hfew : c'.getHeight.toNat - full.index.toNat < blockSignersAll
      swap
      · rw [if_neg hfew]
        exact ⟨_, rfl⟩
      rw [if_pos hfew]
      -- the block has been judged by the same rule, with fewer blocks on top of the full one
      have hsign : c.signStage P b (some full) = .ok (true, s) := by
        obtain ⟨-, hpos⟩ := (checkBlock_accepting accepting_good).mp hgood
        have htwo := two_le_of_signersStart (UInt64.le_of_lt hstart)
        obtain ⟨l, hl, -⟩ := exists_lastBlock (c := c) (by omega)
        rw [hl, checkPosition_some accepting_good, hcached] at hpos
        exact hpos.2.2.1
      rw [signStage_eq htx hstart hunder, if_pos (by omega)] at hsign
      obtain ⟨⟨signers, cache⟩, hget, hsign⟩ := bind_eq_ok.mp hsign
      dsimp only at hsign
      have hadd : addU64 P.checks full.index 1 = .ok (full.index + 1) :=
        addU64_one (by omega)
      have hnext : (full.index + 1).toNat = full.index.toNat + 1 :=
        toNat_add_one (by omega)
      by_cases hmem : b.pubKey ∉ signers
      · rw [if_pos hmem] at hsign
        cases hsign
      · rw [if_neg hmem, hadd, ok_bind] at hsign
        rw [not_not] at hmem
        obtain ⟨signed, hsigned, hsign⟩ := bind_eq_ok.mp hsign
        cases signed with
        | true => cases hsign
        | false =>
          obtain ⟨s', hget'⟩ := h.signers full signers cache hfull (hindex ▸ hbelow) hget
            (List.ne_nil_of_mem hmem)
          refine ⟨s', isGoodSignerForBlock_eq_true hget' hmem (by omega) ?_⟩
          rw [hagree.alreadySigned (by omega) (by omega)]
          exact hsigned

/-- The rule for signers, for a fork. -/
theorem signStage_of_asFork (hgood : c.checkNewBlock P now b = .ok (.good, s))
    (hrules : c'.AsFork P b) : ∃ s', c'.signStage P b c'.lastFullBlock = .ok (true, s') := by
  by_cases hon : ∃ full, c'.lastFullBlock = some full ∧ b.index ≤ full.index
  · obtain ⟨full, hfull, hon⟩ := hon
    cases htx : b.transaction with
    | none =>
      rw [hfull]
      exact hrules.signer full htx hfull hon
    | some t =>
      unfold signStage isGoodSignBlock
      rw [htx, hfull]
      exact ⟨_, ite_self _⟩
  · refine h.signStage_kept hindex hheight hgood fun full hfull => ?_
    rw [← UInt64.not_le]
    exact fun hle => hon ⟨full, hfull, hle⟩

/-- What is asked of a transaction, for a fork. -/
theorem checkTransaction_of_asFork (hgood : c.checkTransaction P now b = .ok none)
    (hrules : c'.AsFork P b) : c'.checkTransaction P now b = .ok none := by
  have hagree : AgreeBelow b.index c c' := hindex ▸ h.agree
  have hle := UInt64.le_iff_toNat_le.mp (hindex ▸ h.le_height)
  obtain ⟨f', hg', -⟩ := h.ledger
  have hbound := hg'.height_le
  have hmax := maxRows_lt
  unfold checkTransaction at hgood ⊢
  cases ht : b.transaction with
  | none => rfl
  | some t =>
    rw [ht] at hgood
    dsimp only at hgood ⊢
    have hidentity : c'.checkIdentity P now b t = c.checkIdentity P now b t :=
      hagree.checkIdentity (by omega) (by omega)
    have hrecords : c'.checkRecords P t = c.checkRecords P t := AgreeBelow.checkRecords h.zones
    rw [firstVerdict_eq_none] at hgood ⊢
    simp only [List.forall_mem_cons, List.not_mem_nil, false_implies, implies_true, and_true] at hgood ⊢
    have hcooldown : c'.checkCooldown P b t = .ok none := by
      rcases h.full with hsame | ⟨full, hfull, hon⟩
      · rw [h.checkCooldown_eq hindex hsame]
        exact hgood.2.2.1
      · exact hrules.cooldown t full ht hfull (hindex ▸ hon)
    rw [hidentity, hrecords]
    exact ⟨hgood.1, hgood.2.1, hcooldown, hgood.2.2.2⟩

/-- **A good block as a fork.**  On a chain that has grown by another block of its index. -/
theorem fork_iff (hne : a.hash ≠ b.hash) (hgood : c.checkNewBlock P now b = .ok (.good, s)) :
    (∃ s', c'.checkNewBlock P now b = .ok (.fork, s')) ↔ c'.AsFork P b := by
  have hagree : AgreeBelow b.index c c' := hindex ▸ h.agree
  obtain ⟨f', hg', ha⟩ := h.ledger
  have hbound := hg'.height_le
  have hmax := maxRows_lt
  have hle := UInt64.le_iff_toNat_le.mp (hindex ▸ h.le_height)
  have hsmall : b.index.toNat < 2 ^ 63 := by omega
  obtain ⟨hp, -⟩ := (checkBlock_accepting accepting_good).mp hgood
  obtain ⟨l, hl, htip⟩ := exists_lastBlock (c := c') (by omega)
  rw [htip] at hle
  obtain ⟨hnext, hsucc⟩ := hg'.addU64_tip (P := P) hl
  have hbehind : ¬ l.index + 1 < b.index := by
    rw [UInt64.lt_iff_toNat_lt, hsucc]
    omega
  constructor
  · rintro ⟨s', hfork⟩
    obtain ⟨hp', hpos⟩ := (checkBlock_accepting accepting_fork).mp hfork
    rw [hl, checkPosition_some accepting_fork] at hpos
    refine ⟨fun _ _ => hp'.declaredDifficulty, fun t full ht _ _ => ?_, fun full _ hfull _ => ?_⟩
    · have htransaction := hp'.transaction
      unfold checkTransaction at htransaction
      rw [ht] at htransaction
      dsimp only at htransaction
      rw [firstVerdict_eq_none] at htransaction
      exact htransaction _ (by simp)
    · rw [hfull] at hpos
      exact ⟨s', hpos.2.2.1⟩
  · intro hrules
    have hdifficulty : c'.checkDeclaredDifficulty P b = .ok none := by
      by_cases hbegun : b.index ≤ blocksWithoutDiscount ∧ blocksWithoutDiscount ≤ c'.getHeight
      · exact hrules.difficulty hbegun.1 hbegun.2
      · rw [h.checkDeclaredDifficulty_eq hindex hheight hbegun]
        exact hp.declaredDifficulty
    obtain ⟨s', hsign⟩ := h.signStage_of_asFork hindex hheight hgood hrules
    have htransaction := h.checkTransaction_of_asFork hindex hheight hp.transaction hrules
    have hahead : checkAhead P b c'.lastBlock = .ok none := by
      rw [hl, checkAhead, hnext, ok_bind, verdictIf_eq_none.mpr hbehind]
    refine ⟨s', (checkBlock_accepting accepting_fork).mpr ⟨⟨hp.version, hp.wrongHash, hp.clock, hahead,
      hdifficulty, hp.hashDifficulty, hp.hash, hp.signature,
      hagree.checkParent (by omega) hsmall hp.parent, htransaction⟩, ?_⟩⟩
    rw [hl, checkPosition_some accepting_fork]
    refine ⟨?_, ⟨_, hnext, hbehind⟩, hsign, h.compareWithTip_eq hindex hne hl⟩
    rintro ⟨-, habove⟩
    exact UInt64.not_lt.mpr (UInt64.le_iff_toNat_le.mpr hle) habove

/-- **Who displaces the first block.**  Nobody is lagged here. -/
theorem replaces_iff (hmaxHeight : c.maxHeight = c.getHeight) (hne : a.hash ≠ b.hash)
    (hgood : c.checkNewBlock P now b = .ok (.good, s)) :
    Node.Replaces P now c' b ↔ c'.Displaces P b a := by
  obtain ⟨f', hg', hstored⟩ := h.ledger
  have hbound := hg'.height_le
  have hmax := maxRows_lt
  have hle := UInt64.le_iff_toNat_le.mp (hindex ▸ h.le_height)
  have hour : c'.getBlock b.index = some a.collapse := by
    rw [Chain.getBlock, hg'.db.getBlock, hindex, hstored, Option.map_some]
  have hlagged : Node.isLagged P c' b = .ok false := by
    unfold Node.isLagged
    split
    · have hdepth : limitedConfidenceDepth.toNat = 4 := by decide
      rw [addU64_of_lt (by omega), ok_bind, Except.ok.injEq, decide_eq_false_iff_not,
        UInt64.le_iff_toNat_le, toNat_addU64 (by omega), h.maxHeight, hmaxHeight]
      omega
    · rfl
  have hwins : Node.forkWins P c' b a.collapse = .ok true ↔ Block.Better P.checks b a := by
    have hsame : b.isBetterThan P.checks a.collapse = b.isBetterThan P.checks a := by
      have hkind : a.collapse.transaction.isNone = a.transaction.isNone := by
        rw [← Option.not_isSome, Block.collapse_transaction_isSome, Option.not_isSome]
      unfold Block.isBetterThan
      rw [hkind]
      rfl
    unfold Node.forkWins Block.Better
    rw [hlagged, ok_bind, hsame]
    cases b.isBetterThan P.checks a with
    | error e => exact iff_of_false (by rintro ⟨⟩) (by rintro ⟨⟩)
    | ok better => simp
  unfold Node.Replaces Displaces
  rw [← h.fork_iff hindex hheight hne hgood, ← hwins]
  constructor
  · rintro ⟨s', our, hfork, hget, hbetter⟩
    rw [hour, Option.some.injEq] at hget
    exact ⟨⟨s', hfork⟩, hget ▸ hbetter⟩
  · rintro ⟨⟨s', hfork⟩, hbetter⟩
    exact ⟨s', _, hfork, hour, hbetter⟩

end Fork

end GrownBy

end Chain

namespace Node

variable {P : Platform} {n n' n₁ n₂ n₁₂ n₂₁ : Node} {clock : ℕ → UtcTime} {b b₁ b₂ : Block}
  {state s₁ s₂ s₁₂ s₂₁ : State} {f : Ledger} {s : SignersCache}

/-! ## The bucket -/

/-- Blocks wait under their indices. -/
theorem Reachable.keyed (hn : n.Reachable P) : ∀ e ∈ n.futureBlocks, e.1 = e.2.index := by
  obtain ⟨origin, run⟩ := hn
  refine run.invariant (I := fun n => ∀ e ∈ n.futureBlocks, e.1 = e.2.index) ?_ ?_
  · intro e he
    cases he
  · intro n i n' hkeyed _ hstep e he
    rcases hstep.mem_futureBlocks he with hold | ⟨clock, b, -, rfl⟩
    · exact hkeyed e hold
    · rfl

/-- What is drained comes on top. -/
theorem drainFuture_grown {c c₁ c₂ : Chain} {future future' : FutureBlocks} {next : UInt64} {k : ℕ}
    (hkeyed : ∀ e ∈ future, e.1 = e.2.index) (hnext : next ≠ 0) (hgrown : c.GrownBy P b c₁)
    (h : drainFuture P k clock c₁ future next = .ok (c₂, future')) : c.GrownBy P b c₂ := by
  induction k generalizing clock c₁ future next with
  | zero =>
    cases h
    exact hgrown
  | succ k ih =>
    rw [drainFuture] at h
    split at h
    · cases h
      exact hgrown
    · rename_i x hx
      have hindex : next = x.index := hkeyed _ (mem_of_lookup hx)
      obtain ⟨⟨quality, cache⟩, hcheck, h⟩ := bind_eq_ok.mp h
      by_cases hq : quality = .good
      · simp only [hq, if_true] at h hcheck
        obtain ⟨c', hadd, h⟩ := bind_eq_ok.mp h
        obtain ⟨next', hsucc, h⟩ := bind_eq_ok.mp h
        obtain ⟨f', hg', -⟩ := hgrown.ledger
        have hposition := hg'.index_eq_succ (hindex ▸ hnext) hcheck
        have hheight := hg'.height_le
        have hmax := Chain.maxRows_lt
        have hlt : next.toNat + 1 < 2 ^ 64 := by
          rw [hindex]
          omega
        rw [addU64_one hlt, Except.ok.injEq] at hsucc
        refine ih (fun e he => hkeyed e (List.mem_of_mem_filter he)) ?_
          (hgrown.append (hindex ▸ hnext) hcheck hadd) h
        intro hzero
        rw [← hsucc] at hzero
        have := congrArg UInt64.toNat hzero
        rw [toNat_add_one hlt] at this
        cases this
      · simp only [hq, if_false] at h
        cases h
        exact hgrown.judge hcheck

/-- Nothing is drained that is not next to the tip. -/
theorem drainFuture_stays {c c' : Chain} {future future' : FutureBlocks} {next : UInt64} {k : ℕ}
    (hg : c.Grounded f) (hkeyed : ∀ e ∈ future, e.1 = e.2.index) (hnext : next ≠ 0)
    (haway : next.toNat ≠ c.getHeight.toNat + 1)
    (h : drainFuture P k clock c future next = .ok (c', future')) :
    c'.db = c.db ∧ c'.lastBlock = c.lastBlock := by
  cases k with
  | zero =>
    cases h
    exact ⟨rfl, rfl⟩
  | succ k =>
    rw [drainFuture] at h
    split at h
    · cases h
      exact ⟨rfl, rfl⟩
    · rename_i x hx
      have hindex : next = x.index := hkeyed _ (mem_of_lookup hx)
      obtain ⟨⟨quality, cache⟩, hcheck, h⟩ := bind_eq_ok.mp h
      by_cases hq : quality = .good
      · rw [hq] at hcheck
        have hposition := hg.index_eq_succ (hindex ▸ hnext) hcheck
        rw [hindex] at haway
        exact absurd hposition haway
      · simp only [hq, if_false] at h
        cases h
        exact ⟨rfl, rfl⟩

/-! ## Handling two blocks -/

/-- The table refuses a block if its place is taken or there is no room. -/
theorem addBlockToTable_eq_none {db : Db} : db.addBlockToTable b = none ↔
    ¬ (db.blocks.find? (asI64 b.index) = none ∧ db.blocks.rows.length < maxRows) := by
  rw [Db.addBlockToTable, Option.map_eq_none_iff, ← Option.not_isSome_iff_eq_none,
    Table.insert?_isSome]

/-- The index above the block is computed without overflow. -/
theorem toNat_next {next : UInt64} (hg : n.chain.Grounded f)
    (hindex : b.index.toNat = n.chain.getHeight.toNat + 1)
    (hnext : addU64 P.checks b.index 1 = .ok next) :
    next.toNat = n.chain.getHeight.toNat + 2 := by
  have hheight := hg.height_le
  have hmax := Chain.maxRows_lt
  have hlt : b.index.toNat + 1 < 2 ^ 64 := by omega
  rw [addU64_one hlt, Except.ok.injEq] at hnext
  rw [← hnext, toNat_add_one hlt, hindex]

section Handling

variable (hg : n.chain.Grounded f) (hkeyed : ∀ e ∈ n.futureBlocks, e.1 = e.2.index)
  (hindex : b.index.toNat = n.chain.getHeight.toNat + 1)
  (h : n.handleBlock P clock b = .ok (n', state))
include hg hkeyed hindex h

/-- The first block, when the table takes it. -/
theorem handleBlock_grown (hgood : n.chain.checkNewBlock P (clock 0) b = .ok (.good, s))
    (hroom : n.chain.db.addBlockToTable b ≠ none) : n.chain.GrownBy P b n'.chain := by
  unfold handleBlock at h
  obtain ⟨⟨quality, cache⟩, hcheck, h⟩ := bind_eq_ok.mp h
  dsimp only at hcheck
  rw [hgood] at hcheck
  cases hcheck
  obtain ⟨next, hnext, h⟩ := bind_eq_ok.mp h
  obtain ⟨c₁, hadd, h⟩ := bind_eq_ok.mp h
  obtain ⟨⟨c₂, future⟩, hdrain, h⟩ := bind_eq_ok.mp h
  cases h
  have hvalue := toNat_next hg hindex hnext
  refine drainFuture_grown hkeyed ?_ (hg.grownBy hgood hindex hadd hroom) hdrain
  rintro rfl
  cases hvalue

/-- A block that the table does not take changes nothing. -/
theorem handleBlock_refused (hfull : n.chain.db.addBlockToTable b = none) :
    n'.chain.db = n.chain.db ∧ n'.chain.lastBlock = n.chain.lastBlock := by
  rcases handleBlock_cases h with ⟨s, c₁, hgood, hadd, next, future, hnext, hdrain, -⟩
    | ⟨s, hfork, -, -, -⟩ | ⟨q, s, maxHeight, -, hchain, -, -⟩
  · have hsame : c₁ = { n.chain with signers := s } := by
      unfold Chain.addBlock at hadd
      rw [hfull] at hadd
      cases hadd
      rfl
    subst hsame
    have hvalue := toNat_next hg hindex hnext
    have hjudged : ({ n.chain with signers := s } : Chain).Grounded f := hg.congr rfl rfl
    have hnext₀ : next ≠ 0 := by
      rintro rfl
      cases hvalue
    have haway : next.toNat ≠ n.chain.getHeight.toNat + 1 := by omega
    have hstays := drainFuture_stays hjudged hkeyed hnext₀ haway hdrain
    exact hstays
  · obtain ⟨l, my, hl, hle, -⟩ := hg.fork_cases hfork
    rw [Chain.getHeight_of_some hl] at hindex
    omega
  · rw [hchain]
    exact ⟨rfl, rfl⟩

end Handling

/-- Nor do two of them. -/
theorem handleBlock_refused_twice (hn : n.Reachable P)
    (h₁ : b₁.index.toNat = n.chain.getHeight.toNat + 1)
    (h₂ : b₂.index.toNat = n.chain.getHeight.toNat + 1)
    (run₁ : n.handleBlock P clock b₁ = .ok (n₁, s₁)) (run₁₂ : n₁.handleBlock P clock b₂ = .ok (n₁₂, s₁₂))
    (hfull₁ : n.chain.db.addBlockToTable b₁ = none) (hfull₂ : n.chain.db.addBlockToTable b₂ = none) :
    n₁₂.chain.db = n.chain.db := by
  obtain ⟨f, hg⟩ := hn.grounded
  obtain ⟨hdb, hlast⟩ := handleBlock_refused hg hn.keyed h₁ run₁ hfull₁
  have hreach : n₁.Reachable P := by
    obtain ⟨origin, run⟩ := hn
    have hstep : n.Step P (.block clock b₁) n₁ := ⟨s₁, run₁⟩
    exact ⟨origin, run.tail trivial hstep⟩
  have hheight : n₁.chain.getHeight = n.chain.getHeight := by
    unfold Chain.getHeight
    rw [hlast]
  rw [← hheight] at h₂
  rw [← hdb] at hfull₂ ⊢
  exact (handleBlock_refused (hg.congr hdb hlast) hreach.keyed h₂ run₁₂ hfull₂).1

/-- The second block, on a chain that has grown by the first: the winner is stored. -/
theorem handleBlock_second {c : Chain} (hgrown : c.GrownBy P b₁ n₁.chain) (hindex : b₂.index = b₁.index)
    (h : n₁.handleBlock P clock b₂ = .ok (n₁₂, s₁₂)) :
    (Replaces P (clock 0) n₁.chain b₂ → n₁₂.chain.getBlock b₁.index = some b₂.collapse) ∧
      (¬ Replaces P (clock 0) n₁.chain b₂ → n₁₂.chain.getBlock b₁.index = some b₁.collapse) := by
  obtain ⟨f', hg', hstored⟩ := hgrown.ledger
  obtain ⟨f'', hg'', hcases⟩ := handleBlock_ledger hg' h
  rw [Chain.getBlock, hg''.db.getBlock]
  rcases hcases with ⟨hwins, rfl⟩ | ⟨hnot, hkept⟩
  · refine ⟨fun _ => ?_, fun hnot => absurd hwins hnot⟩
    rw [← hindex, Ledger.put_self, Option.map_some]
  · refine ⟨fun hwins => absurd hwins hnot, fun _ => ?_⟩
    rw [hkept _ _ hstored, Option.map_some]

/-- **Convergence, exactly.**  In a reachable state that knows of no greater height than its own, two
different good blocks for the next index are handled in both orders.  The two nodes end with the same
block there if and only if the table has no room for it, or exactly one of the two blocks displaces
the other. -/
theorem converge_iff (hn : n.Reachable P) (hmaxHeight : n.chain.maxHeight = n.chain.getHeight)
    (h₁ : b₁.index.toNat = n.chain.getHeight.toNat + 1) (h₂ : b₂.index = b₁.index)
    (hne : b₁.hash ≠ b₂.hash) (hgood₁ : ∃ s, n.chain.checkNewBlock P (clock 0) b₁ = .ok (.good, s))
    (hgood₂ : ∃ s, n.chain.checkNewBlock P (clock 0) b₂ = .ok (.good, s))
    (run₁ : n.handleBlock P clock b₁ = .ok (n₁, s₁)) (run₁₂ : n₁.handleBlock P clock b₂ = .ok (n₁₂, s₁₂))
    (run₂ : n.handleBlock P clock b₂ = .ok (n₂, s₂)) (run₂₁ : n₂.handleBlock P clock b₁ = .ok (n₂₁, s₂₁)) :
    n₁₂.chain.getBlock b₁.index = n₂₁.chain.getBlock b₁.index ↔
      n.chain.db.addBlockToTable b₁ = none ∨
        Xor (n₁.chain.Displaces P b₂ b₁) (n₂.chain.Displaces P b₁ b₂) := by
  obtain ⟨f, hg⟩ := hn.grounded
  obtain ⟨t₁, hgood₁⟩ := hgood₁
  obtain ⟨t₂, hgood₂⟩ := hgood₂
  have hkeyed := hn.keyed
  have h₂' : b₂.index.toNat = n.chain.getHeight.toNat + 1 := by rw [h₂, h₁]
  have hroom : n.chain.db.addBlockToTable b₂ = none ↔ n.chain.db.addBlockToTable b₁ = none := by
    rw [addBlockToTable_eq_none, addBlockToTable_eq_none, h₂]
  by_cases hfull : n.chain.db.addBlockToTable b₁ = none
  · refine iff_of_true ?_ (Or.inl hfull)
    have hleft := handleBlock_refused_twice hn h₁ h₂' run₁ run₁₂ hfull (hroom.mpr hfull)
    have hright := handleBlock_refused_twice hn h₂' h₁ run₂ run₂₁ (hroom.mpr hfull) hfull
    rw [Chain.getBlock, Chain.getBlock, hleft, hright]
  · have hgrown₁ := handleBlock_grown hg hkeyed h₁ run₁ hgood₁ hfull
    have hgrown₂ := handleBlock_grown hg hkeyed h₂' run₂ hgood₂ (mt hroom.mp hfull)
    have hwins₁ := hgrown₁.replaces_iff h₂ h₂' hmaxHeight hne hgood₂
    have hwins₂ := hgrown₂.replaces_iff h₂.symm h₁ hmaxHeight hne.symm hgood₁
    obtain ⟨htaken₁, hkept₁⟩ := handleBlock_second hgrown₁ h₂ run₁₂
    obtain ⟨htaken₂, hkept₂⟩ := handleBlock_second hgrown₂ h₂.symm run₂₁
    have hdiffer : (some b₁.collapse : Option Block) ≠ some b₂.collapse := by
      intro hsame
      have hhash : b₁.collapse.hash = b₂.collapse.hash := congrArg Block.hash (Option.some.inj hsame)
      exact hne hhash
    rw [h₂] at htaken₂ hkept₂
    rw [or_iff_right hfull, ← hwins₁, ← hwins₂]
    by_cases hsecond : Replaces P (clock 0) n₁.chain b₂
    · by_cases hfirst : Replaces P (clock 0) n₂.chain b₁
      · rw [htaken₁ hsecond, htaken₂ hfirst]
        exact iff_of_false hdiffer.symm (by rintro (⟨-, hnot⟩ | ⟨-, hnot⟩) <;> exact hnot ‹_›)
      · rw [htaken₁ hsecond, hkept₂ hfirst]
        exact iff_of_true rfl (Or.inl ⟨hsecond, hfirst⟩)
    · by_cases hfirst : Replaces P (clock 0) n₂.chain b₁
      · rw [hkept₁ hsecond, htaken₂ hfirst]
        exact iff_of_true rfl (Or.inr ⟨hfirst, hsecond⟩)
      · rw [hkept₁ hsecond, hkept₂ hfirst]
        exact iff_of_false hdiffer (by rintro (⟨hwins, -⟩ | ⟨hwins, -⟩) <;> contradiction)

end Node

namespace Sample

/-- A node that knows of no greater height than its own. -/
def synced (n : Node) : Node := { n with chain := n.chain.updateMaxHeight n.chain.getHeight }

theorem reachable_synced {P : Platform} {n : Node} (hn : n.Reachable P) : (synced n).Reachable P := by
  obtain ⟨origin, run⟩ := hn
  have hstep : n.Step P (.height n.chain.getHeight) (synced n) := rfl
  exact ⟨origin, run.tail trivial hstep⟩

end Sample

namespace Node

/-- The full block and a signing block of lower score: the full one displaces the other. -/
theorem converge_full2 : ∃ n n₁ n₂ : Node, n.Reachable (Sample.platform true) ∧
    (∃ s, n.handleBlock (Sample.platform true) (fun _ => Sample.now) Sample.full2 = .ok (n₁, s)) ∧
    (∃ s, n.handleBlock (Sample.platform true) (fun _ => Sample.now) Sample.low2 = .ok (n₂, s)) ∧
    (n.chain.db.addBlockToTable Sample.full2 = none ∨
      Xor (n₁.chain.Displaces (Sample.platform true) Sample.low2 Sample.full2)
        (n₂.chain.Displaces (Sample.platform true) Sample.full2 Sample.low2)) := by
  have hrun : ∃ n₀, receive (Sample.platform true) Sample.now [Sample.genesis]
        (fresh Sample.genesis.hash) = .ok n₀
      ∧ Sample.full2.index.toNat = (Sample.synced n₀).chain.getHeight.toNat + 1
      ∧ (∃ r, (Sample.synced n₀).chain.checkNewBlock (Sample.platform true) Sample.now Sample.full2
        = .ok r ∧ r.1 = .good)
      ∧ (∃ r, (Sample.synced n₀).chain.checkNewBlock (Sample.platform true) Sample.now Sample.low2
        = .ok r ∧ r.1 = .good)
      ∧ ∃ r₁, (Sample.synced n₀).handleBlock (Sample.platform true) (fun _ => Sample.now) Sample.full2
        = .ok r₁
      ∧ ∃ r₁₂, r₁.1.handleBlock (Sample.platform true) (fun _ => Sample.now) Sample.low2 = .ok r₁₂
      ∧ ∃ r₂, (Sample.synced n₀).handleBlock (Sample.platform true) (fun _ => Sample.now) Sample.low2
        = .ok r₂
      ∧ ∃ r₂₁, r₂.1.handleBlock (Sample.platform true) (fun _ => Sample.now) Sample.full2 = .ok r₂₁
      ∧ r₁₂.1.chain.getBlock Sample.full2.index = r₂₁.1.chain.getBlock Sample.full2.index := by
    decide +kernel
  obtain ⟨n₀, hn₀, hindex, ⟨⟨q₁, t₁⟩, hgood₁, rfl⟩, ⟨⟨q₂, t₂⟩, hgood₂, rfl⟩, ⟨n₁, s₁⟩, run₁,
    ⟨n₁₂, s₁₂⟩, run₁₂, ⟨n₂, s₂⟩, run₂, ⟨n₂₁, s₂₁⟩, run₂₁, hsame⟩ := hrun
  have hreach : (Sample.synced n₀).Reachable (Sample.platform true) :=
    Sample.reachable_synced ⟨Sample.genesis.hash, receive_run (fun _ _ _ => trivial) hn₀⟩
  have hmaxHeight : (Sample.synced n₀).chain.maxHeight = (Sample.synced n₀).chain.getHeight := rfl
  have hplace : Sample.low2.index = Sample.full2.index := rfl
  have hne : Sample.full2.hash ≠ Sample.low2.hash := by decide +kernel
  refine ⟨_, n₁, n₂, hreach, ⟨s₁, run₁⟩, ⟨s₂, run₂⟩, ?_⟩
  refine (converge_iff hreach hmaxHeight hindex hplace hne ?_ ?_ run₁ run₁₂ run₂ run₂₁).mp hsame
  · exact ⟨t₁, hgood₁⟩
  · exact ⟨t₂, hgood₂⟩

/-- The full block and a signing block of higher score: the later one stays, on both nodes. -/
theorem not_converge_high2 : ∃ n n₁ n₂ n₁₂ n₂₁ : Node, n.Reachable (Sample.platform true) ∧
    n.chain.maxHeight = n.chain.getHeight ∧ n.chain.getHeight = 1 ∧
    Sample.full2.hash ≠ Sample.high2.hash ∧
    (∃ s, n.chain.checkNewBlock (Sample.platform true) Sample.now Sample.full2 = .ok (.good, s)) ∧
    (∃ s, n.chain.checkNewBlock (Sample.platform true) Sample.now Sample.high2 = .ok (.good, s)) ∧
    (∃ s, n.handleBlock (Sample.platform true) (fun _ => Sample.now) Sample.full2 = .ok (n₁, s)) ∧
    (∃ s, n₁.handleBlock (Sample.platform true) (fun _ => Sample.now) Sample.high2 = .ok (n₁₂, s)) ∧
    (∃ s, n.handleBlock (Sample.platform true) (fun _ => Sample.now) Sample.high2 = .ok (n₂, s)) ∧
    (∃ s, n₂.handleBlock (Sample.platform true) (fun _ => Sample.now) Sample.full2 = .ok (n₂₁, s)) ∧
    n₁₂.chain.getBlock 2 = some Sample.high2 ∧ n₂₁.chain.getBlock 2 = some Sample.full2 := by
  have hrun : ∃ n₀, receive (Sample.platform true) Sample.now [Sample.genesis]
        (fresh Sample.genesis.hash) = .ok n₀
      ∧ (Sample.synced n₀).chain.getHeight = 1
      ∧ (∃ r, (Sample.synced n₀).chain.checkNewBlock (Sample.platform true) Sample.now Sample.full2
        = .ok r ∧ r.1 = .good)
      ∧ (∃ r, (Sample.synced n₀).chain.checkNewBlock (Sample.platform true) Sample.now Sample.high2
        = .ok r ∧ r.1 = .good)
      ∧ ∃ r₁, (Sample.synced n₀).handleBlock (Sample.platform true) (fun _ => Sample.now) Sample.full2
        = .ok r₁
      ∧ ∃ r₁₂, r₁.1.handleBlock (Sample.platform true) (fun _ => Sample.now) Sample.high2 = .ok r₁₂
      ∧ ∃ r₂, (Sample.synced n₀).handleBlock (Sample.platform true) (fun _ => Sample.now) Sample.high2
        = .ok r₂
      ∧ ∃ r₂₁, r₂.1.handleBlock (Sample.platform true) (fun _ => Sample.now) Sample.full2 = .ok r₂₁
      ∧ r₁₂.1.chain.getBlock 2 = some Sample.high2 ∧ r₂₁.1.chain.getBlock 2 = some Sample.full2 := by
    decide +kernel
  obtain ⟨n₀, hn₀, hheight, ⟨⟨q₁, t₁⟩, hgood₁, rfl⟩, ⟨⟨q₂, t₂⟩, hgood₂, rfl⟩, ⟨n₁, s₁⟩, run₁,
    ⟨n₁₂, s₁₂⟩, run₁₂, ⟨n₂, s₂⟩, run₂, ⟨n₂₁, s₂₁⟩, run₂₁, hleft, hright⟩ := hrun
  have hreach : (Sample.synced n₀).Reachable (Sample.platform true) :=
    Sample.reachable_synced ⟨Sample.genesis.hash, receive_run (fun _ _ _ => trivial) hn₀⟩
  exact ⟨_, n₁, n₂, n₁₂, n₂₁, hreach, rfl, hheight, by decide +kernel, ⟨t₁, hgood₁⟩, ⟨t₂, hgood₂⟩,
    ⟨s₁, run₁⟩, ⟨s₁₂, run₁₂⟩, ⟨s₂, run₂⟩, ⟨s₂₁, run₂₁⟩, hleft, hright⟩

end Node
