/-
# Signing blocks of the node itself

`get_sign_block` and `check_block` apply the rules for signing blocks each in its own way.  Whatever
the first one asks for, the second one accepts, at every height and at every count of signatures:
`get_sign_block` starts where the signed part of the chain starts, stops when the full block is
locked, and looks for blocks of the key in a wider range.
-/
import Ruvname.Mining
import Ruvname.SignerMemo

open Exec

namespace Chain

variable {P : Platform} {now : UtcTime} {c c' : Chain} {b full last : Block} {f : Ledger}
  {s cache : SignersCache} {signers : List Bytes} {keystore : Keystore P} {rng : ℕ}

/-- **Coherence of the tip.**  The cached last block is the row of highest id. -/
def TipCoherent (c : Chain) : Prop :=
  c.lastBlock.map (fun b => ((b.index.toNat : ℤ), BlockRow.ofBlock b))
    = c.db.blocks.lastWhere? fun _ _ => true

instance (c : Chain) : Decidable c.TipCoherent := inferInstanceAs (Decidable (_ = _))

/-- Then the cached last full block is not above the tip. -/
theorem full_le_height (htip : c.TipCoherent) (hcoherent : c.Coherent)
    (hfull : c.lastFullBlock = some full) : full.index ≤ c.getHeight := by
  unfold Coherent at hcoherent
  rw [hfull, Option.map_some] at hcoherent
  obtain ⟨hrow, -, -⟩ := Table.lastWhere?_eq_some.mp hcoherent.symm
  unfold TipCoherent at htip
  cases hl : c.lastBlock with
  | none =>
    rw [hl, Option.map_none] at htip
    cases Table.lastWhere?_eq_none.mp htip.symm _ _ hrow
  | some last =>
    rw [hl, Option.map_some] at htip
    obtain ⟨-, -, hmax⟩ := Table.lastWhere?_eq_some.mp htip.symm
    rw [getHeight_of_some hl, UInt64.le_iff_toNat_le]
    exact_mod_cast hmax _ _ hrow rfl

/-! ## What `get_sign_block` has found -/

theorem mem_candidates {full : UInt64} {keys choice : List (Keystore P)}
    (h : c.candidates P signers full keys = .ok choice) (hmem : keystore ∈ choice) :
    c.maySign P signers full keystore = .ok true := by
  induction keys generalizing choice with
  | nil =>
    cases h
    cases hmem
  | cons key keys ih =>
    obtain ⟨may, hmay, h⟩ := bind_eq_ok.mp h
    obtain ⟨rest, hrest, h⟩ := bind_eq_ok.mp h
    cases h
    cases may with
    | false => exact ih hrest hmem
    | true =>
      rcases List.mem_cons.mp hmem with rfl | hmem
      · exact hmay
      · exact ih hrest hmem

/-- What holds when there is a block to sign. -/
structure MaySign (P : Platform) (now : UtcTime) (c : Chain) (keystore : Keystore P)
    (cache : SignersCache) (full last : Block) (signers : List Bytes) : Prop where
  started : blockSignersStart ≤ c.getHeight
  cached : c.lastFullBlock = some full
  tip : c.lastBlock = some last
  open' : ∃ count, subU64 P.checks c.getHeight full.index = .ok count ∧ count < blockSignersMin
  quiet : ∃ quiet, addI64 P.checks last.timestamp 60 = .ok quiet ∧ quiet ≤ now.secs
  selected : c.getBlockSigners P full = .ok (signers, cache)
  may : c.maySign P signers full.index keystore = .ok true

theorem getSignBlock_eq_some {keys : List (Keystore P)}
    (h : c.getSignBlock P now rng keys = .ok (some (b, keystore), cache)) :
    ∃ full last signers, MaySign P now c keystore cache full last signers
      ∧ ∃ index, addU64 P.checks last.index 1 = .ok index
        ∧ b = { Block.new none Bytes.default last.hash signerDifficulty with index := index } := by
  unfold getSignBlock at h
  split at h
  · cases h
  · rename_i hstart
    split at h
    · cases h
    · split at h
      · cases h
      · split at h
        · cases h
        · rename_i full hfull
          obtain ⟨count, hcount, h⟩ := bind_eq_ok.mp h
          split at h
          · cases h
          · rename_i hopen
            split at h
            · cases h
            · rename_i last hlast
              obtain ⟨quiet, hquiet, h⟩ := bind_eq_ok.mp h
              split at h
              · cases h
              · rename_i hwait
                obtain ⟨⟨signers, memo⟩, hsigners, h⟩ := bind_eq_ok.mp h
                obtain ⟨choice, hchoice, h⟩ := bind_eq_ok.mp h
                dsimp only at h
                split at h
                · cases h
                · rename_i key hkey
                  obtain ⟨index, hindex, h⟩ := bind_eq_ok.mp h
                  cases h
                  have hmay := mem_candidates hchoice (List.mem_of_getElem? hkey)
                  exact ⟨full, last, signers, ⟨UInt64.not_lt.mp hstart, hfull, hlast,
                    ⟨count, hcount, UInt64.not_le.mp hopen⟩,
                    ⟨quiet, hquiet, Int64.not_lt.mp hwait⟩, hsigners, hmay⟩, index, hindex, rfl⟩

/-! ## What `find_hash` has found -/

/-- The block before it is hashed: on top of `last`, cleared. -/
structure Unhashed (x b last : Block) (mined : UtcTime) : Prop where
  index : x.index.toNat = last.index.toNat + 1
  prevBlockHash : x.prevBlockHash = last.hash
  timestamp : x.timestamp = mined.secs
  version : x.version = b.version
  difficulty : x.difficulty = b.difficulty
  pubKey : x.pubKey = b.pubKey
  transaction : x.transaction = b.transaction
  hash : x.hash = b.hash
  signature : x.signature = b.signature

theorem findHash_eq_some {mined : UtcTime} {random : UInt32} {nonce : UInt64} {found : Block}
    (hg : c.Grounded f) (hlast : c.lastBlock = some last)
    (h : c.findHash P mined random nonce b = .ok (some found)) :
    ∃ x, Unhashed x b last mined ∧ found = { x with hash := P.blakeout x.asBytesCompact } ∧
      ∃ difficulty, hashDifficulty found.hash = .ok difficulty
        ∧ b.difficulty.toNat ≤ difficulty := by
  obtain ⟨hnext, hindex⟩ := hg.addU64_tip (P := P) hlast
  obtain ⟨y, hy, h⟩ := bind_eq_ok.mp h
  unfold placed at hy
  rw [hlast] at hy
  dsimp only at hy
  rw [hnext, ok_bind] at hy
  cases hy
  obtain ⟨waiting, -, h⟩ := bind_eq_ok.mp h
  dsimp only at h
  split at h
  · cases h
  · obtain ⟨difficulty, hdifficulty, h⟩ := bind_eq_ok.mp h
    rw [Except.ok.injEq] at h
    split at h
    · rename_i henough
      cases h
      let x : Block :=
        { b with
          index := last.index + 1
          timestamp := mined.secs
          random := random
          nonce := nonce
          prevBlockHash := last.hash }
      exact ⟨x, ⟨hindex, rfl, rfl, rfl, rfl, rfl, rfl, rfl, rfl⟩, rfl, difficulty, hdifficulty,
        henough⟩
    · cases h

/-- **A mined block has its hash and its signature.** -/
theorem checkBlockHash_signed {x : Block} (hhash : x.hash = Bytes.default)
    (hsignature : x.signature = Bytes.default) :
    checkBlockHash P ({ x with hash := P.blakeout x.asBytesCompact }.signed keystore) := by
  have hclear : { { x with hash := P.blakeout x.asBytesCompact }.signed keystore with
      hash := Bytes.default, signature := Bytes.default } = x := by
    cases x
    subst hhash hsignature
    rfl
  unfold checkBlockHash
  rw [hclear]
  exact decide_eq_true rfl

theorem checkBlockSignature_signed {x : Block} (hpubKey : x.pubKey = keystore.getPublic)
    (hsignature : x.signature = Bytes.default) :
    checkBlockSignature P (x.signed keystore) = .ok true := by
  have hclear : { x.signed keystore with signature := Bytes.default } = x := by
    cases x
    subst hsignature
    rfl
  have hkey : (x.signed keystore).pubKey = keystore.getPublic := hpubKey
  have hsign : (x.signed keystore).signature = keystore.sign x.asBytesCompact := rfl
  unfold checkBlockSignature keystoreCheck
  rw [hclear, hkey, hsign, if_neg (not_not.mpr keystore.getPublic_length),
    if_neg (not_not.mpr keystore.validKey_getPublic), Except.ok.injEq, decide_eq_true_eq]
  exact ⟨keystore.sign_length _, keystore.verify_sign _⟩

/-! ## The validator on an own signing block -/

/-- The signers are found again, with the memo that was left. -/
theorem getBlockSigners_again (h : c.getBlockSigners P full = .ok (signers, cache))
    (hne : signers ≠ []) :
    { c with signers := cache }.getBlockSigners P full = .ok (signers, cache) := by
  have hheight : { c with signers := cache }.getHeight = c.getHeight := rfl
  rw [getBlockSigners_eq] at h ⊢
  rw [hheight]
  split at h
  · cases h
    exact absurd rfl hne
  · rename_i hguard
    rw [if_neg hguard]
    split at h
    · cases h
    · rename_i htx
      rw [if_neg htx]
      split at h
      · rename_i hmemo
        cases h
        rw [if_pos hmemo]
      · obtain ⟨result, -, h⟩ := bind_eq_ok.mp h
        cases h
        have hmemo : (⟨full.index, signers⟩ : SignersCache).hasSignersFor full.index :=
          decide_eq_true ⟨rfl, hne⟩
        dsimp only
        rw [if_pos hmemo]

/-- The range in which `get_sign_block` looks for blocks of the key contains the other one. -/
theorem alreadySigned_of_alreadyMined {key : Bytes} {n : ℕ} {i : UInt64} {found : Bool}
    (h : c.alreadyMined key n i = .ok found) : c.alreadySigned key n i = .ok found := by
  induction n generalizing i with
  | zero => exact h
  | succ n ih =>
    unfold alreadyMined at h
    unfold alreadySigned
    cases hget : c.getBlock i with
    | none =>
      rw [hget] at h
      cases h
    | some x =>
      rw [hget] at h
      dsimp only at h ⊢
      by_cases hkey : x.pubKey = key
      · rw [if_pos hkey] at h ⊢
        exact h
      · rw [if_neg hkey] at h ⊢
        exact ih h

namespace MaySign

variable (hm : MaySign P now c keystore cache full last signers)
include hm

/-- The key is a signer, and has signed nothing above the full block. -/
theorem fresh (hle : full.index ≤ c.getHeight) : keystore.getPublic ∈ signers ∧
    c.alreadySigned keystore.getPublic (c.getHeight.toNat - full.index.toNat) (full.index + 1)
      = .ok false := by
  have hmay := hm.may
  have hleNat := UInt64.le_iff_toNat_le.mp hle
  unfold maySign at hmay
  split at hmay
  · rename_i hmem
    refine ⟨hmem, ?_⟩
    obtain ⟨mined, hmined, hmay⟩ := bind_eq_ok.mp hmay
    cases mined with
    | true => cases hmay
    | false =>
      rw [show c.getHeight.toNat + 1 - full.index.toNat = c.getHeight.toNat - full.index.toNat + 1
        by omega] at hmined
      apply alreadySigned_of_alreadyMined
      unfold alreadyMined at hmined
      split at hmined
      · cases hmined
      · split at hmined
        · cases hmined
        · exact hmined
  · cases hmay

/-- The signing rule for a block of the key on top of the chain, with the memo that was left. -/
theorem signStage (hle : full.index ≤ c.getHeight) (hheight : c.getHeight.toNat + 1 < 2 ^ 63)
    (hindex : b.index.toNat = c.getHeight.toNat + 1) (hkey : b.pubKey = keystore.getPublic)
    (htx : b.transaction = none) :
    ∃ s, { c with signers := cache }.signStage P b (some full) = .ok (true, s) := by
  obtain ⟨hmem, hfresh⟩ := hm.fresh hle
  obtain ⟨count, hcount, hopen⟩ := hm.open'
  have hleNat := UInt64.le_iff_toNat_le.mp hle
  have hstart : blockSignersStart < b.index := by
    have := UInt64.le_iff_toNat_le.mp hm.started
    rw [UInt64.lt_iff_toNat_lt]
    omega
  have hfew : c.getHeight.toNat - full.index.toNat < blockSignersAll := by
    have hsub : (c.getHeight - full.index).toNat = c.getHeight.toNat - full.index.toNat :=
      UInt64.toNat_sub_of_le _ _ hle
    have hmin : blockSignersMin.toNat = 4 := by decide
    have hall : blockSignersAll = 7 := rfl
    rw [subU64_of_le hleNat, Except.ok.injEq] at hcount
    rw [← hcount, UInt64.lt_iff_toNat_lt] at hopen
    omega
  have hselected := getBlockSigners_again hm.selected (List.ne_nil_of_mem hmem)
  have hsigned : { c with signers := cache }.alreadySigned b.pubKey
      (b.index.toNat - (full.index + 1).toNat) (full.index + 1) = .ok false := by
    have hnext : (full.index + 1).toNat = full.index.toNat + 1 :=
      toNat_add_one (by omega)
    have hagree : AgreeBelow b.index c { c with signers := cache } := rfl
    rw [hagree.alreadySigned (by omega) (by omega), hkey, hnext, hindex,
      Nat.add_sub_add_right]
    exact hfresh
  have hle' : full.index ≤ { c with signers := cache }.getHeight := hle
  have hfew' : { c with signers := cache }.getHeight.toNat - full.index.toNat < blockSignersAll :=
    hfew
  rw [signStage_eq htx hstart hle', if_pos hfew']
  exact ⟨cache, isGoodSignerForBlock_eq_true hselected (hkey ▸ hmem) (by omega) hsigned⟩

end MaySign

/-- The previous hash of a block on top of a grounded chain is that of the stored predecessor. -/
theorem Grounded.checkParent_tip (hg : c.Grounded f) (hlast : c.lastBlock = some last)
    (hindex : b.index.toNat = last.index.toNat + 1) (hprev : b.prevBlockHash = last.hash) :
    c.checkParent P b = .ok none := by
  have hone : 1 ≤ b.index.toNat := by omega
  have hpred : b.index - 1 = last.index := by
    apply UInt64.toNat_inj.mp
    rw [toNat_sub_one hone]
    omega
  obtain ⟨a, ha, hrow⟩ := hg.tip last hlast
  have hhash : a.hash = last.hash := congrArg BlockRow.hash hrow
  have hsame : ¬ b.prevBlockHash ≠ a.collapse.hash := by
    rw [not_not, hprev, ← hhash]
    rfl
  rw [Chain.checkParent, subU64_one hone, ok_bind, hpred, getBlock, hg.db.getBlock, ha,
    Option.map_some]
  dsimp only
  rw [if_neg hsame]

/-- The block is not older than the tip: the node has waited for a minute. -/
theorem MaySign.not_lt (hm : MaySign P now c keystore cache full last signers) (hc : c.Clean f)
    {time : Int64} (hnow : now.secs ≤ time) : ¬ time < last.timestamp := by
  obtain ⟨a, ha, hrow⟩ := hc.tip last hm.tip
  have hvetted := ((hc.vetted _ a ha).congr hrow).timestamp
  have hlow := last.timestamp.le_toInt
  have hsixty : (60 : Int64).toInt = 60 := rfl
  obtain ⟨quiet, hquiet, hle⟩ := hm.quiet
  have hlower : -2 ^ 63 ≤ last.timestamp.toInt + (60 : Int64).toInt := by
    rw [hsixty]
    omega
  have hupper : last.timestamp.toInt + (60 : Int64).toInt < 2 ^ 63 := by
    rw [hsixty]
    omega
  rw [addI64_of_range hlower hupper, Except.ok.injEq] at hquiet
  rw [← hquiet, Int64.le_iff_toInt_le, toInt_add_of_range hlower hupper, hsixty] at hle
  rw [Int64.le_iff_toInt_le] at hnow
  rw [Int64.lt_iff_toInt_lt]
  omega

/-- The count of signatures and the tip are those that were looked at. -/
theorem MaySign.updateSignBlockForMining_eq {index : UInt64}
    (hm : MaySign P now c keystore cache full last signers)
    (hindex : addU64 P.checks last.index 1 = .ok index) (job : Block) :
    { c with signers := cache }.updateSignBlockForMining P job
      = .ok (some { job with index := index, prevBlockHash := last.hash }) := by
  obtain ⟨count, hcount, hopen⟩ := hm.open'
  have hcached : { c with signers := cache }.lastFullBlock = some full := hm.cached
  have hlast : { c with signers := cache }.lastBlock = some last := hm.tip
  have hsame : subU64 P.checks { c with signers := cache }.getHeight full.index = .ok count := hcount
  generalize { c with signers := cache } = c' at hcached hlast hsame ⊢
  unfold updateSignBlockForMining
  rw [hcached]
  dsimp only
  rw [hsame, ok_bind, if_neg (UInt64.not_le.mpr hopen), hlast]
  dsimp only
  rw [hindex, ok_bind]

/-- A signing block that is not the origin block declares what it needs. -/
theorem checkDeclaredDifficulty_signing (htx : b.transaction = none) (hne : b.index ≠ 1)
    (hdifficulty : b.difficulty = signerDifficulty) :
    c.checkDeclaredDifficulty P b = .ok none := by
  have hneeded : c.neededDifficulty P b = .ok signerDifficulty := by
    unfold neededDifficulty
    rw [htx]
    exact congrArg Except.ok (if_neg hne)
  refine bind_verdictIf_eq_none.mpr ⟨signerDifficulty, hneeded, ?_⟩
  rw [hdifficulty]
  exact UInt32.lt_irrefl _

theorem checkTransaction_signing {later : UtcTime} (htx : b.transaction = none) :
    c.checkTransaction P later b = .ok none := by
  unfold Chain.checkTransaction
  rw [htx]

/-- What is asked of a block on top, apart from its transaction and its difficulty. -/
theorem Grounded.passed_tip {mined later : UtcTime} {x job : Block} {hash : Bytes} {reached : ℕ}
    (hg : c.Grounded f) (hlast : c.lastBlock = some last) (hx : Unhashed x job last mined)
    (hversion : job.version = chainVersion) (hpubKey : job.pubKey = keystore.getPublic)
    (hempty : job.hash = Bytes.default) (hsignature : job.signature = Bytes.default)
    (hlater : mined.secs ≤ later.secs) (hhash : hash = P.blakeout x.asBytesCompact)
    (hreached : hashDifficulty hash = .ok reached) (henough : job.difficulty.toNat ≤ reached)
    (hwrong : hash ∉ wrongHashes)
    (hdeclared : c.checkDeclaredDifficulty P ({ x with hash := hash }.signed keystore) = .ok none)
    (htransaction : c.checkTransaction P later ({ x with hash := hash }.signed keystore) = .ok none) :
    Passed P later c ({ x with hash := hash }.signed keystore) c.lastBlock := by
  subst hhash
  obtain ⟨hnext, hnextNat⟩ := hg.addU64_tip (P := P) hlast
  have hindex : x.index = last.index + 1 := by
    apply UInt64.toNat_inj.mp
    rw [hx.index, hnextNat]
  refine ⟨?_, ?_, ?_, ?_, hdeclared, ?_, ?_, ?_, ?_, htransaction⟩
  · rw [checkVersion, Except.ok.injEq, verdictIf_eq_none]
    show ¬ x.version > chainVersion
    rw [hx.version, hversion]
    decide
  · rw [checkWrongHash, Except.ok.injEq, verdictIf_eq_none]
    exact hwrong
  · rw [checkClock_eq, Except.ok.injEq, verdictIf_eq_none]
    show ¬ later.secs.toInt + 60 < x.timestamp.toInt
    rw [hx.timestamp]
    rw [Int64.le_iff_toInt_le] at hlater
    omega
  · rw [hlast, checkAhead, hnext, ok_bind, Except.ok.injEq, verdictIf_eq_none]
    show ¬ x.index > last.index + 1
    rw [hindex]
    exact UInt64.lt_irrefl _
  · refine bind_verdictIf_eq_none.mpr ⟨reached, hreached, ?_⟩
    show ¬ reached < x.difficulty.toNat
    rw [hx.difficulty]
    omega
  · rw [checkHash, Except.ok.injEq, verdictIf_eq_none, not_not]
    exact checkBlockHash_signed (hx.hash.trans hempty) (hx.signature.trans hsignature)
  · refine bind_verdictIf_eq_none.mpr ⟨true, ?_, by simp⟩
    exact checkBlockSignature_signed (hx.pubKey.trans hpubKey) (hx.signature.trans hsignature)
  · exact hg.checkParent_tip hlast hx.index hx.prevBlockHash

/-- And if it is not older than the tip, its place is good once the signing rule is kept. -/
theorem checkPosition_tip {mined : UtcTime} {x job : Block} {hash : Bytes} {lastFull : Option Block}
    (hg : c.Grounded f) (hlast : c.lastBlock = some last) (hx : Unhashed x job last mined)
    (htime : ¬ mined.secs < last.timestamp)
    (hsign : c.signStage P ({ x with hash := hash }.signed keystore) lastFull = .ok (true, s)) :
    c.checkPosition P ({ x with hash := hash }.signed keystore) (some last) lastFull
      = .ok (.good, s) := by
  obtain ⟨hnext, hnextNat⟩ := hg.addU64_tip (P := P) hlast
  have hindex := hx.index
  have habove : last.index < x.index := UInt64.lt_iff_toNat_lt.mpr (by omega)
  rw [checkPosition_some accepting_good]
  refine ⟨?_, ⟨last.index + 1, hnext, ?_⟩, hsign, ?_⟩
  · rintro ⟨hbefore, -⟩
    have hbefore : x.timestamp < last.timestamp := hbefore
    rw [hx.timestamp] at hbefore
    exact htime hbefore
  · show ¬ last.index + 1 < x.index
    rw [UInt64.lt_iff_toNat_lt]
    omega
  · rw [compareWithTip_eq_good]
    exact Or.inr ⟨habove, hx.prevBlockHash⟩

end Chain

namespace Node

open Chain

variable {P : Platform} {n : Node} {now mined later : UtcTime} {b found : Block} {rng : ℕ}
  {keystore : Keystore P} {keys : List (Keystore P)} {cache : SignersCache}

/-- **Own signing blocks are accepted.**  When a node whose caches are coherent finds that it has to
sign, the block is ready to be mined on the same state, and whatever `find_hash` makes of it, at a
later reading of the clock and with any random numbers, is a good block once it is signed, unless
its hash is one of the wrong ones. -/
theorem getSignBlock_good (hn : n.Reachable P) (htip : n.chain.TipCoherent) (hcoherent : n.chain.Coherent)
    (h : n.chain.getSignBlock P now rng keys = .ok (some (b, keystore), cache)) :
    ∃ job, { n.chain with signers := cache }.updateSignBlockForMining P
        { b.toMine with pubKey := keystore.getPublic } = .ok (some job) ∧
      ∀ (mined later : UtcTime) (random : UInt32) (nonce : UInt64) (found : Block),
        now.secs ≤ mined.secs → mined.secs ≤ later.secs →
        { n.chain with signers := cache }.findHash P mined random nonce job = .ok (some found) →
        found.hash ∉ wrongHashes →
        ∃ s, { n.chain with signers := cache }.checkNewBlock P later (found.signed keystore)
          = .ok (.good, s) := by
  obtain ⟨f, hc⟩ := hn.clean
  obtain ⟨full, last, signers, hm, index, hindex, rfl⟩ := getSignBlock_eq_some h
  have hg : { n.chain with signers := cache }.Grounded f := hc.toGrounded.congr rfl rfl
  have hle := full_le_height htip hcoherent hm.cached
  have hheight := hc.height_le
  have hmax := maxRows_lt
  have htipHeight := getHeight_of_some hm.tip
  refine ⟨{ Block.new none keystore.getPublic last.hash signerDifficulty with
    index := index, version := chainVersion }, hm.updateSignBlockForMining_eq hindex _, ?_⟩
  intro mined later random nonce found hnow hlater hfound hwrong
  obtain ⟨x, hx, rfl, reached, hreached, henough⟩ := findHash_eq_some hg hm.tip hfound
  have hxindex : x.index.toNat = n.chain.getHeight.toNat + 1 := by
    rw [htipHeight]
    exact hx.index
  have htx : ({ x with hash := P.blakeout x.asBytesCompact }.signed keystore).transaction = none :=
    hx.transaction
  obtain ⟨s, hsign⟩ := hm.signStage
    (b := { x with hash := P.blakeout x.asBytesCompact }.signed keystore) hle (by omega) hxindex
    hx.pubKey htx
  refine ⟨s, (checkBlock_accepting accepting_good).mpr ⟨?_, ?_⟩⟩
  · have hne : x.index ≠ 1 := by
      have := UInt64.le_iff_toNat_le.mp hm.started
      have hstart : blockSignersStart.toNat = 35 := by decide
      intro hone
      rw [hone, one_toNat] at hxindex
      omega
    exact hg.passed_tip hm.tip hx rfl rfl rfl rfl hlater rfl hreached henough hwrong
      (checkDeclaredDifficulty_signing htx hne hx.difficulty) (checkTransaction_signing htx)
  · have hcached : { n.chain with signers := cache }.lastFullBlock = some full := hm.cached
    have hlast : { n.chain with signers := cache }.lastBlock = some last := hm.tip
    rw [hcached, hlast]
    exact checkPosition_tip hg hlast hx (hm.not_lt hc hnow) hsign

end Node

namespace Sample

theorem sign_length (_ : List UInt8) : Bytes.length ⟨List.replicate 64 1⟩ = 64 := by decide

/-- The key of the first signer of block 35. -/
def keystore : Keystore (platform true) where
  getPublic := key 10
  sign _ := ⟨List.replicate 64 1⟩
  getPublic_length := by decide
  validKey_getPublic := by decide
  sign_length := sign_length
  verify_sign _ := rfl

/-- What it has to sign on top of block 35. -/
def unsigned36 : Block :=
  { Block.new none Bytes.default full35.hash signerDifficulty with index := 36 }

end Sample

namespace Node

/-- On top of full block 35, its first signer. -/
theorem getSignBlock_good_signing36 : ∃ n : Node, ∃ b keystore cache job found,
    n.Reachable (Sample.platform true) ∧ n.chain.TipCoherent ∧ n.chain.Coherent ∧
    n.chain.getSignBlock (Sample.platform true) Sample.now 0 [Sample.keystore]
      = .ok (some (b, keystore), cache) ∧
    { n.chain with signers := cache }.findHash (Sample.platform true) Sample.now 0 36 job
      = .ok (some found) ∧
    ∃ s, { n.chain with signers := cache }.checkNewBlock (Sample.platform true) Sample.now
      (found.signed keystore) = .ok (.good, s) := by
  have hrun : ∃ n, receive (Sample.platform true) Sample.now (Sample.early ++ [Sample.full35])
        (fresh Sample.genesis.hash) = .ok n
      ∧ n.chain.TipCoherent ∧ n.chain.Coherent
      ∧ ∃ r, n.chain.getSignBlock (Sample.platform true) Sample.now 0 [Sample.keystore] = .ok r
        ∧ (r.1.map fun p => (p.1, p.2.getPublic)) = some (Sample.unsigned36, Sample.key 10)
        ∧ ∃ q, { n.chain with signers := r.2 }.updateSignBlockForMining (Sample.platform true)
            { Sample.unsigned36.toMine with pubKey := Sample.key 10 } = .ok q
          ∧ ∃ x, { n.chain with signers := r.2 }.findHash (Sample.platform true) Sample.now 0 36
              (q.getD Sample.genesis) = .ok x
            ∧ x.isSome ∧ ∀ found ∈ x, found.hash ∉ wrongHashes := by
    decide +kernel
  obtain ⟨n, hn, htip, hcoherent, ⟨sign, cache⟩, hsign, hkey, q, hupdate, x, hfound, hsome,
    hwrong⟩ := hrun
  have hreach : n.Reachable (Sample.platform true) :=
    ⟨Sample.genesis.hash, receive_run (fun _ _ _ => trivial) hn⟩
  obtain ⟨⟨b, keystore⟩, rfl, hpair⟩ := Option.map_eq_some_iff.mp hkey
  obtain ⟨hb, hpublic⟩ := Prod.mk.inj hpair
  obtain ⟨found, rfl⟩ := Option.isSome_iff_exists.mp hsome
  obtain ⟨job, hjob, hgood⟩ := getSignBlock_good hreach htip hcoherent hsign
  rw [show b = Sample.unsigned36 from hb, show keystore.getPublic = Sample.key 10 from hpublic,
    hupdate, Except.ok.injEq] at hjob
  subst hjob
  exact ⟨n, b, keystore, cache, job, found, hreach, htip, hcoherent, hsign, hfound,
    hgood _ _ 0 36 found (Int64.le_refl _) (Int64.le_refl _) hfound (hwrong found rfl)⟩

end Node
