/-
# Who signs a full block

Up to `BLOCK_SIGNERS_ALL` signing blocks on top of a full block must come from distinct
keys out of the list drawn for that block.  The validator tests this block by block: against
a memo of the list, against the cached full block, and against the stored blocks between the
two.  In a chain that only grows at its tip these stay aligned, and the tests add up to the
rule for the whole stretch.
-/
import Ruvname.History
import Ruvname.Quorum
import Ruvname.Position

open Exec

namespace Chain

variable {P : Platform} {now : UtcTime} {c c' : Chain} {b x y full : Block} {f : Ledger}
  {s : SignersCache} {log : List (UtcTime × Block)} {signers : List Bytes}

/-! ## The list of signers -/

/-- The search never collects the key of the full block itself. -/
theorem ne_of_mem_searchSigners {minimum : ℤ} {window : UInt64} {fuel : ℕ} {tail count : UInt64}
    {mitigated : Bool} {result : List Bytes} (hresult : ∀ k ∈ result, k ≠ full.pubKey)
    (h : c.searchSigners P full minimum window fuel tail count mitigated result = .ok signers) :
    ∀ k ∈ signers, k ≠ full.pubKey := by
  induction fuel generalizing tail count mitigated result with
  | zero =>
    unfold searchSigners at h
    split at h
    · cases h
    · cases h
      exact hresult
  | succ fuel ih =>
    -- one more key at most, and it was compared with that of the full block
    have hnew : ∀ k, k ≠ full.pubKey → ∀ k' ∈ result ++ [k], k' ≠ full.pubKey := by
      intro k hk k' hk'
      rcases List.mem_append.mp hk' with hk' | hk'
      · exact hresult k' hk'
      · rw [List.mem_singleton.mp hk']
        exact hk
    unfold searchSigners at h
    split at h
    · cases h
      exact hresult
    · obtain ⟨next, -, h⟩ := bind_eq_ok.mp h
      split at h
      · split at h
        · exact ih hresult h
        · split at h
          · rename_i hkey
            dsimp only at h
            split at h
            · exact ih (hnew _ hkey.1) h
            · exact ih (hnew _ hkey.1) h
          · dsimp only at h
            split at h
            · exact ih hresult h
            · exact ih hresult h
      · split at h
        · exact ih hresult h
        · exact ih hresult h

theorem ne_of_mem_selectSigners (h : c.selectSigners P full = .ok signers) :
    ∀ k ∈ signers, k ≠ full.pubKey := by
  obtain ⟨tail, -, h⟩ := bind_eq_ok.mp h
  obtain ⟨window, -, h⟩ := bind_eq_ok.mp h
  exact ne_of_mem_searchSigners (fun k hk => by cases hk) h

/-! ## One signing block -/

/-- **What the signing rule has tested** on a good signing block with few blocks between it
and the cached full block: its key is on the list and has not signed yet. -/
theorem Settled.goodSigner (hs : c.Settled P f) (hgood : c.checkNewBlock P now b = .ok (.good, s))
    (htx : b.transaction = none) (hstart : blockSignersStart < b.index)
    (hfull : c.lastFullBlock = some full)
    (hfew : c.getHeight.toNat - full.index.toNat < blockSignersAll) :
    ∃ signers s', c.getBlockSigners P full = .ok (signers, s') ∧ b.pubKey ∈ signers
      ∧ c.alreadySigned b.pubKey (b.index.toNat - (full.index + 1).toNat) (full.index + 1)
        = .ok false := by
  have hheight := UInt64.le_iff_toNat_le.mp (hs.index_le hfull)
  have hbound := hs.height_le
  have hmax := maxRows_lt
  have hpos := ((checkBlock_accepting accepting_good).mp hgood).2
  -- the chain is not empty: it holds the full block
  cases hl : c.lastBlock with
  | none =>
    obtain ⟨x, ⟨hx, -⟩, -⟩ := hs.stored_full hfull
    rw [hs.empty hl] at hx
    cases hx
  | some l =>
    rw [hl, checkPosition_some accepting_good] at hpos
    have hsign := hpos.2.2.1
    rw [signStage, if_pos hstart] at hsign
    unfold isGoodSignBlock at hsign
    simp only [hfull, subU64_of_le hheight, ok_bind, htx, Option.isSome_none, Bool.false_eq_true, and_false,
      if_false, Option.isNone_none, and_true] at hsign
    have hcount : (c.getHeight - full.index).toNat = c.getHeight.toNat - full.index.toNat :=
      UInt64.toNat_sub_of_le _ _ (hs.index_le hfull)
    rw [hcount, if_pos hfew, ite_self] at hsign
    obtain ⟨⟨signers, cache⟩, hget, hsign⟩ := bind_eq_ok.mp hsign
    refine ⟨signers, cache, hget, ?_⟩
    simp only at hsign
    by_cases hmem : b.pubKey ∈ signers
    · rw [if_neg (not_not_intro hmem)] at hsign
      have hadd : addU64 P.checks full.index 1 = .ok (full.index + 1) :=
        addU64_one (by omega)
      rw [hadd, ok_bind] at hsign
      obtain ⟨signed, hsigned, hsign⟩ := bind_eq_ok.mp hsign
      refine ⟨hmem, ?_⟩
      rw [hsigned]
      cases signed with
      | false => rfl
      | true => cases hsign
    · rw [if_pos hmem] at hsign
      cases hsign

/-- The full block cached before a signing block was judged is the one that has only
signing blocks between the two. -/
theorem Settled.lastFullBlock_eq (hs : c.Settled P f) {p : ℕ} (hx : f p = some x)
    (hfull : x.transaction.isSome) (hsigning : ∀ m y, f m = some y → p < m → y.transaction = none) :
    ∃ full, c.lastFullBlock = some full ∧ full.index = x.index ∧ full.pubKey = x.pubKey
      ∧ full.signature = x.signature := by
  have hlast := hs.full
  have hindex : x.index.toNat = p := hs.db.index p x hx
  cases hcached : c.lastFullBlock with
  | none =>
    rw [hcached] at hlast
    have hnone := hlast p x hx
    rw [Option.isNone_iff_eq_none] at hnone
    rw [hnone] at hfull
    cases hfull
  | some full =>
    rw [hcached] at hlast
    obtain ⟨⟨a, ha, hrow⟩, hsome, hgreatest⟩ := hlast
    have hle := hgreatest p x hx hfull
    -- a full block above `x` would be one of the signing blocks
    have heq : full.index.toNat = p := by
      by_contra hne
      have hnone := hsigning full.index.toNat a ha (by omega)
      have hafull := Ledger.isSome_of_ofBlock hrow
      rw [hnone, hsome] at hafull
      cases hafull
    rw [heq, hx, Option.some.injEq] at ha
    subst ha
    have hkey : x.pubKey = full.pubKey := congrArg BlockRow.pubKey hrow
    have hsignature : x.signature = full.signature := congrArg BlockRow.signature hrow
    exact ⟨full, rfl, UInt64.toNat_inj.mp (by omega), hkey.symm, hsignature.symm⟩

/-- **The rule for one signing block of the stretch above a full block.** -/
theorem History.goodSigner (hh : History P c f log) {p m : ℕ} (hx : f p = some x)
    (hfull : x.transaction.isSome) (hstart : blockSignersStart < y.index) (hy : f m = some y)
    (hpm : p < m) (hm : m ≤ p + blockSignersAll)
    (hsigning : ∀ j z, f j = some z → p < j → j ≤ m → z.transaction = none) :
    blockSignersStart ≤ x.index ∧ ∃ signers, c.selectSigners P x = .ok signers ∧ y.pubKey ∈ signers
      ∧ ∀ j z, p < j → j < m → f j = some z → z.pubKey ≠ y.pubKey := by
  obtain ⟨now, c₀, s, hs₀, hagree, -, hheight, hgood⟩ := hh.judgedGood hy
  have hxindex : x.index.toNat = p := hh.settled.db.index p x hx
  have hyindex : y.index.toNat = m := hh.settled.db.index m y hy
  have hbound := hs₀.height_le
  have hmax := maxRows_lt
  have hx₀ : f.truncate y.index.toNat p = some x := by
    rw [Ledger.truncate_of_lt (by omega), hx]
  have hsigning₀ : ∀ j z, f.truncate y.index.toNat j = some z → p < j → z.transaction = none := by
    intro j z hz hpj
    obtain ⟨hjm, hz⟩ := Ledger.truncate_eq_some hz
    exact hsigning j z hz hpj (by omega)
  obtain ⟨full, hcached, hindex, hkey, hsignature⟩ := hs₀.lastFullBlock_eq hx₀ hfull hsigning₀
  have hall : blockSignersAll = 7 := rfl
  have hfew : c₀.getHeight.toNat - full.index.toNat < blockSignersAll := by
    rw [hindex]
    omega
  obtain ⟨signers, s', hsigners, hmem, hfresh⟩ := hs₀.goodSigner hgood (hsigning m y hy hpm le_rfl)
    hstart hcached hfew
  -- below the start the list is empty
  have hxstart : blockSignersStart ≤ x.index := by
    rw [← hindex]
    refine UInt64.not_lt.mp fun hlt => ?_
    rw [getBlockSigners_eq, if_pos (Or.inl hlt)] at hsigners
    cases hsigners
    cases hmem
  have hstart' := UInt64.le_iff_toNat_le.mp hxstart
  refine ⟨hxstart, signers, ?_, hmem, ?_⟩
  · -- the list of that time is the list of today
    have hselect := hs₀.selectSigners_cached hcached (hindex ▸ hxstart) hsigners
    rw [(hagree.below (by omega) (by omega)).selectSigners hxstart (by omega), ← hselect]
    exact selectSigners_congr hindex.symm hkey.symm hsignature.symm
  · -- the loop has visited every block in between
    intro j z hpj hjm hz hsame
    have hsucc : (full.index + 1).toNat = p + 1 := by
      rw [hindex, toNat_add_one (by omega), hxindex]
    have hloop := alreadySigned_eq_ok (by omega) hfresh
    have hfalse : ¬ (false = true) := by simp
    apply hfalse
    refine hloop.mpr ⟨j, z.collapse, by omega, by omega, ?_, hsame⟩
    have htoNat : (UInt64.ofNat j).toNat = j := UInt64.toNat_ofNat_of_lt' (by
      show j < 2 ^ 64
      omega)
    rw [getBlock, hs₀.db.getBlock, htoNat, Ledger.truncate_of_lt (by omega), hz, Option.map_some]

/-! ## The stretch above a full block -/

/-- The `k` blocks above a full block are stored signing blocks. -/
def SigningStretch (c : Chain) (full : Block) (k : ℕ) : Prop :=
  ∀ i, 1 ≤ i → i ≤ k → ∃ x, c.getBlock (full.index + UInt64.ofNat i) = some x ∧ x.transaction = none

/-- The keys of the `k` blocks above a full block are on the list, none is the key of the
full block, and no two are equal. -/
structure Disciplined (c : Chain) (full : Block) (signers : List Bytes) (k : ℕ) : Prop where
  chosen : ∀ i x, 1 ≤ i → i ≤ k → c.getBlock (full.index + UInt64.ofNat i) = some x →
    x.pubKey ∈ signers
  foreign : ∀ i x, 1 ≤ i → i ≤ k → c.getBlock (full.index + UInt64.ofNat i) = some x →
    x.pubKey ≠ full.pubKey
  distinct : ∀ i j x y, 1 ≤ i → i < j → j ≤ k → c.getBlock (full.index + UInt64.ofNat i) = some x →
    c.getBlock (full.index + UInt64.ofNat j) = some y → x.pubKey ≠ y.pubKey

/-- The signer discipline of a chain, as far as `get_block_signers` returns. -/
def SignerDiscipline (P : Platform) (c : Chain) : Prop :=
  ∀ full k signers s, c.getBlock full.index = some full → full.transaction.isSome →
    blockSignersStart ≤ full.index → 1 ≤ k → k ≤ blockSignersAll → c.SigningStretch full k →
    c.getBlockSigners P full = .ok (signers, s) → c.Disciplined full signers k

/-- The block at a distance above a stored one. -/
theorem getBlock_add (hr : c.db.Represents f) {k : ℕ} (hbound : full.index.toNat + k < 2 ^ 64) :
    c.getBlock (full.index + UInt64.ofNat k) = (f (full.index.toNat + k)).map Block.collapse := by
  have hk : (UInt64.ofNat k).toNat = k := UInt64.toNat_ofNat_of_lt' (by
    show k < 2 ^ 64
    omega)
  rw [getBlock, hr.getBlock, toNat_addU64 (by omega), hk]

theorem History.signerDiscipline (hh : History P c f log) : c.SignerDiscipline P := by
  intro full k signers s hget hfull hstart hone hk hstretch hsigners
  have hr := hh.settled.db
  have hall : blockSignersAll = 7 := rfl
  obtain ⟨x, hx, hcollapse⟩ : ∃ x, f full.index.toNat = some x ∧ x.collapse = full := by
    rw [getBlock, hr.getBlock] at hget
    exact Option.map_eq_some_iff.mp hget
  have hbound : full.index.toNat ≤ maxRows := hr.le_maxRows (by rw [hx]; rfl)
  have hmax := maxRows_lt
  have hstored : ∀ {i z}, i ≤ k → c.getBlock (full.index + UInt64.ofNat i) = some z →
      ∃ a, f (full.index.toNat + i) = some a ∧ a.collapse = z := by
    intro i z hi hz
    rw [getBlock_add hr (by omega)] at hz
    exact Option.map_eq_some_iff.mp hz
  have hxfull : x.transaction.isSome := by
    rw [← hcollapse, Block.collapse_transaction_isSome] at hfull
    exact hfull
  have hxindex : x.index = full.index := by rw [← hcollapse, Block.collapse_index]
  have hxkey : x.pubKey = full.pubKey := by rw [← hcollapse, Block.collapse_pubKey]
  have hxsignature : x.signature = full.signature := by rw [← hcollapse, Block.collapse_signature]
  have hsigning : ∀ j z, f j = some z → full.index.toNat < j → j ≤ full.index.toNat + k →
      z.transaction = none := by
    intro j z hz hlt hle
    obtain ⟨i, rfl⟩ : ∃ i, j = full.index.toNat + i := ⟨j - full.index.toNat, by omega⟩
    obtain ⟨w, hw, hnone⟩ := hstretch i (by omega) (by omega)
    obtain ⟨a, ha, rfl⟩ := hstored (by omega) hw
    rw [hz, Option.some.injEq] at ha
    subst ha
    have hsome := z.collapse_transaction_isSome
    rw [hnone] at hsome
    exact Option.isNone_iff_eq_none.mp (by simpa using hsome.symm)
  -- the list of the memo or of the search is the selected one
  have hselect : c.selectSigners P x = .ok signers := by
    have hheight : full.index ≤ c.getHeight :=
      UInt64.le_iff_toNat_le.mpr (hh.settled.top _ (by rw [hx]; rfl))
    rw [selectSigners_congr hxindex hxkey hxsignature, ← hh.settled.signers.getBlockSigners
      ⟨hx, hxindex, hxkey, hxsignature⟩ hstart hheight hfull, hsigners]
    rfl
  have hone : ∀ {i a}, 1 ≤ i → i ≤ k → f (full.index.toNat + i) = some a → a.pubKey ∈ signers
      ∧ ∀ j z, full.index.toNat < j → j < full.index.toNat + i → f j = some z → z.pubKey ≠ a.pubKey := by
    intro i a hi hik ha
    have haindex : a.index.toNat = full.index.toNat + i := hr.index _ _ ha
    have hstart' := UInt64.le_iff_toNat_le.mp hstart
    obtain ⟨-, drawn, hdrawn, hmem, hfresh⟩ := hh.goodSigner hx hxfull
      (UInt64.lt_iff_toNat_lt.mpr (by omega)) ha (by omega) (by omega) (fun j z hz hlt hle => hsigning j z hz hlt (by omega))
    rw [hselect, Except.ok.injEq] at hdrawn
    subst hdrawn
    exact ⟨hmem, hfresh⟩
  refine ⟨?_, ?_, ?_⟩
  · intro i z hi hik hz
    obtain ⟨a, ha, rfl⟩ := hstored hik hz
    exact (hone hi hik ha).1
  · intro i z hi hik hz
    obtain ⟨a, ha, rfl⟩ := hstored hik hz
    rw [← hxkey]
    exact ne_of_mem_selectSigners hselect a.pubKey (hone hi hik ha).1
  · intro i j z w hi hij hjk hz hw
    obtain ⟨a, ha, rfl⟩ := hstored (by omega) hz
    obtain ⟨d, hd, rfl⟩ := hstored hjk hw
    exact (hone (by omega) hjk hd).2 _ a (by omega) (by omega) ha

/-- **Signer discipline under appends.**  In every chain grown from an empty database by
good blocks of positive index, the keys of the up to seven signing blocks above a full block
are distinct, on its list of signers, and different from its own key. -/
theorem run_signerDiscipline {origin : Bytes}
    (run : Run (Grow P) GrowsAtTip (Chain.new origin Db.empty, []) (c, log)) :
    c.SignerDiscipline P := by
  obtain ⟨f, hh⟩ := run_history run
  exact hh.signerDiscipline

end Chain

namespace Chain

/-- Full block 35 with four signers. -/
theorem run_signerDiscipline_full35 : ∃ c log,
    Run (Grow (Sample.platform true)) GrowsAtTip (Chain.new Sample.genesis.hash Db.empty, []) (c, log)
      ∧ c.getHeight = 39 ∧ c.getBlock 35 = some Sample.full35
      ∧ (∃ r, c.getBlockSigners (Sample.platform true) Sample.full35 = .ok r ∧ r.1.length = 7)
      ∧ c.SignerDiscipline (Sample.platform true) := by
  have hrun : ∃ c, (Chain.new Sample.genesis.hash Db.empty).appendAll (Sample.platform true) Sample.now
        (Sample.early ++ Sample.full35 :: Sample.signers35) = .ok (some c)
      ∧ c.getHeight = 39 ∧ c.getBlock 35 = some Sample.full35
      ∧ ∃ r, c.getBlockSigners (Sample.platform true) Sample.full35 = .ok r ∧ r.1.length = 7 := by
    decide +kernel
  obtain ⟨c, hc, hheight, hget, hsigners⟩ := hrun
  have hpositive : ∀ b ∈ Sample.early ++ Sample.full35 :: Sample.signers35, b.index ≠ 0 := by
    decide +kernel
  have hgrow : Run (Grow (Sample.platform true)) GrowsAtTip (Chain.new Sample.genesis.hash Db.empty, [])
      (c, ((Sample.early ++ Sample.full35 :: Sample.signers35).map fun b => (Sample.now, b)).reverse
        ++ []) :=
    appendAll_grow [] (fun _ b hb => hpositive b hb) hc
  exact ⟨c, _, hgrow, hheight, hget, hsigners, run_signerDiscipline hgrow⟩

/-- In a build without overflow checks, a block of index 0 is judged good on top of the same
chain and becomes its tip.  The height is 0 then, and `get_block_signers` answers with an
empty list for the full block 35, whose signers stand above it. -/
theorem not_signerDiscipline_zeroBlock : ∃ c log,
    Run (Grow (Sample.platform false)) (fun _ _ => True)
        (Chain.new Sample.genesis.hash Db.empty, []) (c, log)
      ∧ ¬ c.SignerDiscipline (Sample.platform false) := by
  have hrun : ∃ c, (Chain.new Sample.genesis.hash Db.empty).appendAll (Sample.platform false) Sample.now
        (Sample.early ++ Sample.full35 :: Sample.signers35 ++ [Sample.zeroBlock]) = .ok (some c)
      ∧ c.getBlock 35 = some Sample.full35
      ∧ c.getBlock 36 = some (Sample.block 36 30 36 (Sample.hash [35]) (Sample.key 10) none)
      ∧ ∃ r, c.getBlockSigners (Sample.platform false) Sample.full35 = .ok r ∧ r.1 = [] := by
    decide +kernel
  obtain ⟨c, hc, hget, hnext, ⟨signers, s⟩, hsigners, hempty⟩ := hrun
  refine ⟨c, _, appendAll_grow [] (fun _ _ _ => trivial) hc, fun hdiscipline => ?_⟩
  have hstretch : c.SigningStretch Sample.full35 1 := by
    intro i h₁ h₂
    have hi : i = 1 := by omega
    subst hi
    exact ⟨_, hnext, rfl⟩
  have hchosen := (hdiscipline Sample.full35 1 signers s hget rfl (by decide) le_rfl (by decide)
    hstretch hsigners).chosen 1 _ le_rfl le_rfl hnext
  rw [show signers = [] from hempty] at hchosen
  cases hchosen

end Chain
