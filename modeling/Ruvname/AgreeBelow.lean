/-
# Judging a block again on another chain

Most of what the validator asks about a block of index `i` concerns the stored blocks below
`i`.  Two chains that agree there give the same answers: the queries, the identity check,
the search for signers and the loop over earlier signatures.  What may differ is what refers
to the tip, to the height and to the caches.

Every argument that compares two states of a node, an earlier and a later one or one before
and one after a truncation, goes through the congruence lemmas of this module.
-/
import Ruvname.Vetted

open Exec

namespace Chain

variable {P : Platform} {now : UtcTime} {c c' c'' : Chain} {b full : Block} {f : Ledger} {i : UInt64}

/-- The two chains have the same rows below an index. -/
def AgreeBelow (i : UInt64) (c c' : Chain) : Prop :=
  c'.db.truncateFromBlock i = c.db.truncateFromBlock i

namespace AgreeBelow

/-- A chain agrees with itself. -/
theorem refl (i : UInt64) (c : Chain) : AgreeBelow i c c := rfl

theorem symm (h : AgreeBelow i c c') : AgreeBelow i c' c := Eq.symm h

theorem trans (h : AgreeBelow i c c') (h' : AgreeBelow i c' c'') : AgreeBelow i c c'' :=
  Eq.trans h' h

/-- A truncation changes nothing below it. -/
theorem of_truncate (h : c'.db = c.db.truncateFromBlock i) : AgreeBelow i c c' := by
  unfold AgreeBelow
  rw [h]
  apply Db.ext
  · exact Table.deleteFrom_deleteFrom le_rfl
  · exact Table.deleteFrom_deleteFrom le_rfl
  · rfl

/-- Agreement below an index is agreement below every smaller one. -/
theorem mono {j : UInt64} (h : AgreeBelow i c c') (hji : asI64 j ≤ asI64 i) : AgreeBelow j c c' := by
  have htwice : ∀ db : Db, (db.truncateFromBlock i).truncateFromBlock j = db.truncateFromBlock j := by
    intro db
    apply Db.ext
    · exact Table.deleteFrom_deleteFrom hji
    · exact Table.deleteFrom_deleteFrom hji
    · rfl
  unfold AgreeBelow
  rw [← htwice c'.db, show c'.db.truncateFromBlock i = _ from h, htwice c.db]

/-- Chains that agree below an index agree below each lower one. -/
theorem below {j : UInt64} (h : AgreeBelow i c c') (hi : i.toNat < 2 ^ 63) (hj : j.toNat ≤ i.toNat) :
    AgreeBelow j c c' :=
  h.mono (asI64_le_asI64 hi hj)

/-! ## Queries -/

/-- Blocks below the index are the same. -/
theorem getBlock {j : UInt64} (h : AgreeBelow i c c') (hj : asI64 j < asI64 i) :
    c'.getBlock j = c.getBlock j := by
  unfold Chain.getBlock
  rw [← Db.getBlock_truncateFromBlock hj, show c'.db.truncateFromBlock i = _ from h,
    Db.getBlock_truncateFromBlock hj]

/-- So are the registrations. -/
theorem domainById {identity : Bytes} {height : UInt64} (h : AgreeBelow i c c')
    (hi : asI64 height ≤ asI64 i) :
    c'.db.domainById identity height = c.db.domainById identity height := by
  rw [← Db.domainById_truncateFromBlock hi, show c'.db.truncateFromBlock i = _ from h,
    Db.domainById_truncateFromBlock hi]

/-- So are the last full blocks. -/
theorem lastFullBlock {key : Option Bytes} {before : UInt64} (h : AgreeBelow i c c')
    (hi : asI64 before ≤ asI64 i) :
    c'.db.lastFullBlock before key = c.db.lastFullBlock before key := by
  rw [← Db.lastFullBlock_truncateFromBlock hi, show c'.db.truncateFromBlock i = _ from h,
    Db.lastFullBlock_truncateFromBlock hi]

/-- So are the numbers of blocks of a key. -/
theorem userBlockCount {key : Bytes} {height : UInt64} (h : AgreeBelow i c c')
    (hi : asI64 height ≤ asI64 i) :
    c'.db.userBlockCount key height = c.db.userBlockCount key height := by
  rw [← Db.userBlockCount_truncateFromBlock hi, show c'.db.truncateFromBlock i = _ from h,
    Db.userBlockCount_truncateFromBlock hi]

/-- The questions about a domain have the same answers. -/
theorem isDomainInBlockchain {identity : Bytes} (h : AgreeBelow i c c') :
    c'.isDomainInBlockchain i identity = c.isDomainInBlockchain i identity := by
  rw [Chain.isDomainInBlockchain, h.domainById le_rfl, Chain.isDomainInBlockchain]

theorem getDomainUpdateTime {identity : Bytes} {time : Int64} (h : AgreeBelow i c c') :
    c'.getDomainUpdateTime P identity i time = c.getDomainUpdateTime P identity i time := by
  unfold Chain.getDomainUpdateTime
  rw [h.domainById le_rfl]

theorem isIdAvailable {identity key : Bytes} {height : UInt64} {time : Int64} (h : AgreeBelow i c c')
    (hi : asI64 height ≤ asI64 i) :
    c'.isIdAvailable P height time identity key = c.isIdAvailable P height time identity key := by
  unfold Chain.isIdAvailable Chain.getIdentityTransactionAndState
  rw [h.domainById hi]

/-! ## Checks -/

/-- The identity check looks below the predecessor. -/
theorem checkIdentity {t : Transaction} (h : AgreeBelow b.index c c') (hone : 1 ≤ b.index.toNat)
    (hlt : b.index.toNat < 2 ^ 63) : c'.checkIdentity P now b t = c.checkIdentity P now b t := by
  have hpred : asI64 (b.index - 1) ≤ asI64 b.index :=
    asI64_le_asI64 hlt (by rw [toNat_sub_one hone]; omega)
  unfold Chain.checkIdentity
  rw [subU64_one hone, ok_bind, ok_bind, h.isIdAvailable hpred]

/-- The check of the records looks at the zones only. -/
theorem checkRecords {t : Transaction} (hzones : c'.zones = c.zones) :
    c'.checkRecords P t = c.checkRecords P t := by
  unfold Chain.checkRecords
  rw [hzones]

/-- A block that is linked to its stored predecessor is so on the other chain. -/
theorem checkParent (h : AgreeBelow b.index c c') (hone : 1 ≤ b.index.toNat)
    (hlt : b.index.toNat < 2 ^ 63) (hp : c.checkParent P b = .ok none) :
    c'.checkParent P b = .ok none := by
  have hpred : asI64 (b.index - 1) < asI64 b.index :=
    asI64_lt_asI64 hlt (by rw [toNat_sub_one hone]; omega)
  have hsub' : subU64 P.checks b.index 1 = .ok (b.index - 1) :=
    subU64_one hone
  rw [Chain.checkParent, hsub', ok_bind] at hp
  rw [Chain.checkParent, hsub', ok_bind, h.getBlock hpred]
  cases hget : c.getBlock (b.index - 1) with
  | none => rfl
  | some prev =>
    rw [hget] at hp
    simp only at hp ⊢
    by_cases hne : b.prevBlockHash ≠ prev.hash
    · rw [if_pos hne] at hp
      obtain ⟨depth, -, hdepth⟩ := bind_eq_ok.mp hp
      cases hdepth
    · rw [if_neg hne]

end AgreeBelow

/-! ## The search for signers -/

/-- The signers of a full block as `get_block_signers` computes them when they are not in
the memo. -/
def selectSigners (P : Platform) (c : Chain) (full : Block) : Exec (List Bytes) := do
  let tail ← full.signature.getTailU64 P.checks
  let window ← subU64 P.checks full.index 1
  c.searchSigners P full (if full.index < 855 then 1 else (asI64 full.index).tdiv 100) window P.fuel
    (UInt64.ofNat tail) 1 false []

/-- **`get_block_signers`**, with the search set apart. -/
theorem getBlockSigners_eq (c : Chain) (full : Block) :
    c.getBlockSigners P full =
      if full.index < blockSignersStart ∨ c.getHeight < full.index then .ok ([], c.signers)
      else if full.transaction.isNone then
        .error (.expect "assertion failed: block.transaction.is_some()")
      else if c.signers.hasSignersFor full.index then .ok (c.signers.signers, c.signers)
      else c.selectSigners P full >>= fun result => .ok (result, ⟨full.index, result⟩) := by
  simp only [getBlockSigners, selectSigners, bind_assoc]

/-- The positions drawn by the search lie inside the window. -/
theorem drawn_le (tail count : UInt64) {window : UInt64} (hw : 1 ≤ window.toNat)
    (hlt : window.toNat < 2 ^ 63) :
    (tail * count % window + 1).toNat ≤ window.toNat := by
  have hmod : (tail * count % window).toNat < window.toNat := by
    rw [UInt64.toNat_mod]
    exact Nat.mod_lt _ hw
  rw [toNat_add_one (by omega)]
  omega

/-- The search reads the blocks of the window and counts blocks below the full one. -/
theorem AgreeBelow.searchSigners {minimum : ℤ} {window : UInt64} (h : AgreeBelow full.index c c')
    (hw : 1 ≤ window.toNat) (hwindow : window.toNat < full.index.toNat)
    (hlt : full.index.toNat < 2 ^ 63) (fuel : ℕ) (tail count : UInt64) (mitigated : Bool)
    (result : List Bytes) :
    c'.searchSigners P full minimum window fuel tail count mitigated result
      = c.searchSigners P full minimum window fuel tail count mitigated result := by
  induction fuel generalizing tail count mitigated result with
  | zero => rfl
  | succ fuel ih =>
    have hdrawn := drawn_le tail count hw (by omega)
    have hget : c'.getBlock (tail * count % window + 1) = c.getBlock (tail * count % window + 1) :=
      h.getBlock (asI64_lt_asI64 hlt (by omega))
    have hcount : ∀ key, c'.db.userBlockCount key full.index = c.db.userBlockCount key full.index :=
      fun key => h.userBlockCount le_rfl
    unfold Chain.searchSigners
    simp only [hget, hcount, ih]

/-- Chains that agree below a full block select the same signers for it. -/
theorem AgreeBelow.selectSigners (h : AgreeBelow full.index c c') (hstart : blockSignersStart ≤ full.index)
    (hlt : full.index.toNat < 2 ^ 63) : c'.selectSigners P full = c.selectSigners P full := by
  have htwo := two_le_of_signersStart hstart
  have hone : 1 ≤ full.index.toNat := by omega
  have hsub := toNat_sub_one hone
  unfold Chain.selectSigners
  cases full.signature.getTailU64 P.checks with
  | error e => rfl
  | ok tail =>
    rw [ok_bind, ok_bind, subU64_one hone, ok_bind, ok_bind]
    exact h.searchSigners (by omega) (by omega) hlt _ _ _ _ _

/-- The search only looks at the index, the key and the signature of the full block. -/
theorem selectSigners_congr {x : Block} (hindex : x.index = full.index)
    (hkey : x.pubKey = full.pubKey) (hsignature : x.signature = full.signature) :
    c.selectSigners P x = c.selectSigners P full := by
  have hsearch : ∀ minimum window fuel tail count mitigated result,
      c.searchSigners P x minimum window fuel tail count mitigated result
        = c.searchSigners P full minimum window fuel tail count mitigated result := by
    intro minimum window fuel
    induction fuel with
    | zero => intros; rfl
    | succ fuel ih =>
      intro tail count mitigated result
      unfold searchSigners
      simp only [ih, hindex, hkey]
  unfold selectSigners
  simp only [hsearch, hindex, hsignature]

/-- Only the database matters for the search. -/
theorem selectSigners_of_db (hdb : c'.db = c.db) (full : Block) :
    c'.selectSigners P full = c.selectSigners P full := by
  have hget : ∀ j, c'.getBlock j = c.getBlock j := by
    intro j
    rw [getBlock, hdb, getBlock]
  have hsearch : ∀ minimum window fuel tail count mitigated result,
      c'.searchSigners P full minimum window fuel tail count mitigated result
        = c.searchSigners P full minimum window fuel tail count mitigated result := by
    intro minimum window fuel
    induction fuel with
    | zero => intros; rfl
    | succ fuel ih =>
      intro tail count mitigated result
      unfold searchSigners
      simp only [ih, hget, hdb]
  unfold selectSigners
  simp only [hsearch]

/-- The search does not look at the memo. -/
theorem selectSigners_withSigners (c : Chain) (s : SignersCache) (full : Block) :
    { c with signers := s }.selectSigners P full = c.selectSigners P full := by
  apply selectSigners_of_db
  rfl

/-! ## Earlier signatures -/

/-- The loop over the blocks between the full block and this one. -/
theorem AgreeBelow.alreadySigned {key : Bytes} {n : ℕ} {j : UInt64} (h : AgreeBelow i c c')
    (hi : i.toNat < 2 ^ 63) (hn : j.toNat + n ≤ i.toNat) :
    c'.alreadySigned key n j = c.alreadySigned key n j := by
  induction n generalizing j with
  | zero => rfl
  | succ n ih =>
    have hget : c'.getBlock j = c.getBlock j := h.getBlock (asI64_lt_asI64 hi (by omega))
    have hsucc : (j + 1).toNat = j.toNat + 1 := toNat_add_one (by omega)
    unfold Chain.alreadySigned
    rw [hget, ih (by omega)]

/-- What the loop answers: one of the blocks visited has the key. -/
theorem alreadySigned_eq_ok {key : Bytes} {n : ℕ} {j : UInt64} {signed : Bool}
    (hn : j.toNat + n < 2 ^ 64) (h : c.alreadySigned key n j = .ok signed) :
    signed = true ↔ ∃ k x, j.toNat ≤ k ∧ k < j.toNat + n ∧ c.getBlock (UInt64.ofNat k) = some x
      ∧ x.pubKey = key := by
  induction n generalizing j with
  | zero =>
    cases h
    constructor
    · intro h
      cases h
    · rintro ⟨k, x, h₁, h₂, -⟩
      omega
  | succ n ih =>
    have hsucc : (j + 1).toNat = j.toNat + 1 := toNat_add_one (by omega)
    have hself : UInt64.ofNat j.toNat = j := UInt64.ofNat_toNat
    unfold alreadySigned at h
    cases hget : c.getBlock j with
    | none =>
      rw [hget] at h
      cases h
    | some y =>
      rw [hget] at h
      simp only at h
      by_cases hkey : y.pubKey = key
      · rw [if_pos hkey] at h
        cases h
        refine ⟨fun _ => ⟨j.toNat, y, le_rfl, by omega, by rw [hself, hget], hkey⟩, fun _ => rfl⟩
      · rw [if_neg hkey] at h
        rw [ih (by omega) h]
        constructor
        · rintro ⟨k, x, h₁, h₂, h₃⟩
          exact ⟨k, x, by omega, by omega, h₃⟩
        · rintro ⟨k, x, h₁, h₂, hx, hxkey⟩
          refine ⟨k, x, ?_, by omega, hx, hxkey⟩
          by_contra hlt
          have hk : k = j.toNat := by omega
          rw [hk, hself, hget, Option.some.injEq] at hx
          exact hkey (hx ▸ hxkey)

end Chain
