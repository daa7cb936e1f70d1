/-
# The memo of the signers

`get_block_signers` keeps the last list it has found, keyed by the index of the full block only.
It is asked about the cached last full block, and this changes in two ways: an append puts the new
full block at an index that no memo has, and a replacement clears the memo.  So the memo is never
about another block or about blocks that have been replaced (`Chain.MemoSound`), from the check at
startup on, whose loop carries a last full block of its own.
-/
import Ruvname.SignerSearch
import Ruvname.Startup

open Exec

namespace Chain

variable {P : Platform} {now : UtcTime} {c c' c₀ : Chain} {b full x : Block} {f : Ledger}
  {s : SignersCache} {signers : List Bytes}

/-! ## What the selection finds -/

/-- The chain with the blocks below the full one only, and with an empty memo. -/
def below (c : Chain) (full : Block) : Chain :=
  { c with db := c.db.truncateFromBlock full.index, signers := SignersCache.new }

/-- The signers as they should be: seven different keys, none of them the author's, each with blocks
enough, and all of it determined by the blocks below the full one. -/
structure SignersCorrect (P : Platform) (c : Chain) (full : Block) (signers : List Bytes) : Prop where
  length : signers.length = blockSignersAll
  nodup : signers.Nodup
  author : full.pubKey ∉ signers
  enough : ∀ key ∈ signers, minimumBlockCount full ≤ c.db.userBlockCount key full.index
  fresh : (c.below full).selectSigners P full = .ok signers

/-- The blocks from the full one on play no part. -/
theorem selectSigners_below (hstart : blockSignersStart ≤ full.index) (hlt : full.index.toNat < 2 ^ 63) :
    (c.below full).selectSigners P full = c.selectSigners P full := by
  exact (AgreeBelow.of_truncate rfl).selectSigners hstart hlt

/-- **The selection is correct**, when it comes to an end. -/
theorem signersCorrect_of_selectSigners (hstart : blockSignersStart ≤ full.index)
    (hlt : full.index.toNat < 2 ^ 63) (h : c.selectSigners P full = .ok signers) :
    c.SignersCorrect P full signers := by
  have hfresh := (selectSigners_below (P := P) (c := c) hstart hlt).trans h
  obtain ⟨tail, -, h⟩ := bind_eq_ok.mp h
  have htwo := two_le_of_signersStart hstart
  rw [subU64_one (by omega), ok_bind] at h
  obtain ⟨m, -, -, hcollected, hlength⟩ := collected_of_searchFrom le_rfl
    (fun _ => by norm_num) collected_one h
  have hdrawn : ∀ key ∈ signers, ∃ n, c.DrawnIn full (UInt64.ofNat tail) n key := by
    intro key hkey
    obtain ⟨n, -, -, hn⟩ := (hcollected.mem_iff key).mp hkey
    exact ⟨n, hn⟩
  refine ⟨hcollected.length_le.antisymm hlength, hcollected.nodup, ?_, ?_, hfresh⟩
  · intro hauthor
    obtain ⟨n, y, -, -, -, hne⟩ := hdrawn _ hauthor
    exact hne rfl
  · intro key hkey
    obtain ⟨n, y, -, heligible, rfl, -⟩ := hdrawn key hkey
    exact not_lt.mp heligible

/-! ## The invariant -/

/-- The memo is about an index up to the height, and if the cached full block has this index, it
holds the signers of this block. -/
structure MemoSound (P : Platform) (c : Chain) (f : Ledger) : Prop extends c.Grounded f where
  memo : c.signers.signers ≠ [] → blockSignersStart ≤ c.signers.index
    ∧ c.signers.index ≤ c.getHeight ∧ ∀ full, c.lastFullBlock = some full →
      full.index = c.signers.index → c.selectSigners P full = .ok c.signers.signers

namespace MemoSound

/-- What `get_block_signers` answers for the cached full block is selected, and so is what it keeps. -/
theorem getBlockSigners (hm : MemoSound P c f) (hfull : c.lastFullBlock = some full)
    (h : c.getBlockSigners P full = .ok (signers, s)) :
    (signers ≠ [] → blockSignersStart ≤ full.index ∧ full.index ≤ c.getHeight
      ∧ c.selectSigners P full = .ok signers) ∧ MemoSound P { c with signers := s } f := by
  rw [getBlockSigners_eq] at h
  split at h
  · cases h
    exact ⟨fun hne => absurd rfl hne, hm⟩
  · rename_i hguard
    rw [not_or, UInt64.not_lt, UInt64.not_lt] at hguard
    obtain ⟨hstart, hheight⟩ := hguard
    split at h
    · cases h
    · split at h
      · rename_i hmemo
        obtain ⟨hat, hne⟩ := of_decide_eq_true hmemo
        cases h
        obtain ⟨-, -, hselect⟩ := hm.memo hne
        exact ⟨fun _ => ⟨hstart, hheight, hselect full hfull hat.symm⟩, hm⟩
      · obtain ⟨result, hresult, h⟩ := bind_eq_ok.mp h
        cases h
        refine ⟨fun _ => ⟨hstart, hheight, hresult⟩, hm.toGrounded.congr rfl rfl, ?_⟩
        rintro -
        refine ⟨hstart, hheight, fun full' hfull' _ => ?_⟩
        rw [show c.lastFullBlock = some full' from hfull', Option.some.injEq] at hfull
        rw [selectSigners_withSigners, hfull]
        exact hresult

/-- Judging a block keeps the memo sound. -/
theorem judge (hm : MemoSound P c f) {q : BlockQuality}
    (h : c.checkNewBlock P now b = .ok (q, s)) : MemoSound P { c with signers := s } f := by
  rcases memo_cases_checkBlock h with rfl | ⟨full, signers, hfull, hget⟩
  · exact hm
  · exact (hm.getBlockSigners hfull hget).2

/-- So does appending a good block: a new full block has an index above that of the memo. -/
theorem append (hm : MemoSound P c f) (hb : b.index ≠ 0)
    (hgood : c.checkNewBlock P now b = .ok (.good, s))
    (h : { c with signers := s }.addBlock b = .ok c') : ∃ f', MemoSound P c' f' := by
  have hjudged := hm.judge hgood
  rcases append_ledger hm.toGrounded hgood h with ⟨rfl, -⟩ | ⟨-, hg', hadded⟩
  · exact ⟨f, hjudged⟩
  · refine ⟨_, hg', ?_⟩
    rw [hadded.signers, hadded.lastFullBlock, getHeight_of_some hadded.lastBlock]
    intro hne
    obtain ⟨hstart, hheight, hselect⟩ := hjudged.memo hne
    have hheight : s.index.toNat ≤ c.getHeight.toNat := UInt64.le_iff_toNat_le.mp hheight
    have hindex := hm.index_eq_succ hb hgood
    have hmax := hm.height_le
    have hrows := maxRows_lt
    have hlt : s.index.toNat < b.index.toNat := by omega
    refine ⟨hstart, UInt64.le_iff_toNat_le.mpr hlt.le, fun full hfull hat => ?_⟩
    have hlow : full.index.toNat < b.index.toNat := by
      rw [hat]
      exact hlt
    by_cases htx : b.transaction.isSome
    · rw [if_pos htx, Option.some.injEq] at hfull
      rw [hfull] at hlow
      exact absurd hlow (lt_irrefl _)
    · rw [if_neg htx] at hfull
      have hagree : AgreeBelow b.index c c' :=
        addBlock_truncateFromBlock (c := { c with signers := s }) h le_rfl
      have hbelow : AgreeBelow full.index c c' := hagree.below (by omega) hlow.le
      rw [hbelow.selectSigners (hat ▸ hstart) (by omega), ← selectSigners_withSigners c s]
      exact hselect full hfull hat

/-- A replacement clears the memo. -/
theorem replace (hm : MemoSound P c f) (hfork : c.checkNewBlock P now b = .ok (.fork, s))
    (h : { c with signers := s }.replaceBlock b = .ok c') : ∃ f', MemoSound P c' f' := by
  obtain ⟨-, hg', hadded⟩ := replace_ledger hm.toGrounded hfork h
  refine ⟨_, hg', ?_⟩
  rw [hadded.signers]
  exact fun hne => absurd rfl hne

end MemoSound

/-! ## The check at startup -/

/-- A memo about a block below a position is one below every higher position. -/
theorem SignersValid.mono {m n : ℕ} (hv : SignersValid P c (f.truncate m)) (hmn : m ≤ n) :
    SignersValid P c (f.truncate n) := by
  intro hne
  obtain ⟨x, hx, hrest⟩ := hv hne
  obtain ⟨hlt, hx⟩ := Ledger.truncate_eq_some hx
  exact ⟨x, by rw [Ledger.truncate_of_lt (by omega), hx], hrest⟩

/-- A block stored below a position is stored below every higher position. -/
theorem storedAs_mono {m n : ℕ} (h : (f.truncate m).StoredAs full x) (hmn : m ≤ n) :
    (f.truncate n).StoredAs full x := by
  obtain ⟨hx, hrest⟩ := h
  obtain ⟨hlt, hx⟩ := Ledger.truncate_eq_some hx
  exact ⟨by rw [Ledger.truncate_of_lt (by omega), hx], hrest⟩

/-- **The loop of `check_chain`** is asked about stored blocks below the one it has come to, and so
the memo it leaves is about a block below the cut. -/
theorem checkLoop_memo {clock : ℕ → UtcTime} {n : ℕ} {id : UInt64} {last lastFull : Option Block}
    {cut : Option UInt64} (hr : c.db.Represents f) (hid : 1 ≤ id.toNat) (hn : id.toNat + n ≤ 2 ^ 63)
    (hv : SignersValid P c (f.truncate id.toNat))
    (hstored : ∀ full, lastFull = some full → ∃ x, (f.truncate id.toNat).StoredAs full x)
    (h : checkLoop P clock n id c last lastFull = .ok (c', cut)) :
    ∃ stop, (∀ i, cut = some i → stop = i.toNat)
      ∧ SignersValid P { c with signers := c'.signers } (f.truncate stop) := by
  induction n generalizing id c last lastFull with
  | zero =>
    cases h
    exact ⟨id.toNat, fun i hi => (by cases hi), hv⟩
  | succ n ih =>
    have hsucc : (id + 1).toNat = id.toNat + 1 := toNat_add_one (by omega)
    have hnext : id.toNat ≤ (id + 1).toNat := by omega
    have hlater : ∀ full, lastFull = some full → ∃ x, (f.truncate (id + 1).toNat).StoredAs full x := by
      intro full hfull
      obtain ⟨x, hx⟩ := hstored full hfull
      exact ⟨x, storedAs_mono hx hnext⟩
    obtain ⟨x, hx, hcases⟩ := checkLoop_succ hr h
    rcases hcases with ⟨-, h⟩ | ⟨-, rfl, s, rfl, hs⟩ | ⟨-, s, hcheck, ⟨-, h⟩ | ⟨-, h⟩⟩
    · exact ih hr (by omega) (by omega) (hv.mono hnext) hlater h
    · refine ⟨id.toNat, fun i hi => (by cases hi; rfl), ?_⟩
      rcases hs with rfl | ⟨q, hcheck⟩
      · exact hv
      · exact hv.memo_checkBlock hstored hcheck
    · have hvalid := (hv.memo_checkBlock hstored hcheck).mono hnext
      have hself : (f.truncate (id + 1).toNat).StoredAs x.collapse x := by
        refine ⟨?_, rfl, rfl, rfl⟩
        have hindex : x.collapse.index.toNat = id.toNat := hr.index id.toNat x hx
        rw [hindex, Ledger.truncate_of_lt (by omega), hx]
      have hchecked : ∀ full, some x.collapse = some full →
          ∃ y, (f.truncate (id + 1).toNat).StoredAs full y := by
        rintro full ⟨⟩
        exact ⟨x, hself⟩
      let c₁ : Chain := { c with signers := s, lastFullBlock := some x.collapse }
      obtain ⟨stop, hcut, hstop⟩ := ih (c := c₁) hr (by omega) (by omega) (hvalid.congr rfl rfl)
        hchecked h
      exact ⟨stop, hcut, hstop.congr rfl rfl⟩
    · have hvalid := (hv.memo_checkBlock hstored hcheck).mono hnext
      let c₁ : Chain := { c with signers := s }
      obtain ⟨stop, hcut, hstop⟩ := ih (c := c₁) hr (by omega) (by omega) (hvalid.congr rfl rfl) hlater h
      exact ⟨stop, hcut, hstop.congr rfl rfl⟩

/-- What `get_last_full_block` finds is stored below the index it is asked for, if what is cached
is stored at all. -/
theorem stored_getLastFullBlock {f' : Ledger} {before : UInt64} (hr : c.db.Represents f')
    (hsub : ∀ m x, f' m = some x → f m = some x)
    (hcached : ∀ full, c.lastFullBlock = some full → ∃ x, f.StoredAs full x)
    (hbefore : before.toNat < 2 ^ 63) (h : c.getLastFullBlock before none = some full) :
    ∃ x, (f.truncate before.toNat).StoredAs full x := by
  have hquery : c.db.lastFullBlock before none = some full →
      ∃ x, (f.truncate before.toNat).StoredAs full x := by
    intro h
    obtain ⟨n, x, hx, rfl, hlt, -⟩ := hr.lastFullBlock_eq_some hbefore h
    have hindex : x.collapse.index.toNat = n := hr.index n x hx
    exact ⟨x, by rw [hindex, Ledger.truncate_of_lt hlt, hsub n x hx], rfl, rfl, rfl⟩
  unfold getLastFullBlock at h
  cases hfull : c.lastFullBlock with
  | none =>
    rw [hfull] at h
    exact hquery h
  | some cached =>
    rw [hfull] at h
    dsimp only at h
    split at h
    · rename_i hlow
      cases h
      obtain ⟨x, hx, hrest⟩ := hcached full hfull
      exact ⟨x, by rw [Ledger.truncate_of_lt (UInt64.lt_iff_toNat_lt.mp hlow.1), hx], hrest⟩
    · exact hquery h

/-- The cached full block of a chain whose caches are right is stored. -/
theorem Cached.stored_full (hc : c.Cached f) (hfull : c.lastFullBlock = some full) :
    ∃ x, f.StoredAs full x := by
  have hlast := hc.full
  rw [hfull] at hlast
  obtain ⟨⟨x, hx, hrow⟩, -⟩ := hlast
  exact ⟨x, Ledger.storedAs_of_row hc.db hx hrow⟩

/-- The last full block with which the check sets out is stored below the first block to check. -/
theorem Cached.stored_checkStart (hc : c.Cached f) {start : UInt64}
    (hstart : start.toNat ≤ c.getHeight.toNat + 1) (h : (c.checkStart start).2 = some full) :
    ∃ x, (f.truncate start.toNat).StoredAs full x := by
  unfold checkStart at h
  split at h
  · rename_i hgt
    have hone : 1 ≤ start.toNat := (UInt64.lt_iff_toNat_lt.mp hgt).le
    have hpred : (start - 1).toNat = start.toNat - 1 := toNat_sub_one hone
    obtain ⟨last, hlast, h⟩ := Option.bind_eq_some_iff.mp h
    rw [getBlock, hc.db.getBlock] at hlast
    obtain ⟨x, hx, rfl⟩ := Option.map_eq_some_iff.mp hlast
    have hindex : x.collapse.index.toNat = (start - 1).toNat := hc.db.index _ x hx
    split at h
    · have hheight := hc.height_le
      have hmax := maxRows_lt
      obtain ⟨y, hy⟩ := stored_getLastFullBlock hc.db (fun _ _ h => h)
        (fun full hfull => hc.stored_full hfull) (by omega) h
      exact ⟨y, storedAs_mono hy (by omega)⟩
    · cases h
      exact ⟨x, by rw [hindex, Ledger.truncate_of_lt (by omega), hx], rfl, rfl, rfl⟩
  · cases h

/-- The loop keeps a stored full block cached. -/
theorem CheckedFull.stored {start stop : ℕ} {before o : Option Block} (hr : c.db.Represents f)
    (h : CheckedFull f start stop before o)
    (hbefore : ∀ full, before = some full → ∃ x, f.StoredAs full x) (hfull : o = some full) :
    ∃ x, f.StoredAs full x := by
  rcases h with ⟨rfl, -⟩ | ⟨m, x, -, -, -, hx, -, rfl, -⟩
  · exact hbefore full hfull
  · cases hfull
    have hindex : x.collapse.index.toNat = m := hr.index m x hx
    exact ⟨x, by rw [hindex, hx], rfl, rfl, rfl⟩

/-- A valid memo about a block below the cut is sound for the chain that is left. -/
theorem memoSound_of_signersValid {f₁ : Ledger} {stop : ℕ} (hr : c.db.Represents f)
    (hv : SignersValid P { c with signers := c'.signers } (f.truncate stop))
    (hload : c'.lastBlock = c'.db.loadLastBlock) (hr₁ : c'.db.Represents f₁)
    (hsame : ∀ m x, f m = some x → m < stop → f₁ m = some x)
    (hagree : ∀ i : UInt64, (f i.toNat).isSome → i.toNat < stop → AgreeBelow i c c')
    (hfull : ∀ full, c'.lastFullBlock = some full → ∃ x, f.StoredAs full x) : MemoSound P c' f₁ := by
  refine ⟨grounded_of_load hr₁ hload, fun hne => ?_⟩
  obtain ⟨x, hx, hstart, hselect⟩ := hv hne
  obtain ⟨hlt, hx⟩ := Ledger.truncate_eq_some hx
  have hindex : x.index = c'.signers.index := UInt64.toNat_inj.mp (hr.index _ x hx)
  refine ⟨hindex ▸ hstart, ?_, fun full hlast hat => ?_⟩
  · apply UInt64.le_iff_toNat_le.mpr
    exact le_getHeight_of_load hr₁ hload (by rw [hsame _ x hx hlt]; rfl)
  · obtain ⟨y, hy, hyindex, hykey, hysignature⟩ := hfull full hlast
    rw [hat] at hy
    obtain rfl : x = y := Option.some.inj (hx.symm.trans hy)
    have hbound : full.index.toNat < 2 ^ 63 := by
      have := hr.le_maxRows (n := full.index.toNat) (by rw [hat, hx]; rfl)
      have := maxRows_lt
      omega
    have hbelow : AgreeBelow full.index c c' := by
      rw [hat]
      exact hagree _ (by rw [hx]; rfl) hlt
    rw [hbelow.selectSigners (hyindex ▸ hstart) hbound, ← selectSigners_congr hyindex hykey hysignature,
      ← selectSigners_withSigners c c'.signers]
    exact hselect

/-- **The check at startup** leaves a sound memo. -/
theorem Cached.memoSound_checkChain {clock : ℕ → UtcTime} {count : UInt64} (hc : c.Cached f)
    (hnew : c.signers = SignersCache.new) (h : c.checkChain P clock count = .ok c') :
    ∃ f', MemoSound P c' f' := by
  have hheight := hc.height_le
  have hmax := maxRows_lt
  obtain ⟨start, hstart, h⟩ := bind_eq_ok.mp h
  have hfrom := checkFrom_spec (by omega) hstart
  obtain ⟨⟨c₁, cut⟩, hloop, h⟩ := bind_eq_ok.mp h
  cases h
  have hv : SignersValid P c (f.truncate start.toNat) := by
    intro hne
    rw [hnew] at hne
    exact absurd rfl hne
  obtain ⟨stop, hcut, hvalid⟩ := checkLoop_memo hc.db hfrom.1 (by omega) hv
    (fun full hfull => hc.stored_checkStart hfrom.2 hfull) hloop
  obtain ⟨stop', -, -, -, hchecked⟩ := checkLoop_lastFull hc.db hfrom.1 (by omega) hloop
  have hcached : ∀ full, c₁.lastFullBlock = some full → ∃ x, f.StoredAs full x := fun full hfull =>
    hchecked.stored hc.db (fun full hfull => hc.stored_full hfull) hfull
  have hmaxIndex : maxIndex.toNat < 2 ^ 63 := by decide
  rcases (checkLoop_spec hc.db hfrom.1 (by omega) hloop).2 with ⟨-, hdb⟩ | ⟨i, hsome, -, -, hi, hdb⟩
  · have hr₁ : c₁.db.Represents f := hdb ▸ hc.db
    refine ⟨f, memoSound_of_signersValid hc.db hvalid rfl hr₁ (fun m x hx _ => hx) (fun j _ _ => ?_)
      fun full hfull => ?_⟩
    · exact congrArg (fun db => db.truncateFromBlock j) hdb
    · obtain ⟨x, hx, hrest⟩ := stored_getLastFullBlock hr₁ (fun _ _ h => h) hcached hmaxIndex hfull
      exact ⟨x, (Ledger.truncate_eq_some hx).2, hrest⟩
  · obtain rfl := hcut i hsome
    have hlt : i.toNat < 2 ^ 63 := by
      have := hc.db.le_maxRows hi
      omega
    have hr₁ : c₁.db.Represents (f.truncate i.toNat) := by
      rw [hdb]
      exact hc.db.truncateFromBlock hlt
    refine ⟨f.truncate i.toNat, memoSound_of_signersValid hc.db hvalid rfl hr₁ (fun m x hx hm => ?_)
      (fun j _ hj => ?_) fun full hfull => ?_⟩
    · rw [Ledger.truncate_of_lt hm, hx]
    · exact (AgreeBelow.of_truncate hdb).below hlt hj.le
    · obtain ⟨x, hx, hrest⟩ := stored_getLastFullBlock hr₁
        (fun m x hx => (Ledger.truncate_eq_some hx).2) hcached hmaxIndex hfull
      exact ⟨x, (Ledger.truncate_eq_some hx).2, hrest⟩

/-! ## Runs -/

/-- What happens to a chain between two questions for signers: the question of the miner itself,
which is about the cached full block, and the actions of the chain. -/
inductive SigningAction where
  | query
  | act (a : ChainAction)

/-- The transitions of a chain with a miner. -/
def SigningStep (P : Platform) (c : Chain) (a : SigningAction) (c' : Chain) : Prop :=
  match a with
  | .query => ∃ full signers s, c.lastFullBlock = some full
      ∧ c.getBlockSigners P full = .ok (signers, s) ∧ c' = { c with signers := s }
  | .act a => c.Step P a c'

/-- The actions after the startup.  The blocks have positive indices. -/
def AfterStartup (_ : Chain) : SigningAction → Prop
  | .act (.append _ b) => b.index ≠ 0
  | .act (.replace _ b) => b.index ≠ 0
  | .act (.recheck _ _) => False
  | .act .reopen => False
  | _ => True

/-- The chain has been opened and checked. -/
def Started (P : Platform) (c : Chain) : Prop :=
  ∃ origin db f clock count, Db.Represents db f
    ∧ (Chain.new origin db).checkChain P clock count = .ok c

theorem Started.memoSound (h : c.Started P) : ∃ f, MemoSound P c f := by
  obtain ⟨origin, db, f, clock, count, hr, hcheck⟩ := h
  obtain ⟨f', hc⟩ := Cached.of_new hr origin
  exact hc.memoSound_checkChain rfl hcheck

/-- **The step lemma.** -/
theorem MemoSound.step {a : SigningAction} (hm : MemoSound P c f) (ha : AfterStartup c a)
    (h : c.SigningStep P a c') : ∃ f', MemoSound P c' f' := by
  cases a with
  | query =>
    obtain ⟨full, signers, s, hfull, hget, rfl⟩ := h
    exact ⟨f, (hm.getBlockSigners hfull hget).2⟩
  | act a =>
    cases a with
    | judge now b =>
      obtain ⟨q, s, hq, rfl⟩ := h
      exact ⟨f, hm.judge hq⟩
    | height h' =>
      cases h
      refine ⟨f, hm.toGrounded.congr rfl rfl, fun hne => ?_⟩
      obtain ⟨hstart, hheight, hselect⟩ := hm.memo hne
      refine ⟨hstart, hheight, fun full hfull hat => ?_⟩
      have hdb : (c.updateMaxHeight h').db = c.db := rfl
      rw [selectSigners_of_db hdb]
      exact hselect full hfull hat
    | append now b =>
      obtain ⟨s, hgood, hadd⟩ := h
      exact hm.append ha hgood hadd
    | replace now b =>
      obtain ⟨s, hfork, hrep⟩ := h
      exact hm.replace hfork hrep
    | recheck clock count => exact absurd ha id
    | reopen => exact absurd ha id

/-- **The run lemma.** -/
theorem run_memoSound (hstart : c₀.Started P) (run : Run (SigningStep P) AfterStartup c₀ c) :
    ∃ f, MemoSound P c f := by
  refine run.invariant (I := fun c => ∃ f, MemoSound P c f) hstart.memoSound ?_
  rintro c₁ a c₂ ⟨f, hm⟩ ha hstep
  exact hm.step ha hstep

/-- **Whatever `get_block_signers` answers for the cached full block is correct**, in every state of
a chain that has been checked at startup, except that the answer may be empty. -/
theorem run_signersCorrect (hstart : c₀.Started P) (run : Run (SigningStep P) AfterStartup c₀ c)
    (hfull : c.lastFullBlock = some full) (h : c.getBlockSigners P full = .ok (signers, s))
    (hne : signers ≠ []) : c.SignersCorrect P full signers := by
  obtain ⟨f, hm⟩ := run_memoSound hstart run
  obtain ⟨hstart, hheight, hselect⟩ := (hm.getBlockSigners hfull h).1 hne
  have hheight : full.index.toNat ≤ c.getHeight.toNat := UInt64.le_iff_toNat_le.mp hheight
  have hmax := hm.height_le
  have hrows := maxRows_lt
  exact signersCorrect_of_selectSigners hstart (by omega) hselect

/-- The stored chain of 39 blocks is checked, and the signers of block 35 are asked for twice. -/
theorem run_signersCorrect_full35 : ∃ c₀ c signers s,
    c₀.Started (Sample.platform true) ∧ Run (SigningStep (Sample.platform true)) AfterStartup c₀ c
      ∧ c.lastFullBlock = some Sample.full35
      ∧ c.getBlockSigners (Sample.platform true) Sample.full35 = .ok (signers, s) ∧ signers ≠ []
      ∧ c.signers.signers = signers
      ∧ c.SignersCorrect (Sample.platform true) Sample.full35 signers := by
  have hrun : ∃ c₀, (Chain.new Sample.genesis.hash Sample.signedDb).checkChain (Sample.platform true)
        (fun _ => Sample.now) 8 = .ok c₀
      ∧ c₀.lastFullBlock = some Sample.full35
      ∧ ∃ r, c₀.getBlockSigners (Sample.platform true) Sample.full35 = .ok r
        ∧ ∃ r', { c₀ with signers := r.2 }.getBlockSigners (Sample.platform true) Sample.full35 = .ok r'
          ∧ r'.1 ≠ [] ∧ r.2.signers = r'.1 := by
    decide +kernel
  obtain ⟨c₀, hcheck, hfull, ⟨first, s₁⟩, hfirst, ⟨signers, s⟩, hsecond, hne, hsame⟩ := hrun
  have hstart : c₀.Started (Sample.platform true) :=
    ⟨_, _, _, _, _, Numbered.represents _, hcheck⟩
  have hstep : SigningStep (Sample.platform true) c₀ .query { c₀ with signers := s₁ } :=
    ⟨_, first, s₁, hfull, hfirst, rfl⟩
  have hquery : Run (SigningStep (Sample.platform true)) AfterStartup c₀ { c₀ with signers := s₁ } :=
    Run.single (show AfterStartup c₀ .query from trivial) hstep
  exact ⟨c₀, _, signers, s, hstart, hquery, hfull, hsecond, hne, hsame,
    run_signersCorrect hstart hquery hfull hsecond hne⟩

end Chain
