/-
# The history of a chain that only grows

A chain grown by good blocks remembers how each of its blocks was accepted: for every
stored block there was a moment at which the chain held exactly the blocks below it, with
coherent caches, and judged the block good.  The rules of the validator, which compare a
block with the chain as it stood then, become statements about the final ledger.

`History` is the invariant.  It is kept by every good block of positive index; a block of
index 0, which only a build without overflow checks accepts, is put below all others and
ends the alignment.
-/
import Ruvname.AgreeBelow
import Ruvname.Ownership

open Exec

/-- A block of the ledger has the index, the key and the signature of this one. -/
def Ledger.StoredAs (f : Ledger) (full x : Block) : Prop :=
  f full.index.toNat = some x ∧ x.index = full.index ∧ x.pubKey = full.pubKey
    ∧ x.signature = full.signature

/-- The block whose row is stored. -/
theorem Ledger.storedAs_of_row {f : Ledger} {db : Db} {full x : Block} (hr : db.Represents f)
    (hx : f full.index.toNat = some x) (hrow : BlockRow.ofBlock x = BlockRow.ofBlock full) :
    f.StoredAs full x :=
  ⟨hx, UInt64.toNat_inj.mp (hr.index _ _ hx), congrArg BlockRow.pubKey hrow,
    congrArg BlockRow.signature hrow⟩

/-! ## Settled chains -/

namespace Chain

variable {P : Platform} {now : UtcTime} {c c' : Chain} {b full x : Block} {f : Ledger}
  {s : SignersCache}

/-- What the signing rule does to the memo: nothing, or what `get_block_signers` does for the
last full block. -/
theorem memo_cases_isGoodSignBlock {lastFull : Option Block} {good : Bool}
    (h : c.isGoodSignBlock P b lastFull = .ok (good, s)) :
    s = c.signers ∨ ∃ full signers, lastFull = some full
      ∧ c.getBlockSigners P full = .ok (signers, s) := by
  have hsigner : ∀ full, lastFull = some full → c.isGoodSignerForBlock P b full = .ok (good, s) →
      ∃ full signers, lastFull = some full ∧ c.getBlockSigners P full = .ok (signers, s) := by
    intro full hfull h
    obtain ⟨⟨signers, cache⟩, hget, h⟩ := bind_eq_ok.mp h
    refine ⟨full, signers, hfull, ?_⟩
    simp only at h
    split at h
    · cases h
      exact hget
    · obtain ⟨first, -, h⟩ := bind_eq_ok.mp h
      obtain ⟨signed, -, h⟩ := bind_eq_ok.mp h
      cases h
      exact hget
  unfold isGoodSignBlock at h
  split at h
  · cases h
    exact Or.inl rfl
  · split at h
    · cases h
      exact Or.inl rfl
    · rename_i full
      obtain ⟨count, -, h⟩ := bind_eq_ok.mp h
      split at h
      · split at h
        · cases h
          exact Or.inl rfl
        · exact Or.inr (hsigner full rfl h)
      · split at h
        · exact Or.inr (hsigner full rfl h)
        · cases h
          exact Or.inl rfl

/-- **What judging a block does to the memo**, whatever the verdict. -/
theorem memo_cases_checkBlock {last lastFull : Option Block} {q : BlockQuality}
    (h : c.checkBlock P now b last lastFull = .ok (q, s)) :
    s = c.signers ∨ ∃ full signers, lastFull = some full
      ∧ c.getBlockSigners P full = .ok (signers, s) := by
  obtain ⟨verdict, -, h⟩ := bind_eq_ok.mp h
  cases verdict with
  | some quality =>
    cases h
    exact Or.inl rfl
  | none =>
    dsimp only at h
    unfold checkPosition at h
    split at h
    · split at h
      · cases h
        exact Or.inl rfl
      · split at h
        · cases h
          exact Or.inl rfl
        · cases h
          exact Or.inl rfl
    · split at h
      · cases h
        exact Or.inl rfl
      · obtain ⟨next, -, h⟩ := bind_eq_ok.mp h
        split at h
        · cases h
          exact Or.inl rfl
        · obtain ⟨⟨signed, cache⟩, hsign, h⟩ := bind_eq_ok.mp h
          cases h
          unfold signStage at hsign
          split at hsign
          · exact memo_cases_isGoodSignBlock hsign
          · cases hsign
            exact Or.inl rfl

/-- The memo holds the signers of the stored full block it is keyed by. -/
def SignersValid (P : Platform) (c : Chain) (f : Ledger) : Prop :=
  c.signers.signers ≠ [] → ∃ x, f c.signers.index.toNat = some x
    ∧ blockSignersStart ≤ x.index ∧ c.selectSigners P x = .ok c.signers.signers

/-- A chain in which everything is as an append leaves it: the ledger ends at the tip, has
no position 0, consists of vetted blocks, and the caches and the memo are right. -/
structure Settled (P : Platform) (c : Chain) (f : Ledger) : Prop extends c.Cached f where
  clean : c.Clean f
  zero : f 0 = none
  signers : SignersValid P c f

namespace SignersValid

/-- **What `get_block_signers` answers** for a stored full block from `BLOCK_SIGNERS_START`
on: the selected signers, whether they are in the memo or not. -/
theorem getBlockSigners (hv : SignersValid P c f) (hx : f.StoredAs full x)
    (hstart : blockSignersStart ≤ full.index) (hheight : full.index ≤ c.getHeight)
    (hsome : full.transaction.isSome) :
    (c.getBlockSigners P full).map Prod.fst = c.selectSigners P full := by
  obtain ⟨hx, hindex, hkey, hsignature⟩ := hx
  have hguard : ¬ (full.index < blockSignersStart ∨ c.getHeight < full.index) := by
    rintro (hlt | hlt)
    · exact UInt64.not_lt.mpr hstart hlt
    · exact UInt64.not_lt.mpr hheight hlt
  have hnone : ¬ full.transaction.isNone := by simpa using Option.isSome_iff_ne_none.mp hsome
  rw [getBlockSigners_eq, if_neg hguard, if_neg hnone]
  split
  · rename_i hmemo
    obtain ⟨hat, hne⟩ := of_decide_eq_true hmemo
    obtain ⟨y, hy, -, hselect⟩ := hv hne
    rw [hat, hx, Option.some.injEq] at hy
    subst hy
    rw [← selectSigners_congr hindex hkey hsignature, hselect]
    rfl
  · cases c.selectSigners P full with
    | error e => rfl
    | ok result => rfl

/-- The memo that `get_block_signers` leaves is valid. -/
theorem memo_getBlockSigners (hv : SignersValid P c f) (hx : f.StoredAs full x)
    {signers : List Bytes} (h : c.getBlockSigners P full = .ok (signers, s)) :
    SignersValid P { c with signers := s } f := by
  obtain ⟨hx, hindex, hkey, hsignature⟩ := hx
  rw [getBlockSigners_eq] at h
  split at h
  · cases h
    exact hv
  · rename_i hguard
    have hstart : blockSignersStart ≤ full.index := UInt64.not_lt.mp fun hlt => hguard (Or.inl hlt)
    split at h
    · cases h
    · split at h
      · cases h
        exact hv
      · obtain ⟨result, hresult, h⟩ := bind_eq_ok.mp h
        cases h
        intro _
        refine ⟨x, hx, hindex ▸ hstart, ?_⟩
        rw [selectSigners_withSigners, selectSigners_congr hindex hkey hsignature, hresult]

/-- And the one that judging a block leaves, whatever the verdict. -/
theorem memo_checkBlock (hv : SignersValid P c f) {last lastFull : Option Block} {q : BlockQuality}
    (hstored : ∀ full, lastFull = some full → ∃ x, f.StoredAs full x)
    (h : c.checkBlock P now b last lastFull = .ok (q, s)) : SignersValid P { c with signers := s } f := by
  rcases memo_cases_checkBlock h with rfl | ⟨full, signers, hfull, hget⟩
  · exact hv
  · obtain ⟨x, hx⟩ := hstored full hfull
    exact hv.memo_getBlockSigners hx hget

/-- Only the database and the memo matter. -/
theorem congr (hv : SignersValid P c f) (hdb : c'.db = c.db) (hsigners : c'.signers = c.signers) :
    SignersValid P c' f := by
  unfold SignersValid
  rw [hsigners]
  intro hne
  obtain ⟨x, hx, hstart, hselect⟩ := hv hne
  exact ⟨x, hx, hstart, (selectSigners_of_db hdb x).trans hselect⟩

end SignersValid

namespace Settled

/-- The cached full block has the index, the key and the signature of a stored one. -/
theorem stored_full (hs : c.Settled P f) (hfull : c.lastFullBlock = some full) :
    ∃ x, f.StoredAs full x ∧ full.transaction.isSome := by
  have hlast := hs.full
  rw [hfull] at hlast
  obtain ⟨⟨x, hx, hrow⟩, hsome, -⟩ := hlast
  exact ⟨x, Ledger.storedAs_of_row hs.db hx hrow, hsome⟩

/-- The signers of the cached full block are the selected ones. -/
theorem selectSigners_cached (hs : c.Settled P f) {signers : List Bytes}
    (hfull : c.lastFullBlock = some full) (hstart : blockSignersStart ≤ full.index)
    (h : c.getBlockSigners P full = .ok (signers, s)) : c.selectSigners P full = .ok signers := by
  obtain ⟨x, hx, hsome⟩ := hs.stored_full hfull
  rw [← hs.signers.getBlockSigners hx hstart (hs.index_le hfull) hsome, h]
  rfl

/-- Judging a good block leaves a valid memo. -/
theorem signersValid_good (hs : c.Settled P f) (hgood : c.checkNewBlock P now b = .ok (.good, s)) :
    SignersValid P { c with signers := s } f := by
  refine hs.signers.memo_checkBlock (fun full hfull => ?_) hgood
  obtain ⟨x, hx, -⟩ := hs.stored_full hfull
  exact ⟨x, hx⟩

/-- Another valid memo. -/
theorem withSigners (hs : c.Settled P f) (h : SignersValid P { c with signers := s } f) :
    { c with signers := s }.Settled P f where
  toCached := hs.toCached.congr rfl rfl rfl
  clean := hs.clean.congr rfl rfl rfl
  zero := hs.zero
  signers := h

end Settled

theorem settled_new (P : Platform) (origin : Bytes) :
    (Chain.new origin Db.empty).Settled P (fun _ => none) := by
  have hdb := new_empty origin
  have hclean : (Chain.new origin Db.empty).Clean (fun _ => none) := by
    obtain ⟨f, hc⟩ := Clean.of_new Db.represents_empty (fun n x hx => by cases hx) origin
    have hempty : f = fun _ => none := by
      funext n
      have hr := hc.db
      rw [hdb] at hr
      exact hr.eq_none_of_empty n
    exact hempty ▸ hc
  have hcached : (Chain.new origin Db.empty).Cached (fun _ => none) := by
    obtain ⟨f, hc⟩ := Cached.of_new Db.represents_empty origin
    have hempty : f = fun _ => none := by
      funext n
      have hr := hc.db
      rw [hdb] at hr
      exact hr.eq_none_of_empty n
    exact hempty ▸ hc
  refine ⟨hcached, hclean, rfl, ?_⟩
  intro hne
  exact absurd rfl hne

end Chain

/-! ## History -/

namespace Ledger

variable {f : Ledger} {b : Block}

/-- Below a block the ledger is the one it was put into. -/
theorem truncate_put {n : ℕ} (hn : n ≤ b.index.toNat) : (f.put b).truncate n = f.truncate n := by
  funext m
  by_cases hm : m < n
  · rw [truncate_of_lt hm, truncate_of_lt hm, put_of_ne (by omega)]
  · rw [truncate_of_le (by omega), truncate_of_le (by omega)]

/-- A ledger that ends below a position is not changed by truncating there. -/
theorem truncate_of_top {n : ℕ} (h : ∀ m, (f m).isSome → m < n) : f.truncate n = f := by
  funext m
  by_cases hm : m < n
  · rw [truncate_of_lt hm]
  · rw [truncate_of_le (by omega)]
    by_contra hne
    exact hm (h m (Option.isSome_iff_ne_none.mpr (Ne.symm hne)))

end Ledger

namespace Chain

variable {P : Platform} {now : UtcTime} {c c' : Chain} {b x : Block} {f : Ledger}
  {s : SignersCache} {log : List (UtcTime × Block)} {e : UtcTime × Block}

/-- At the time `now` the block was judged good by the chain as it stood then: a settled
chain of exactly the blocks below it. -/
def JudgedGood (P : Platform) (c : Chain) (f : Ledger) (now : UtcTime) (b : Block) : Prop :=
  ∃ c₀ s, c₀.Settled P (f.truncate b.index.toNat) ∧ AgreeBelow b.index c₀ c ∧ c₀.zones = c.zones
    ∧ b.index.toNat = c₀.getHeight.toNat + 1 ∧ c₀.checkNewBlock P now b = .ok (.good, s)

/-- A settled chain with the log of its blocks.  Each entry is the block stored at its
index, judged good at the time noted, unless the table was full. -/
structure History (P : Platform) (c : Chain) (f : Ledger) (log : List (UtcTime × Block)) : Prop
    where
  settled : c.Settled P f
  logged : ∀ e ∈ log, f e.2.index.toNat = some e.2
    ∨ (f e.2.index.toNat = none ∧ c.db.blocks.rows.length = maxRows)
  judged : ∀ e ∈ log, f e.2.index.toNat = some e.2 → JudgedGood P c f e.1 e.2
  noted : ∀ m x, f m = some x → ∃ now, (now, x) ∈ log

/-- An `INSERT` at a vacant position only fails when the table is full. -/
theorem full_of_addBlockToTable (hr : c.db.Represents f) (hfree : f b.index.toNat = none)
    (h : c.db.addBlockToTable b = none) : c.db.blocks.rows.length = maxRows := by
  have hkey : c.db.blocks.find? (asI64 b.index) = none := by
    rw [hr.find?_asI64, hfree, Option.map_none]
  rw [Db.addBlockToTable, Option.map_eq_none_iff] at h
  by_contra hne
  have hroom : c.db.blocks.rows.length < maxRows := lt_of_le_of_ne c.db.blocks.bounded hne
  have hsome := (Table.insert?_isSome (a := BlockRow.ofBlock b)).mpr ⟨hkey, hroom⟩
  rw [h] at hsome
  cases hsome

/-- What an append leaves of the conditions under which a block was judged. -/
theorem JudgedGood.mono {f' : Ledger} (h : JudgedGood P c f now x)
    (hledger : f'.truncate x.index.toNat = f.truncate x.index.toNat)
    (hagree : AgreeBelow x.index c c') (hzones : c'.zones = c.zones) : JudgedGood P c' f' now x := by
  obtain ⟨c₀, s, hsettled, hbelow, hz, hheight, hgood⟩ := h
  refine ⟨c₀, s, ?_, hbelow.trans hagree, hz.trans hzones.symm, hheight, hgood⟩
  rw [hledger]
  exact hsettled

namespace Settled

/-- Everything stored lies below a good block. -/
theorem lt_of_good (hs : c.Settled P f) (hb : b.index ≠ 0)
    (hgood : c.checkNewBlock P now b = .ok (.good, s)) (m : ℕ) (hm : (f m).isSome) :
    m < b.index.toNat := by
  have := hs.index_eq_succ hb hgood
  have := hs.top m hm
  omega

/-- The judgement on a good block, as the history will note it. -/
theorem judgedGood (hs : c.Settled P f) (hb : b.index ≠ 0)
    (hgood : c.checkNewBlock P now b = .ok (.good, s)) : JudgedGood P c f now b := by
  refine ⟨c, s, ?_, AgreeBelow.refl _ _, rfl, hs.index_eq_succ hb hgood, hgood⟩
  rw [Ledger.truncate_of_top (hs.lt_of_good hb hgood)]
  exact hs

/-- A good block that is stored leaves a settled chain. -/
theorem put (hs : c.Settled P f) (hb : b.index ≠ 0)
    (hgood : c.checkNewBlock P now b = .ok (.good, s)) (hfree : f b.index.toNat = none)
    (hg' : c'.Grounded (f.put b)) (hadded : { c with signers := s }.Added b c')
    (hagree : AgreeBelow b.index c c') : c'.Settled P (f.put b) := by
  have hlt := hs.lt_of_good hb hgood
  have hsucc := hs.index_eq_succ hb hgood
  have hpassed := ((checkBlock_accepting accepting_good).mp hgood).1
  have hbound : b.index.toNat < 2 ^ 63 := by
    have := hs.height_le
    have := maxRows_lt
    omega
  refine ⟨Cached.put_top hg' hadded hfree (fun m hm => (hlt m hm).le) fun _ => hs.full,
    Clean.put hg' hadded hs.clean.vetted hs.clean.full hpassed.vetted, ?_, ?_⟩
  · rw [Ledger.put_of_ne (by omega), hs.zero]
  · -- the memo is about a block below the new one, where nothing has changed
    intro hne
    rw [hadded.signers] at hne ⊢
    obtain ⟨x, hx, hstart, hselect⟩ := hs.signersValid_good hgood hne
    have hxlt : x.index.toNat < b.index.toNat := by
      have hpos := hlt _ (show (f s.index.toNat).isSome by rw [hx]; rfl)
      have hindex : x.index.toNat = s.index.toNat := hs.db.index _ _ hx
      omega
    refine ⟨x, ?_, hstart, ?_⟩
    · have hindex : x.index.toNat = s.index.toNat := hs.db.index _ _ hx
      rw [Ledger.put_of_ne (show s.index.toNat ≠ b.index.toNat by omega)]
      exact hx
    · rw [selectSigners_withSigners] at hselect
      rw [(hagree.below hbound (by omega)).selectSigners hstart (by omega)]
      exact hselect

end Settled

/-- A good block whose `INSERT` fails is logged for a table without room. -/
theorem History.appendFails (hh : History P c f log)
    (hgood : c.checkNewBlock P now b = .ok (.good, s)) (hfree : f b.index.toNat = none)
    (hfail : c.db.addBlockToTable b = none) :
    History P { c with signers := s } f ((now, b) :: log) := by
  have hs := hh.settled
  refine ⟨hs.withSigners (hs.signersValid_good hgood), ?_, ?_, ?_⟩
  · rintro e he
    rcases List.mem_cons.mp he with rfl | he
    · exact Or.inr ⟨hfree, full_of_addBlockToTable hs.db hfree hfail⟩
    · exact hh.logged e he
  · rintro e he hstored
    rcases List.mem_cons.mp he with rfl | he
    · rw [hfree] at hstored
      cases hstored
    · exact (hh.judged e he hstored).mono rfl (AgreeBelow.refl _ _) rfl
  · rintro m x hx
    obtain ⟨t, ht⟩ := hh.noted m x hx
    exact ⟨t, List.mem_cons_of_mem _ ht⟩

/-- Where a block has got into the table there was room for it. -/
theorem room_of_put {f : Ledger} (hdb : c.db.Represents f) (hfree : f b.index.toNat = none)
    (hadd : { c with signers := s }.addBlock b = .ok c') (hg' : c'.Grounded (f.put b)) :
    c.db.blocks.rows.length ≠ maxRows := by
  intro hfull
  have hnone : c.db.addBlockToTable b = none := by
    rw [Db.addBlockToTable, Option.map_eq_none_iff]
    by_contra hne
    have hlen := (Table.insert?_isSome.mp (Option.isSome_iff_ne_none.mpr hne)).2
    omega
  rw [addBlock, hnone] at hadd
  cases hadd
  have hrow := hg'.db.blocks b.index.toNat
  rw [Ledger.put_self, show (c.db.blocks.find? (b.index.toNat : ℤ)) = _ from hdb.blocks _, hfree]
    at hrow
  cases hrow

/-- **The step lemma.**  A good block of positive index extends the history. -/
theorem History.append (hh : History P c f log) (hb : b.index ≠ 0)
    (hstep : c.Step P (.append now b) c') : ∃ f', History P c' f' ((now, b) :: log) := by
  obtain ⟨s, hgood, hadd⟩ := hstep
  have hs := hh.settled
  have hlt := hs.lt_of_good hb hgood
  have hfree : f b.index.toNat = none := by
    by_contra hne
    exact absurd (hlt _ (Option.isSome_iff_ne_none.mpr hne)) (lt_irrefl _)
  have hbound : b.index.toNat < 2 ^ 63 := by
    have := hs.index_eq_succ hb hgood
    have := hs.height_le
    have := maxRows_lt
    omega
  rcases append_ledger hs.toGrounded hgood hadd with ⟨rfl, hfail⟩ | ⟨-, hg', hadded⟩
  · -- the `INSERT` has failed: nothing but the memo has changed
    exact ⟨f, hh.appendFails hgood hfree hfail⟩
  · -- nothing below the new block changes, and so far the table was not full
    have hagree : AgreeBelow b.index c c' :=
      addBlock_truncateFromBlock (c := { c with signers := s }) hadd le_rfl
    have hroom := room_of_put hs.db hfree hadd hg'
    have hstored : ∀ e ∈ log, f e.2.index.toNat = some e.2 := fun e he =>
      (hh.logged e he).resolve_right fun h => hroom h.2
    refine ⟨f.put b, hs.put hb hgood hfree hg' hadded hagree, ?_, ?_, ?_⟩
    · rintro e he
      left
      rcases List.mem_cons.mp he with rfl | he
      · exact Ledger.put_self f b
      · have hlow := hlt _ (show (f e.2.index.toNat).isSome by rw [hstored e he]; rfl)
        rw [Ledger.put_of_ne (by omega), hstored e he]
    · rintro e he -
      rcases List.mem_cons.mp he with rfl | he
      · exact (hs.judgedGood hb hgood).mono (Ledger.truncate_put le_rfl) hagree hadded.zones
      · have hlow := hlt _ (show (f e.2.index.toNat).isSome by rw [hstored e he]; rfl)
        exact (hh.judged e he (hstored e he)).mono (Ledger.truncate_put hlow.le)
          (hagree.below hbound hlow.le) hadded.zones
    · rintro m x hx
      by_cases hm : m = b.index.toNat
      · rw [hm, Ledger.put_self] at hx
        cases hx
        exact ⟨now, List.mem_cons_self⟩
      · rw [Ledger.put_of_ne hm] at hx
        obtain ⟨t, ht⟩ := hh.noted m x hx
        exact ⟨t, List.mem_cons_of_mem _ ht⟩

/-- The condition under which a chain grows at its tip: the block is not of index 0. -/
def GrowsAtTip (_ : Grown) (a : UtcTime × Block) : Prop := a.2.index ≠ 0

/-- **The run lemma.**  A chain grown from an empty database by good blocks of positive
index has a history. -/
theorem run_history {origin : Bytes}
    (run : Run (Grow P) GrowsAtTip (Chain.new origin Db.empty, []) (c, log)) :
    ∃ f, History P c f log := by
  refine run.invariant (I := fun g => ∃ f, History P g.1 f g.2) ?_ ?_
  · refine ⟨fun _ => none, settled_new P origin, ?_, ?_, ?_⟩
    · rintro e he
      cases he
    · rintro e he
      cases he
    · rintro m x hx
      cases hx
  · rintro ⟨c₁, log₁⟩ ⟨now, b⟩ ⟨c₂, log₂⟩ ⟨f, hh⟩ hindex ⟨hstep, rfl⟩
    exact hh.append hindex hstep

/-- The block is stored in the chain, as far as the table keeps it. -/
def Stores (c : Chain) (b : Block) : Prop := c.getBlock b.index = some b.collapse

/-- A logged block that is stored is the block of the ledger. -/
theorem History.eq_some (hh : History P c f log) (he : e ∈ log) (hstores : c.Stores e.2) :
    f e.2.index.toNat = some e.2 := by
  refine (hh.logged e he).resolve_right ?_
  rintro ⟨hnone, -⟩
  rw [Stores, getBlock, hh.settled.db.getBlock, hnone] at hstores
  cases hstores

/-- Every block of the ledger was judged good in its place. -/
theorem History.judgedGood (hh : History P c f log) {m : ℕ} (hx : f m = some x) :
    ∃ now, JudgedGood P c f now x := by
  obtain ⟨now, hmem⟩ := hh.noted m x hx
  have hindex : x.index.toNat = m := hh.settled.db.index m x hx
  exact ⟨now, hh.judged (now, x) hmem (by rw [hindex, hx])⟩

end Chain
