/-
# Is the cached full block the last full block?

`last_full_block` should be the row of highest id with a transaction.  Appending keeps it
so, and so does replacing by a full block.  It goes stale when the cached block itself is
deleted and nothing refreshes the cache: by a signing block that replaces it or a block
below it, and by a truncation in `check_chain` before any full block has been checked.
-/
import Ruvname.StoreInvariant

open Exec

/-! ## The last full block of a ledger -/

/-- The block is the stored form of the full block of greatest position, if there is one. -/
def Ledger.IsLastFull (f : Ledger) : Option Block → Prop
  | none => ∀ m x, f m = some x → x.transaction.isNone
  | some b => (∃ a, f b.index.toNat = some a ∧ BlockRow.ofBlock a = BlockRow.ofBlock b)
      ∧ b.transaction.isSome ∧ ∀ m x, f m = some x → x.transaction.isSome → m ≤ b.index.toNat

/-- **Coherence.**  The cached full block is the row of highest id with a transaction. -/
def Chain.Coherent (c : Chain) : Prop :=
  c.lastFullBlock.map (fun b => ((b.index.toNat : ℤ), BlockRow.ofBlock b))
    = c.db.blocks.lastWhere? fun _ row => row.transaction.isSome

instance (c : Chain) : Decidable c.Coherent := inferInstanceAs (Decidable (_ = _))

namespace Ledger

variable {f : Ledger} {o : Option Block} {b : Block}

/-- A block that is stored with a transaction has one. -/
theorem isSome_of_ofBlock {a : Block} (h : BlockRow.ofBlock a = BlockRow.ofBlock b) :
    a.transaction.isSome = b.transaction.isSome := by
  rw [← BlockRow.ofBlock_transaction_isSome, h, BlockRow.ofBlock_transaction_isSome]

theorem IsLastFull.of_put_full (hb : b.transaction.isSome)
    (htop : ∀ m, (f m).isSome → m ≤ b.index.toNat) : (f.put b).IsLastFull (some b) := by
  refine ⟨⟨b, put_self f b, rfl⟩, hb, fun m x hx _ => ?_⟩
  by_cases hm : m = b.index.toNat
  · exact hm.le
  · rw [put_of_ne hm] at hx
    exact htop m (by rw [hx]; rfl)

/-- A signing block on top changes nothing. -/
theorem IsLastFull.put_signing (h : f.IsLastFull o) (hb : b.transaction.isNone)
    (hfree : f b.index.toNat = none) : (f.put b).IsLastFull o := by
  have hput : ∀ m x, f.put b m = some x → x.transaction.isSome → f m = some x := by
    intro m x hx hfull
    by_cases hm : m = b.index.toNat
    · rw [hm, put_self] at hx
      cases hx
      rw [Option.isNone_iff_eq_none] at hb
      rw [hb] at hfull
      cases hfull
    · rwa [put_of_ne hm] at hx
  cases o with
  | none =>
    intro m x hx
    by_contra hfull
    have hsome : x.transaction.isSome := Option.isSome_iff_ne_none.mpr (by simpa using hfull)
    exact hfull (h m x (hput m x hx hsome))
  | some full =>
    obtain ⟨⟨a, ha, hrow⟩, hfull, hmax⟩ := h
    refine ⟨⟨a, ?_, hrow⟩, hfull, fun m x hx hx' => hmax m x (hput m x hx hx') hx'⟩
    rw [put_of_ne, ha]
    rintro heq
    rw [heq, hfree] at ha
    cases ha

/-- Truncating above the last full block keeps it. -/
theorem IsLastFull.truncate {n : ℕ} (h : f.IsLastFull o)
    (hn : ∀ full, o = some full → full.index.toNat < n) : (f.truncate n).IsLastFull o := by
  have hsome : ∀ m x, f.truncate n m = some x → f m = some x := by
    intro m x hx
    unfold Ledger.truncate at hx
    split at hx
    · exact hx
    · cases hx
  cases o with
  | none => exact fun m x hx => h m x (hsome m x hx)
  | some full =>
    obtain ⟨⟨a, ha, hrow⟩, hfull, hmax⟩ := h
    refine ⟨⟨a, ?_, hrow⟩, hfull, fun m x hx => hmax m x (hsome m x hx)⟩
    rw [truncate_of_lt (hn full rfl), ha]

end Ledger

namespace Chain

variable {P : Platform} {c c' : Chain} {f f' : Ledger} {a : ChainAction} {b l : Block}
  {now : UtcTime} {s : SignersCache}

/-- On tables that represent a ledger, coherence is what it is on the ledger. -/
theorem coherent_of_isLastFull (hr : c.db.Represents f) (h : f.IsLastFull c.lastFullBlock) :
    c.Coherent := by
  unfold Coherent
  cases hc : c.lastFullBlock with
  | none =>
    rw [hc] at h
    symm
    rw [Option.map_none, Table.lastWhere?_eq_none]
    intro k row hrow
    obtain ⟨m, x, rfl, hx, rfl⟩ := hr.exists_of_find? hrow
    rw [BlockRow.ofBlock_transaction_isSome]
    simpa using h m x hx
  | some full =>
    rw [hc] at h
    obtain ⟨⟨x, hx, hrow⟩, hfull, hmax⟩ := h
    symm
    rw [Option.map_some, Table.lastWhere?_eq_some]
    refine ⟨?_, ?_, fun k row hk hrow' => ?_⟩
    · rw [hr.blocks, hx, Option.map_some, hrow]
    · rw [BlockRow.ofBlock_transaction_isSome]
      exact hfull
    · obtain ⟨m, y, rfl, hy, rfl⟩ := hr.exists_of_find? hk
      rw [BlockRow.ofBlock_transaction_isSome] at hrow'
      exact_mod_cast hmax m y hy hrow'

/-- What the statement for the last full block selects is the last full block. -/
theorem isLastFull_lastFullBlock {db : Db} (hr : db.Represents f) :
    f.IsLastFull (db.lastFullBlock maxIndex none) := by
  have hmax : maxIndex.toNat < 2 ^ 63 := by decide
  have hbelow : ∀ m, (f m).isSome → m < maxIndex.toNat := by
    intro m hm
    have := hr.le_maxRows hm
    have : maxRows < maxIndex.toNat := by decide
    omega
  have hkey : ∀ x : Block, x.transaction.isSome → Db.Represents.IsFullFor none x :=
    fun x hx => ⟨hx, fun k hk => by cases hk⟩
  cases hq : db.lastFullBlock maxIndex none with
  | none =>
    intro m x hx
    have := hr.lastFullBlock_eq_none hmax hq m x hx (hbelow m (by rw [hx]; rfl))
    by_contra hfull
    exact this (hkey x (Option.isSome_iff_ne_none.mpr (by simpa using hfull)))
  | some full =>
    obtain ⟨n, x, hx, rfl, -, hfull, hgreatest⟩ := hr.lastFullBlock_eq_some hmax hq
    have hindex : x.collapse.index.toNat = n := hr.index n x hx
    refine ⟨⟨x, by rw [hindex, hx], (Block.ofBlock_collapse x).symm⟩, ?_, fun m y hy hy' => ?_⟩
    · rw [Block.collapse_transaction_isSome]
      exact hfull.1
    · rw [hindex]
      exact hgreatest m y hy (hbelow m (by rw [hy]; rfl)) (hkey y hy')

/-! ## Chains with a coherent cache -/

/-- A grounded chain that ends at its tip and caches its last full block. -/
structure Cached (c : Chain) (f : Ledger) : Prop extends c.Grounded f where
  top : ∀ m, (f m).isSome → m ≤ c.getHeight.toNat
  full : f.IsLastFull c.lastFullBlock

/-- What is cached is stored, so that it is not above the tip. -/
theorem Cached.index_le (hc : c.Cached f) {full : Block} (hfull : c.lastFullBlock = some full) :
    full.index ≤ c.getHeight := by
  have h := hc.full
  rw [hfull] at h
  obtain ⟨⟨x, hx, -⟩, -⟩ := h
  exact UInt64.le_iff_toNat_le.mpr (hc.top _ (by rw [hx]; rfl))

namespace Cached

/-- The caches of a chain that loads its tip. -/
theorem of_load (hr : c.db.Represents f) (hlast : c.lastBlock = c.db.loadLastBlock)
    (hfull : f.IsLastFull c.lastFullBlock) : c.Cached f where
  toGrounded := grounded_of_load hr hlast
  top _ hm := le_getHeight_of_load hr hlast hm
  full := hfull

theorem congr (hc : c.Cached f) (hdb : c'.db = c.db) (hlast : c'.lastBlock = c.lastBlock)
    (hfull : c'.lastFullBlock = c.lastFullBlock) : c'.Cached f where
  toGrounded := hc.toGrounded.congr hdb hlast
  top m hm := by
    have hheight : c'.getHeight = c.getHeight := by rw [getHeight, getHeight, hlast]
    rw [hheight]
    exact hc.top m hm
  full := by
    rw [hfull]
    exact hc.full

/-- A block has been put above everything else. -/
theorem put_top {g : Ledger} {c₀ : Chain} (hg : c'.Grounded (g.put b)) (hadded : c₀.Added b c')
    (hfree : g b.index.toNat = none) (htop : ∀ m, (g m).isSome → m ≤ b.index.toNat)
    (hfull : b.transaction.isNone → g.IsLastFull c₀.lastFullBlock) : c'.Cached (g.put b) where
  toGrounded := hg
  top m hm := by
    rw [getHeight_of_some hadded.lastBlock]
    by_cases hmb : m = b.index.toNat
    · exact hmb.le
    · rw [Ledger.put_of_ne hmb] at hm
      exact htop m hm
  full := by
    rw [hadded.lastFullBlock]
    by_cases hb : b.transaction.isSome
    · rw [if_pos hb]
      exact Ledger.IsLastFull.of_put_full hb htop
    · rw [if_neg hb]
      have hnone : b.transaction.isNone := by simpa using hb
      exact (hfull hnone).put_signing hnone hfree

/-- Appending a good block of positive index: the `INSERT` fails, or the block is on top. -/
theorem append (hc : c.Cached f) (hb : b.index ≠ 0)
    (hgood : c.checkNewBlock P now b = .ok (.good, s))
    (h : { c with signers := s }.addBlock b = .ok c') :
    c'.Cached f ∨ (f b.index.toNat = none ∧ c'.Cached (f.put b)) := by
  rcases append_ledger hc.toGrounded hgood h with ⟨rfl, -⟩ | ⟨hfree, hg', hadded⟩
  · exact Or.inl (hc.congr rfl rfl rfl)
  · have hindex := hc.index_eq_succ hb hgood
    refine Or.inr ⟨hfree, put_top hg' hadded hfree (fun m hm => ?_) fun _ => hc.full⟩
    have := hc.top m hm
    omega

/-- Replacing from a fork that is full or lies above the cached block. -/
theorem replace (hc : c.Cached f)
    (hb : b.transaction.isSome ∨ ∀ full, c.lastFullBlock = some full → full.index < b.index)
    (hfork : c.checkNewBlock P now b = .ok (.fork, s))
    (h : { c with signers := s }.replaceBlock b = .ok c') : ∃ f', c'.Cached f' := by
  obtain ⟨-, hg', hadded⟩ := replace_ledger hc.toGrounded hfork h
  refine ⟨_, put_top hg' hadded (Ledger.truncate_of_le le_rfl) (fun m hm => ?_) fun hnone => ?_⟩
  · by_contra hgt
    rw [Ledger.truncate_of_le (by omega)] at hm
    cases hm
  · apply hc.full.truncate
    intro full hfull
    rcases hb with hsome | hlt
    · rw [Option.isNone_iff_eq_none] at hnone
      rw [hnone] at hsome
      cases hsome
    · exact UInt64.lt_iff_toNat_lt.mp (hlt full hfull)

/-- Opening a database caches its tip and its last full block. -/
theorem of_opened {db : Db} {origin : Bytes} (hr : (Chain.new origin db).db.Represents f) :
    (Chain.new origin db).Cached f := by
  have hg' : (Chain.new origin db).Grounded f := grounded_of_load hr rfl
  refine of_load hr rfl ?_
  set c := Chain.new origin db with hc
  have hfull : c.lastFullBlock = c.lastBlock.bind fun block =>
      if block.transaction.isSome then some block else c.db.lastFullBlock maxIndex none := rfl
  rw [hfull]
  cases hl : c.lastBlock with
  | none =>
    intro m x hx
    rw [hg'.empty hl] at hx
    cases hx
  | some l =>
    rw [Option.bind_some]
    by_cases htx : l.transaction.isSome
    · rw [if_pos htx]
      refine ⟨hg'.tip l hl, htx, fun m x hx _ => ?_⟩
      have hload : c.db.loadLastBlock = some l := hl
      obtain ⟨n, y, hy, rfl, hmax⟩ := hg'.db.loadLastBlock_eq_some hload
      have hn : y.collapse.index.toNat = n := hg'.db.index n y hy
      rw [hn]
      exact hmax m (by rw [hx]; rfl)
    · rw [if_neg htx]
      exact isLastFull_lastFullBlock hg'.db

theorem of_new {db : Db} (hr : db.Represents f) (origin : Bytes) :
    ∃ f', (Chain.new origin db).Cached f' := by
  obtain ⟨f', hg', -⟩ := new_ledger hr origin
  exact ⟨f', of_opened hg'.db⟩

end Cached

/-! ## Checking the stored chain -/

/-- `check_chain` truncates the table at `i`. -/
def CutsAt (P : Platform) (clock : ℕ → UtcTime) (c : Chain) (count i : UInt64) : Prop :=
  ∃ start c₁, c.checkFrom P count = .ok start
    ∧ checkLoop P clock (c.getHeight.toNat + 1 - start.toNat) start c (c.checkStart start).1
        (c.checkStart start).2 = .ok (c₁, some i)

/-- The cache `o` after the blocks from `start` up to `stop` have been checked: the last full
one among them, the origin block apart, or what was cached before. -/
def CheckedFull (f : Ledger) (start stop : ℕ) (before o : Option Block) : Prop :=
  (o = before ∧ ∀ m x, start ≤ m → m < stop → 2 ≤ m → f m = some x → x.transaction.isNone)
    ∨ ∃ m x, start ≤ m ∧ m < stop ∧ 2 ≤ m ∧ f m = some x ∧ x.transaction.isSome
      ∧ o = some x.collapse ∧ ∀ j y, m < j → j < stop → f j = some y → y.transaction.isNone

/-- One more block in front that is not noted. -/
theorem CheckedFull.cons {start stop : ℕ} {before o : Option Block}
    (h : CheckedFull f (start + 1) stop before o)
    (hstart : ∀ x, 2 ≤ start → f start = some x → x.transaction.isNone) :
    CheckedFull f start stop before o := by
  rcases h with ⟨ho, hnone⟩ | ⟨m, x, h₁, h⟩
  · refine Or.inl ⟨ho, fun m x h₁ h₂ htwo hx => ?_⟩
    by_cases hm : m = start
    · subst hm
      exact hstart x htwo hx
    · exact hnone m x (by omega) h₂ htwo hx
  · exact Or.inr ⟨m, x, by omega, h⟩

/-- One more block in front that is full and has been noted. -/
theorem CheckedFull.cons_full {start stop : ℕ} {before o : Option Block} {x : Block}
    (h : CheckedFull f (start + 1) stop (some x.collapse) o) (hx : f start = some x)
    (hfull : x.transaction.isSome) (htwo : 2 ≤ start) (hstop : start < stop) :
    CheckedFull f start stop before o := by
  rcases h with ⟨ho, hnone⟩ | ⟨m, y, h₁, h⟩
  · exact Or.inr ⟨start, x, le_rfl, hstop, htwo, hx, hfull, ho,
      fun j y hj hjs hy => hnone j y (by omega) hjs (by omega) hy⟩
  · exact Or.inr ⟨m, y, by omega, h⟩

/-- **The loop of `check_chain` caches the last full block it has checked.** -/
theorem checkLoop_lastFull {clock : ℕ → UtcTime} {n : ℕ} {id : UInt64} {last lastFull : Option Block}
    {cut : Option UInt64} (hr : c.db.Represents f) (hid : 1 ≤ id.toNat) (hn : id.toNat + n ≤ 2 ^ 63)
    (h : checkLoop P clock n id c last lastFull = .ok (c', cut)) :
    ∃ stop, (cut = none → stop = id.toNat + n) ∧ (∀ i, cut = some i → stop = i.toNat)
      ∧ id.toNat ≤ stop ∧ CheckedFull f id.toNat stop c.lastFullBlock c'.lastFullBlock := by
  induction n generalizing id c last lastFull with
  | zero =>
    cases h
    exact ⟨id.toNat, fun _ => rfl, fun i hi => (by cases hi), le_rfl,
      Or.inl ⟨rfl, fun m x h₁ h₂ => absurd h₁ (by omega)⟩⟩
  | succ n ih =>
    have hsucc : (id + 1).toNat = id.toNat + 1 := toNat_add_one (by omega)
    obtain ⟨x, hx, hcases⟩ := checkLoop_succ hr h
    rcases hcases with ⟨h1, h⟩ | ⟨-, rfl, s, rfl, -⟩ | ⟨h1, s, -, ⟨hfull, h⟩ | ⟨hnone, h⟩⟩
    · -- the origin block is not noted
      obtain ⟨stop, hend, hcut, hle, hchecked⟩ := ih hr (by omega) (by omega) h
      rw [hsucc] at hle hchecked
      refine ⟨stop, fun hc => by rw [hend hc]; omega, hcut, by omega, hchecked.cons ?_⟩
      intro y htwo
      rw [h1, one_toNat] at htwo
      omega
    · exact ⟨id.toNat, fun hc => (by cases hc), fun i hi => (by cases hi; rfl), le_rfl,
        Or.inl ⟨rfl, fun m y h₁ h₂ => absurd h₁ (by omega)⟩⟩
    · let c₁ : Chain := { c with signers := s, lastFullBlock := some x.collapse }
      obtain ⟨stop, hend, hcut, hle, hchecked⟩ := ih (c := c₁) hr (by omega) (by omega) h
      rw [hsucc] at hle hchecked
      exact ⟨stop, fun hc => by rw [hend hc]; omega, hcut, by omega,
        hchecked.cons_full hx hfull (two_le_toNat hid h1) (by omega)⟩
    · let c₁ : Chain := { c with signers := s }
      obtain ⟨stop, hend, hcut, hle, hchecked⟩ := ih (c := c₁) hr (by omega) (by omega) h
      rw [hsucc] at hle hchecked
      refine ⟨stop, fun hc => by rw [hend hc]; omega, hcut, by omega, hchecked.cons ?_⟩
      intro y _ hy
      rw [hx, Option.some.injEq] at hy
      rw [← hy]
      exact hnone

/-- A full block above which no other is stored, as it reads back. -/
theorem isLastFull_collapse {m : ℕ} {x : Block} (hx : f m = some x) (hindex : x.index.toNat = m)
    (hfull : x.transaction.isSome)
    (habove : ∀ j y, m < j → f j = some y → y.transaction.isNone) :
    f.IsLastFull (some x.collapse) := by
  have hm : x.collapse.index.toNat = m := hindex
  refine ⟨⟨x, by rw [hm, hx], (Block.ofBlock_collapse x).symm⟩, ?_, fun j y hy hyfull => ?_⟩
  · rw [Block.collapse_transaction_isSome]
    exact hfull
  · rw [hm]
    by_contra hlt
    have hnone := habove j y (by omega) hy
    rw [Option.isNone_iff_eq_none] at hnone
    rw [hnone] at hyfull
    cases hyfull

/-- A coherent cache answers the final query of `check_chain` itself. -/
theorem isLastFull_getLastFullBlock (hr : c.db.Represents f) (h : f.IsLastFull c.lastFullBlock) :
    f.IsLastFull (c.getLastFullBlock maxIndex none) := by
  unfold getLastFullBlock
  cases hfull : c.lastFullBlock with
  | none => exact isLastFull_lastFullBlock hr
  | some full =>
    rw [hfull] at h
    obtain ⟨x, hx, -⟩ := h.1
    have hlt : full.index < maxIndex := by
      have hle := hr.le_maxRows (n := full.index.toNat) (by rw [hx]; rfl)
      have hmax : maxRows < maxIndex.toNat := by decide
      rw [UInt64.lt_iff_toNat_lt]
      omega
    simp only [hlt, Option.not_mem_none, false_implies, implies_true, and_true, if_true]
    exact h

/-- What has been checked before a truncation at `i` decides what the cache is then. -/
theorem isLastFull_of_checked {start i : ℕ} {o : Option Block} (hr : c.db.Represents f)
    (hfull : f.IsLastFull c.lastFullBlock) (hchecked : CheckedFull f start i c.lastFullBlock o)
    (hcond : (∀ full, c.lastFullBlock = some full → full.index.toNat < i)
      ∨ ∃ m x, start ≤ m ∧ m < i ∧ 2 ≤ m ∧ f m = some x ∧ x.transaction.isSome) :
    (f.truncate i).IsLastFull o := by
  rcases hchecked with ⟨rfl, hnone⟩ | ⟨m, x, -, hmi, -, hx, hxfull, rfl, habove⟩
  · rcases hcond with hlt | ⟨m, x, hsm, hmi, htwo, hx, hxfull⟩
    · exact hfull.truncate hlt
    · have hx' := hnone m x hsm hmi htwo hx
      rw [Option.isNone_iff_eq_none] at hx'
      rw [hx'] at hxfull
      cases hxfull
  · refine isLastFull_collapse (by rw [Ledger.truncate_of_lt hmi, hx]) (hr.index m x hx) hxfull ?_
    intro j y hj hy
    obtain ⟨hji, hy⟩ := Ledger.truncate_eq_some hy
    exact habove j y hj hji hy

/-- The condition under which `check_chain` keeps the cache coherent: when it truncates the
table, the cached block lies below the cut, or a full block was checked before it. -/
def CutKeepsFull (P : Platform) (clock : ℕ → UtcTime) (c : Chain) (count : UInt64) : Prop :=
  ∀ i, CutsAt P clock c count i →
    (∀ full, c.lastFullBlock = some full → full.index < i)
      ∨ ∃ start m x, c.checkFrom P count = .ok start ∧ start ≤ m ∧ m < i ∧ 2 ≤ m
        ∧ c.getBlock m = some x ∧ x.transaction.isSome

/-- Checking the stored chain. -/
theorem Cached.recheck {clock : ℕ → UtcTime} {count : UInt64} (hc : c.Cached f)
    (hcond : CutKeepsFull P clock c count) (h : c.checkChain P clock count = .ok c') :
    ∃ f', c'.Cached f' := by
  have hheight := hc.height_le
  have hmax := maxRows_lt
  obtain ⟨start, hstart, h⟩ := bind_eq_ok.mp h
  have hfrom := checkFrom_spec (by omega) hstart
  obtain ⟨⟨c₁, cut⟩, hloop, h⟩ := bind_eq_ok.mp h
  cases h
  have hdb := (checkLoop_spec hc.db hfrom.1 (by omega) hloop).2
  obtain ⟨stop, hend, hcut, -, hchecked⟩ := checkLoop_lastFull hc.db hfrom.1 (by omega) hloop
  -- the ledger after the loop, with the cache the loop has left
  have hafter : ∃ f₁, c₁.db.Represents f₁ ∧ f₁.IsLastFull c₁.lastFullBlock := by
    rcases hdb with ⟨hnone, hdb⟩ | ⟨i, hsome, htwo, -, hi, hdb⟩
    · refine ⟨f, hdb ▸ hc.db, ?_⟩
      have hstop := hend hnone
      rcases hchecked with ⟨ho, -⟩ | ⟨m, x, -, -, -, hx, hfull, ho, habove⟩
      · rw [ho]
        exact hc.full
      · rw [ho]
        refine isLastFull_collapse hx (hc.db.index m x hx) hfull fun j y hj hy => ?_
        have := hc.top j (by rw [hy]; rfl)
        exact habove j y hj (by omega) hy
    · have hlt : i.toNat < 2 ^ 63 := by
        have := hc.db.le_maxRows hi
        omega
      refine ⟨f.truncate i.toNat, by rw [hdb]; exact hc.db.truncateFromBlock hlt, ?_⟩
      rw [hcut i hsome] at hchecked
      refine isLastFull_of_checked hc.db hc.full hchecked ?_
      rw [hsome] at hloop
      rcases hcond i ⟨start, c₁, hstart, hloop⟩ with hlow | ⟨start', m, x, hs, hsm, hmi, htwo', hm, hfull⟩
      · exact Or.inl fun full hfull => UInt64.lt_iff_toNat_lt.mp (hlow full hfull)
      · rw [hstart, Except.ok.injEq] at hs
        subst hs
        rw [getBlock, hc.db.getBlock] at hm
        obtain ⟨y, hy, rfl⟩ := Option.map_eq_some_iff.mp hm
        rw [Block.collapse_transaction_isSome] at hfull
        exact Or.inr ⟨m.toNat, y, UInt64.le_iff_toNat_le.mp hsm, UInt64.lt_iff_toNat_lt.mp hmi,
          UInt64.le_iff_toNat_le.mp htwo', hy, hfull⟩
  obtain ⟨f₁, hr₁, hfull₁⟩ := hafter
  exact ⟨f₁, Cached.of_load hr₁ rfl (isLastFull_getLastFullBlock hr₁ hfull₁)⟩

/-! ## Runs of a chain -/

/-- The actions that keep the cache coherent.  A block of index 0 must not be appended; a
fork must be full or lie above the cached block; a truncation by `check_chain` must keep
that block or have passed a full one. -/
def CacheSafe (P : Platform) (c : Chain) : ChainAction → Prop
  | .append _ b => b.index ≠ 0
  | .replace _ b =>
    b.transaction.isSome ∨ ∀ full, c.lastFullBlock = some full → full.index < b.index
  | .recheck clock count => CutKeepsFull P clock c count
  | _ => True

/-- **The step lemma.** -/
theorem Cached.step (hc : c.Cached f) (hsafe : CacheSafe P c a) (h : c.Step P a c') :
    ∃ f', c'.Cached f' := by
  cases a with
  | judge now b =>
    obtain ⟨q, s, -, rfl⟩ := h
    exact ⟨f, hc.congr rfl rfl rfl⟩
  | height h' =>
    cases h
    exact ⟨f, hc.congr rfl rfl rfl⟩
  | append now b =>
    obtain ⟨s, hgood, hadd⟩ := h
    rcases hc.append hsafe hgood hadd with hc' | ⟨-, hc'⟩
    · exact ⟨f, hc'⟩
    · exact ⟨_, hc'⟩
  | replace now b =>
    obtain ⟨s, hfork, hrep⟩ := h
    exact hc.replace hsafe hfork hrep
  | recheck clock count => exact hc.recheck hsafe h
  | reopen =>
    cases h
    exact Cached.of_new hc.db c.origin

/-- **The cache of the last full block.**  In every chain that a database leads to by safe
actions, the cached block is the last full block of the table, and its index is at most
the height. -/
theorem run_coherent {origin : Bytes} {db : Db} (hr : db.Represents f)
    (run : Run (Step P) (CacheSafe P) (Chain.new origin db) c) :
    c.Coherent ∧ ∀ full, c.lastFullBlock = some full → full.index ≤ c.getHeight := by
  have hinv : ∃ f', c.Cached f' := by
    refine run.invariant (I := fun c => ∃ f', c.Cached f') (Cached.of_new hr origin) ?_
    rintro c₁ a c₂ ⟨f₁, hc₁⟩ hsafe hstep
    exact hc₁.step hsafe hstep
  obtain ⟨f', hc⟩ := hinv
  exact ⟨coherent_of_isLastFull hc.db hc.full, fun full hfull => hc.index_le hfull⟩

/-- Origin block, signing block and domain block are appended to an empty database, and another
domain block takes the place of the last one. -/
theorem run_coherent_fullFork : ∃ c c' s,
    (Chain.new Sample.genesis.hash Db.empty).appendAll (Sample.platform true) Sample.now
        [Sample.genesis, Sample.block 2 10 3 Sample.genesis.hash (Sample.key 2) none,
          Sample.block 3 20 5 (Sample.hash [3]) (Sample.key 2) (some (Sample.domain ⟨[7]⟩))]
        = .ok (some c)
      ∧ c.checkNewBlock (Sample.platform true) Sample.now (Sample.block 3 20 128 (Sample.hash [3])
        (Sample.key 3) (some (Sample.domain ⟨[8]⟩))) = .ok (.fork, s)
      ∧ { c with signers := s }.replaceBlock (Sample.block 3 20 128 (Sample.hash [3])
        (Sample.key 3) (some (Sample.domain ⟨[8]⟩))) = .ok c'
      ∧ (c'.lastFullBlock.map fun full => full.nonce) = some 128
      ∧ c'.Coherent ∧ ∀ full, c'.lastFullBlock = some full → full.index ≤ c'.getHeight := by
  have hrun : ∃ c,
      (Chain.new Sample.genesis.hash Db.empty).appendAll (Sample.platform true) Sample.now
          [Sample.genesis, Sample.block 2 10 3 Sample.genesis.hash (Sample.key 2) none,
            Sample.block 3 20 5 (Sample.hash [3]) (Sample.key 2) (some (Sample.domain ⟨[7]⟩))]
          = .ok (some c)
        ∧ ∃ r, c.checkNewBlock (Sample.platform true) Sample.now (Sample.block 3 20 128
          (Sample.hash [3]) (Sample.key 3) (some (Sample.domain ⟨[8]⟩))) = .ok r ∧ r.1 = .fork
        ∧ ∃ c', { c with signers := r.2 }.replaceBlock (Sample.block 3 20 128 (Sample.hash [3])
          (Sample.key 3) (some (Sample.domain ⟨[8]⟩))) = .ok c'
        ∧ (c'.lastFullBlock.map fun full => full.nonce) = some 128 := by
    decide +kernel
  obtain ⟨c, hc, ⟨_, s⟩, hfork, rfl, c', hreplace, hlast⟩ := hrun
  have hbase : Run (Step (Sample.platform true)) (CacheSafe (Sample.platform true))
      (Chain.new Sample.genesis.hash Db.empty) c := by
    refine appendAll_run (fun c₁ b hb => ?_) hc
    show b.index ≠ 0
    simp only [List.mem_cons, List.not_mem_nil, or_false] at hb
    rcases hb with rfl | rfl | rfl <;> decide
  have hrun := hbase.trans (Run.single (a := .replace Sample.now _) (Or.inl rfl) ⟨s, hfork, hreplace⟩)
  exact ⟨c, c', s, hc, hfork, hreplace, hlast, run_coherent Db.represents_empty hrun⟩

/-- A signing block that is better than block 2 replaces it and deletes the domain block
above.  The cache keeps the deleted block, whose index is now above the height. -/
theorem not_coherent_signingFork : ∃ c,
    Run (Step (Sample.platform true)) (fun _ _ => True) (Chain.new Sample.genesis.hash Db.empty) c
      ∧ ¬ c.Coherent ∧ ∃ full, c.lastFullBlock = some full ∧ c.getHeight < full.index := by
  have hrun : ∃ n,
      Node.receive (Sample.platform true) Sample.now
          [Sample.genesis, Sample.block 2 10 3 Sample.genesis.hash (Sample.key 2) none,
            Sample.block 3 20 5 (Sample.hash [3]) (Sample.key 2) (some (Sample.domain ⟨[7]⟩)),
            Sample.block 2 10 128 Sample.genesis.hash (Sample.key 3) none]
          (Node.fresh Sample.genesis.hash) = .ok n
        ∧ ¬ n.chain.Coherent ∧ (n.chain.lastFullBlock.map fun full => full.index) = some 3
        ∧ n.chain.getHeight = 2 := by
    decide +kernel
  obtain ⟨n, hn, hnot, hfull, hheight⟩ := hrun
  have hnode : Run (Node.Step (Sample.platform true)) (fun _ _ => True)
      (Node.fresh Sample.genesis.hash) n := Node.receive_run (fun _ _ _ => trivial) hn
  obtain ⟨full, hfull, hindex⟩ := Option.map_eq_some_iff.mp hfull
  refine ⟨n.chain, Node.chain_run hnode, hnot, full, hfull, ?_⟩
  rw [hheight, hindex]
  decide

end Chain
