/-
# The two tables and the cached tip

The blocks table of a node holds exactly the ids `1` to the height, each row the stored
form of an accepted block that is linked to the row below it; the domains table holds the
projection of the accepted domain transactions; the cached tip is the highest row.

Two tables and a cache are updated by separate statements on three paths (append, fork
replacement, truncation at startup).  The argument runs over the represented ledger:
`Stored` is the invariant there, `StoreInvariant` what it says about the tables.
-/
import Ruvname.Reachable

open Exec

/-! ## The invariant, on ledgers and on tables -/

/-- A grounded chain whose ledger has no position 0, ends at the tip and is linked. -/
structure Chain.Stored (c : Chain) (f : Ledger) : Prop extends c.Grounded f where
  zero : f 0 = none
  top : ∀ m, (f m).isSome → m ≤ c.getHeight.toNat
  linked : ∀ m x y, f m = some x → f (m + 1) = some y → y.prevBlockHash = x.hash

/-- The representation invariant of the store. -/
structure Chain.StoreInvariant (c : Chain) : Prop where
  /-- The ids are exactly `1` to the height. -/
  ids : ∀ k : ℤ, (c.db.blocks.find? k).isSome ↔ 1 ≤ k ∧ k ≤ c.getHeight.toNat
  /-- A row is the stored form of a block, and the domains table has the projection of the
  transaction of that block under the same id: none if it has no domain transaction. -/
  rows : ∀ k row, c.db.blocks.find? k = some row →
    ∃ b : Block, (b.index.toNat : ℤ) = k ∧ row = BlockRow.ofBlock b
      ∧ c.db.domains.find? k = b.domainRow?
  /-- No other id has a domain. -/
  domains : ∀ k, c.db.blocks.find? k = none → c.db.domains.find? k = none
  /-- The cached tip is the row of the highest id. -/
  tip : ∀ l, c.lastBlock = some l →
    c.db.blocks.find? l.index.toNat = some (BlockRow.ofBlock l)
  /-- A row refers to the row below it. -/
  linked : ∀ (k : ℤ) row below, 2 ≤ k → c.db.blocks.find? k = some row →
    c.db.blocks.find? (k - 1) = some below → row.prevBlockHash = below.hash

namespace Chain

variable {P : Platform} {c c' : Chain} {f f' : Ledger} {a : ChainAction} {b l : Block}

namespace Stored

variable (hs : c.Stored f)
include hs

/-- The positions of a stored ledger are `1` to the height. -/
theorem isSome_iff (m : ℕ) : (f m).isSome ↔ 1 ≤ m ∧ m ≤ c.getHeight.toNat := by
  constructor
  · intro hm
    refine ⟨?_, hs.top m hm⟩
    by_contra hlt
    have h0 : m = 0 := by omega
    rw [h0, hs.zero] at hm
    cases hm
  · rintro ⟨h₁, h₂⟩
    obtain ⟨l, hl, htip⟩ := exists_lastBlock (c := c) (by omega)
    exact hs.isSome_of_le_tip hl h₁ (htip ▸ h₂)

/-- **From the ledger to the tables.** -/
theorem storeInvariant : c.StoreInvariant where
  ids k := by
    constructor
    · intro hk
      obtain ⟨row, hrow⟩ := Option.isSome_iff_exists.mp hk
      obtain ⟨m, x, rfl, hx, -⟩ := hs.db.exists_of_find? hrow
      have := (hs.isSome_iff m).mp (by rw [hx]; rfl)
      omega
    · rintro ⟨h₁, h₂⟩
      obtain ⟨m, rfl⟩ := Int.eq_ofNat_of_zero_le (by omega : 0 ≤ k)
      rw [hs.db.blocks, Option.isSome_map]
      exact (hs.isSome_iff m).mpr (by omega)
  rows k row hrow := by
    obtain ⟨m, x, rfl, hx, rfl⟩ := hs.db.exists_of_find? hrow
    refine ⟨x, by rw [hs.db.index m x hx], rfl, ?_⟩
    rw [hs.db.domains, hx, Option.bind_some]
  domains k hk := by
    rcases lt_or_ge k 0 with hneg | hpos
    · exact hs.db.domains_neg k hneg
    · obtain ⟨m, rfl⟩ := Int.eq_ofNat_of_zero_le hpos
      rw [hs.db.blocks, Option.map_eq_none_iff] at hk
      rw [hs.db.domains, hk, Option.bind_none]
  tip l hl := by
    obtain ⟨x, hx, hrow⟩ := hs.tip l hl
    rw [hs.db.blocks, hx, Option.map_some, hrow]
  linked k row below hk hrow hbelow := by
    obtain ⟨m, x, rfl, hx, rfl⟩ := hs.db.exists_of_find? hrow
    obtain ⟨j, y, hj, hy, rfl⟩ := hs.db.exists_of_find? hbelow
    have hm : m = j + 1 := by omega
    subst hm
    exact hs.linked j y x hy hx

end Stored

namespace StoreInvariant

/-- The ledger read off tables that satisfy the invariant: some block behind each row. -/
noncomputable def ledger (c : Chain) : Ledger := fun n =>
  open Classical in
  if h : ∃ b : Block, b.index.toNat = n ∧ c.db.blocks.find? n = some (BlockRow.ofBlock b)
      ∧ c.db.domains.find? n = b.domainRow? then some h.choose
  else none

theorem ledger_eq_some {n : ℕ} {x : Block} (hx : ledger c n = some x) :
    x.index.toNat = n ∧ c.db.blocks.find? n = some (BlockRow.ofBlock x)
      ∧ c.db.domains.find? n = x.domainRow? := by
  unfold ledger at hx
  split at hx
  · rename_i h
    cases hx
    exact h.choose_spec
  · cases hx

variable (hi : c.StoreInvariant)
include hi

theorem ledger_isSome {n : ℕ} {row : BlockRow} (hrow : c.db.blocks.find? n = some row) :
    (ledger c n).isSome := by
  obtain ⟨x, hindex, rfl, hdomain⟩ := hi.rows n row hrow
  have h : ∃ b : Block, b.index.toNat = n ∧ c.db.blocks.find? n = some (BlockRow.ofBlock b)
      ∧ c.db.domains.find? n = b.domainRow? := ⟨x, by omega, hrow, hdomain⟩
  rw [ledger, dif_pos h]
  rfl

theorem ledger_blocks (n : ℕ) : c.db.blocks.find? n = (ledger c n).map BlockRow.ofBlock := by
  cases hx : ledger c n with
  | some x => exact (ledger_eq_some hx).2.1
  | none =>
    cases hrow : c.db.blocks.find? (n : ℤ) with
    | none => rfl
    | some row =>
      have := hi.ledger_isSome hrow
      rw [hx] at this
      cases this

theorem ledger_isSome_iff (m : ℕ) : (ledger c m).isSome ↔ 1 ≤ m ∧ m ≤ c.getHeight.toNat := by
  have hids := hi.ids m
  rw [hi.ledger_blocks, Option.isSome_map] at hids
  rw [hids]
  omega

theorem find?_eq_none {k : ℤ} (hk : k < 0) : c.db.blocks.find? k = none := by
  by_contra hne
  have := (hi.ids k).mp (Option.isSome_iff_ne_none.mpr hne)
  omega

theorem represents_ledger : c.db.Represents (ledger c) where
  blocks := hi.ledger_blocks
  blocks_neg k hk := hi.find?_eq_none hk
  domains n := by
    cases hx : ledger c n with
    | some x =>
      rw [Option.bind_some]
      exact (ledger_eq_some hx).2.2
    | none =>
      have hnone := hi.ledger_blocks n
      rw [hx, Option.map_none] at hnone
      exact hi.domains n hnone
  domains_neg k hk := hi.domains k (hi.find?_eq_none hk)
  index n x hx := (ledger_eq_some hx).1
  closed n hn j h₁ h₂ := by
    rw [hi.ledger_isSome_iff] at hn ⊢
    omega

/-- **From the tables to the ledger.** -/
theorem stored : c.Stored (ledger c) where
  db := hi.represents_ledger
  tip l hl := by
    have hrow := hi.tip l hl
    rw [hi.ledger_blocks] at hrow
    exact Option.map_eq_some_iff.mp hrow
  empty hnone n := by
    by_contra hne
    have hn := (hi.ledger_isSome_iff n).mp (Option.isSome_iff_ne_none.mpr hne)
    rw [getHeight_of_none hnone] at hn
    have hzero : (0 : UInt64).toNat = 0 := rfl
    omega
  zero := by
    by_contra hne
    have := (hi.ledger_isSome_iff 0).mp (Option.isSome_iff_ne_none.mpr hne)
    omega
  top m hm := ((hi.ledger_isSome_iff m).mp hm).2
  linked m x y hx hy := by
    have hm := (hi.ledger_isSome_iff m).mp (by rw [hx]; rfl)
    have hbelow : ((m + 1 : ℕ) : ℤ) - 1 = m := by omega
    refine hi.linked ((m + 1 : ℕ) : ℤ) (BlockRow.ofBlock y) (BlockRow.ofBlock x) (by omega)
      (ledger_eq_some hy).2.1 ?_
    rw [hbelow]
    exact (ledger_eq_some hx).2.1

end StoreInvariant

/-! ## The actions -/

namespace Stored

variable {now : UtcTime} {s : SignersCache}

/-- A chain whose tip was loaded from its database. -/
theorem of_load (hr : c.db.Represents f) (hlast : c.lastBlock = c.db.loadLastBlock) (hzero : f 0 = none)
    (hlinked : ∀ m x y, f m = some x → f (m + 1) = some y → y.prevBlockHash = x.hash) :
    c.Stored f where
  toGrounded := grounded_of_load hr hlast
  zero := hzero
  top _ hm := le_getHeight_of_load hr hlast hm
  linked := hlinked

/-- Only the tables and the tip matter. -/
theorem congr (hs : c.Stored f) (hdb : c'.db = c.db) (hlast : c'.lastBlock = c.lastBlock) :
    c'.Stored f where
  toGrounded := hs.toGrounded.congr hdb hlast
  zero := hs.zero
  top m hm := by
    have hheight : c'.getHeight = c.getHeight := by rw [getHeight, getHeight, hlast]
    rw [hheight]
    exact hs.top m hm
  linked := hs.linked

theorem zero_truncate (hs : c.Stored f) (n : ℕ) : f.truncate n 0 = none := by
  unfold Ledger.truncate
  split
  · exact hs.zero
  · rfl

theorem linked_truncate (hs : c.Stored f) (n m : ℕ) (x y : Block) (hx : f.truncate n m = some x)
    (hy : f.truncate n (m + 1) = some y) : y.prevBlockHash = x.hash := by
  have hlt : m + 1 < n := by
    by_contra hge
    rw [Ledger.truncate_of_le (by omega)] at hy
    cases hy
  rw [Ledger.truncate_of_lt (by omega)] at hx
  rw [Ledger.truncate_of_lt hlt] at hy
  exact hs.linked m x y hx hy

/-- A block put on top of a stored ledger. -/
theorem put_top {g : Ledger} (hg : c'.Grounded (g.put b)) (hlast : c'.lastBlock = some b)
    (hone : b.index.toNat ≠ 0) (hzero : g 0 = none) (htop : ∀ m, (g m).isSome → m < b.index.toNat)
    (hlinked : ∀ m x y, g m = some x → g (m + 1) = some y → y.prevBlockHash = x.hash)
    (hparent : ∀ m x, g m = some x → m + 1 = b.index.toNat → b.prevBlockHash = x.hash) :
    c'.Stored (g.put b) where
  toGrounded := hg
  zero := by rw [Ledger.put_of_ne (Ne.symm hone), hzero]
  top m hm := by
    rw [getHeight_of_some hlast]
    by_cases hmb : m = b.index.toNat
    · exact hmb.le
    · rw [Ledger.put_of_ne hmb] at hm
      exact (htop m hm).le
  linked m x y hx hy := by
    have hm : m ≠ b.index.toNat := by
      rintro rfl
      rw [Ledger.put_of_ne (by omega)] at hy
      have := htop _ (by rw [hy]; rfl)
      omega
    rw [Ledger.put_of_ne hm] at hx
    by_cases hmb : m + 1 = b.index.toNat
    · rw [hmb, Ledger.put_self] at hy
      cases hy
      exact hparent m x hx hmb
    · rw [Ledger.put_of_ne hmb] at hy
      exact hlinked m x y hx hy

/-- Appending a good block of positive index. -/
theorem append (hs : c.Stored f) (hb : b.index.toNat ≠ 0)
    (hgood : c.checkNewBlock P now b = .ok (.good, s))
    (h : { c with signers := s }.addBlock b = .ok c') : ∃ f', c'.Stored f' := by
  rcases append_ledger hs.toGrounded hgood h with ⟨rfl, -⟩ | ⟨hfree, hg', hadded⟩
  · exact ⟨f, hs.congr rfl rfl⟩
  · have hplace : b.index.toNat = c.getHeight.toNat + 1
        ∧ ∀ l, c.lastBlock = some l → b.prevBlockHash = l.hash := by
      rcases hs.good_cases hgood with ⟨hnone, hgen, -⟩ | ⟨l, hl, ⟨hindex, hprev⟩ | ⟨h0, -⟩⟩
      · have h1 : b.index = 1 := (of_decide_eq_true hgen).1
        refine ⟨by rw [getHeight_of_none hnone, h1]; rfl, fun l hl => ?_⟩
        rw [hnone] at hl
        cases hl
      · refine ⟨by rw [getHeight_of_some hl, hindex], fun l' hl' => ?_⟩
        rw [hl, Option.some.injEq] at hl'
        rw [hprev, hl']
      · rw [h0] at hb
        exact absurd rfl hb
    refine ⟨_, put_top hg' hadded.lastBlock hb hs.zero (fun m hm => ?_) hs.linked ?_⟩
    · have := hs.top m hm
      omega
    · -- the parent is the tip
      intro m x hx hm
      have hheight : m = c.getHeight.toNat := by omega
      cases hl : c.lastBlock with
      | none =>
        rw [hs.empty hl] at hx
        cases hx
      | some l =>
        obtain ⟨y, hy, hrow⟩ := hs.tip l hl
        rw [getHeight_of_some hl] at hheight
        rw [← hheight, hx, Option.some.injEq] at hy
        subst hy
        rw [hplace.2 l hl]
        calc l.hash = (BlockRow.ofBlock l).hash := rfl
          _ = (BlockRow.ofBlock x).hash := by rw [hrow]
          _ = x.hash := rfl

/-- Replacing from a fork of positive index: the fork shares the parent of our block. -/
theorem replace (hs : c.Stored f) (hb : b.index.toNat ≠ 0)
    (hfork : c.checkNewBlock P now b = .ok (.fork, s))
    (h : { c with signers := s }.replaceBlock b = .ok c') : ∃ f', c'.Stored f' := by
  obtain ⟨-, hg', hadded⟩ := replace_ledger hs.toGrounded hfork h
  have hpassed := ((checkBlock_accepting accepting_fork).mp hfork).1
  refine ⟨_, put_top hg' hadded.lastBlock hb (hs.zero_truncate _) (fun m hm => ?_)
    (hs.linked_truncate _) ?_⟩
  · by_contra hge
    rw [Ledger.truncate_of_le (by omega)] at hm
    cases hm
  · intro m x hx hm
    rw [Ledger.truncate_of_lt (by omega)] at hx
    have hsub : (b.index - 1).toNat = m := by
      rw [toNat_sub_one (by omega)]
      omega
    have hget : c.getBlock (b.index - 1) = some x.collapse := by
      rw [getBlock, hs.db.getBlock, hsub, hx, Option.map_some]
    have hprev : b.prevBlockHash = x.collapse.hash :=
      hpassed.prevBlockHash_eq (fun h0 => hb (by rw [h0]; rfl)) hget
    exact hprev

/-- Checking the stored chain. -/
theorem recheck {clock : ℕ → UtcTime} {count : UInt64} (hs : c.Stored f)
    (h : c.checkChain P clock count = .ok c') : ∃ f', c'.Stored f' := by
  obtain ⟨f', hg', -, hf'⟩ := recheck_ledger hs.toGrounded h
  have hload : c'.lastBlock = c'.db.loadLastBlock := by
    obtain ⟨start, -, h⟩ := bind_eq_ok.mp h
    obtain ⟨⟨c₁, cut⟩, -, h⟩ := bind_eq_ok.mp h
    cases h
    rfl
  refine ⟨f', of_load hg'.db hload ?_ ?_⟩
  · rcases hf' with rfl | ⟨i, -, -, rfl⟩
    · exact hs.zero
    · exact hs.zero_truncate i
  · rcases hf' with rfl | ⟨i, -, -, rfl⟩
    · exact hs.linked
    · exact hs.linked_truncate i

/-- Opening the database again. -/
theorem reopen (hs : c.Stored f) (origin : Bytes) : ∃ f', (Chain.new origin c.db).Stored f' := by
  obtain ⟨f', hg', hf'⟩ := new_ledger hs.db origin
  have hload : (Chain.new origin c.db).lastBlock = (Chain.new origin c.db).db.loadLastBlock := rfl
  refine ⟨f', of_load hg'.db hload ?_ ?_⟩
  · rcases hf' with rfl | rfl
    · exact hs.zero
    · rfl
  · rcases hf' with rfl | rfl
    · exact hs.linked
    · intro m x y hx
      cases hx

/-- **The step lemma.**  Every action on blocks of positive index keeps the store. -/
theorem step (hs : c.Stored f)
    (happend : ∀ now b, a = .append now b → b.index.toNat ≠ 0)
    (hreplace : ∀ now b, a = .replace now b → b.index.toNat ≠ 0) (h : c.Step P a c') :
    ∃ f', c'.Stored f' := by
  cases a with
  | judge now b =>
    obtain ⟨q, s, -, rfl⟩ := h
    exact ⟨f, hs.congr rfl rfl⟩
  | height h' =>
    cases h
    exact ⟨f, hs.congr rfl rfl⟩
  | append now b =>
    obtain ⟨s, hgood, hadd⟩ := h
    exact hs.append (happend now b rfl) hgood hadd
  | replace now b =>
    obtain ⟨s, hfork, hrep⟩ := h
    exact hs.replace (hreplace now b rfl) hfork hrep
  | recheck clock count => exact hs.recheck h
  | reopen =>
    cases h
    exact hs.reopen c.origin

end Stored

end Chain

/-! ## Runs of a node -/

/-- The blocks an input brings have a positive index. -/
def NodeInput.Positive : NodeInput → Prop
  | .block _ b => 1 ≤ b.index
  | .mined _ b => 1 ≤ b.index
  | _ => True

namespace Node

variable {P : Platform} {n n' : Node} {i : NodeInput}

/-- A step puts at most the received block into the bucket. -/
theorem Step.mem_futureBlocks (h : n.Step P i n') {e : UInt64 × Block} (he : e ∈ n'.futureBlocks) :
    e ∈ n.futureBlocks ∨ ∃ clock b, i = .block clock b ∧ e = (b.index, b) := by
  cases i with
  | block clock b =>
    obtain ⟨state, h⟩ := h
    rcases handleBlock_cases h with ⟨s, c₁, -, -, next, future, -, hdrain, hsub⟩
      | ⟨s, -, -, -, hsame⟩ | ⟨q, s, maxHeight, -, -, -, hsame | hinsert⟩
    · exact Or.inl ((drainFuture_run hdrain).2 (hsub he))
    · exact Or.inl (hsame ▸ he)
    · exact Or.inl (hsame ▸ he)
    · rw [hinsert, FutureBlocks.insert, List.mem_cons] at he
      rcases he with rfl | he
      · exact Or.inr ⟨clock, b, rfl, rfl⟩
      · exact Or.inl (List.mem_of_mem_filter he)
  | height h' =>
    cases h
    exact Or.inl he
  | mined now b =>
    obtain ⟨⟨quality, cache⟩, -, h⟩ := bind_eq_ok.mp h
    by_cases hq : quality = .good
    · simp only [hq, if_true] at h
      obtain ⟨c₁, -, h⟩ := bind_eq_ok.mp h
      cases h
      exact Or.inl he
    · simp only [hq, if_false] at h
      cases h
      exact Or.inl he
  | restart clock count =>
    obtain ⟨c, -, h⟩ := bind_eq_ok.mp h
    cases h
    cases he

/-- A positive index, as a natural number. -/
theorem toNat_ne_zero {k : UInt64} (h : 1 ≤ k) : k.toNat ≠ 0 := by
  have := UInt64.le_iff_toNat_le.mp h
  rw [Chain.one_toNat] at this
  omega

/-- The chain is stored and the blocks that wait have positive indices. -/
structure WellStored (n : Node) : Prop where
  chain : ∃ f, n.chain.Stored f
  future : ∀ e ∈ n.futureBlocks, 1 ≤ e.2.index

theorem Step.wellStored (hn : n.WellStored) (hi : i.Positive) (h : n.Step P i n') :
    n'.WellStored where
  chain := by
    refine h.chain_invariant (I := fun c => ∃ f, c.Stored f) hn.chain ?_
    rintro c a c' ⟨f, hs⟩ hallowed hstep
    refine hs.step ?_ ?_ hstep
    · rintro now x rfl
      cases i with
      | block clock b =>
        rcases hallowed with rfl | ⟨j, hj⟩
        · exact toNat_ne_zero hi
        · exact toNat_ne_zero (hn.future _ hj)
      | mined now b =>
        cases hallowed
        exact toNat_ne_zero hi
      | _ => exact hallowed.elim
    · rintro now x rfl
      cases i with
      | block clock b =>
        obtain ⟨rfl, -⟩ := hallowed
        exact toNat_ne_zero hi
      | _ => exact hallowed.elim
  future e he := by
    rcases h.mem_futureBlocks he with hold | ⟨clock, b, rfl, rfl⟩
    · exact hn.future e hold
    · exact hi

/-- A fresh node satisfies the invariant. -/
theorem storeInvariant_fresh (origin : Bytes) : (fresh origin).chain.StoreInvariant := by
  have hdb : (fresh origin).chain.db = Db.empty := Chain.new_empty origin
  have hload : (fresh origin).chain.lastBlock = (fresh origin).chain.db.loadLastBlock := rfl
  refine (Chain.Stored.of_load (f := fun _ => none) ?_ hload rfl ?_).storeInvariant
  · rw [hdb]
    exact Db.represents_empty
  · intro m x y hx
    cases hx

/-- **The store is represented correctly.**  A node that starts with a store that satisfies
the invariant, and that receives and mines blocks of positive index only, satisfies it in
every state it reaches. -/
theorem run_storeInvariant {n₀ : Node} (hstart : n₀.chain.StoreInvariant)
    (hfuture : ∀ e ∈ n₀.futureBlocks, 1 ≤ e.2.index)
    (run : Run (Step P) (fun _ i => i.Positive) n₀ n) : n.chain.StoreInvariant := by
  have hinv : n.WellStored :=
    run.invariant ⟨⟨_, hstart.stored⟩, hfuture⟩ fun _ _ _ hm hi hstep => hstep.wellStored hm hi
  obtain ⟨f, hs⟩ := hinv.chain
  exact hs.storeInvariant

/-- From the empty database, by way of the origin block and a domain. -/
theorem run_storeInvariant_domain : ∃ n,
    receive (Sample.platform true) Sample.now [Sample.genesis,
        Sample.block 2 10 5 Sample.genesis.hash (Sample.key 2) (some (Sample.domain ⟨[7]⟩))]
        (fresh Sample.genesis.hash) = .ok n
      ∧ n.chain.getHeight = 2 ∧ n.chain.StoreInvariant := by
  have hrun : ∃ n,
      receive (Sample.platform true) Sample.now [Sample.genesis,
          Sample.block 2 10 5 Sample.genesis.hash (Sample.key 2) (some (Sample.domain ⟨[7]⟩))]
          (fresh Sample.genesis.hash) = .ok n
        ∧ n.chain.getHeight = 2 := by
    decide +kernel
  obtain ⟨n, hn, hheight⟩ := hrun
  refine ⟨n, hn, hheight, ?_⟩
  refine run_storeInvariant (storeInvariant_fresh Sample.genesis.hash) (fun e he => by cases he)
    (receive_run ?_ hn)
  intro m b hb
  rw [List.mem_cons, List.mem_singleton] at hb
  rcases hb with rfl | rfl
  · show (1 : UInt64) ≤ 1
    decide
  · show (1 : UInt64) ≤ 2
    decide

end Node

/-! ## The text of a transaction and its domain -/

/-- The domains table is the projection of the rows of the blocks table as they read back. -/
def Chain.DomainsProjectRows (c : Chain) : Prop :=
  ∀ k row t, c.db.blocks.find? k = some row → row.transaction.map TransactionJson.fromJson = some t →
    t.class' = classDomain → ∃ d, c.db.domains.find? k = some d ∧ d.timestamp = row.timestamp
      ∧ d.identity = t.identity ∧ d.data = t.data
      ∧ d.signing = if t.signing.isEmpty then row.pubKey else t.signing

namespace Sample

/-- A domain block for the identity of one zero byte. -/
def zeroIdentity : Block := block 2 10 5 genesis.hash (key 2) (some (domain ⟨[0]⟩))

end Sample

namespace Node

/-- The text in the blocks table leaves out an identity of zero bytes, its row in the
domains table keeps it. -/
theorem not_domainsProjectRows_zeroIdentity : ∃ n,
    receive (Sample.platform true) Sample.now [Sample.genesis, Sample.zeroIdentity]
        (fresh Sample.genesis.hash) = .ok n
      ∧ ¬ n.chain.DomainsProjectRows := by
  have hrun : ∃ n,
      receive (Sample.platform true) Sample.now [Sample.genesis, Sample.zeroIdentity]
          (fresh Sample.genesis.hash) = .ok n
        ∧ (n.chain.db.blocks.find? 2).map (fun row => row.transaction.map TransactionJson.fromJson)
          = some (some (Sample.domain Bytes.default))
        ∧ (n.chain.db.domains.find? 2).map (fun d => d.identity) = some ⟨[0]⟩ := by
    decide +kernel
  obtain ⟨n, hn, hrow, hdomain⟩ := hrun
  refine ⟨n, hn, fun hproject => ?_⟩
  obtain ⟨row, hfind, htx⟩ := Option.map_eq_some_iff.mp hrow
  obtain ⟨d, hd, -, hidentity, -⟩ := hproject 2 row _ hfind htx rfl
  rw [hd, Option.map_some, hidentity] at hdomain
  exact absurd hdomain (by decide)

end Node
