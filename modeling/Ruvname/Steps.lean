/-
# The transitions of a chain, and what they do to its ledger

Everything a node does to its chain is a sequence of a few actions: it judges a block,
appends a good one, replaces from a fork, notes an announced height, checks the stored
chain, or opens the database again.  `Chain.Step` is the transition relation, and
`Chain.Step.ledger` says once and for all what a step does to the represented ledger.
All invariants of later modules are derived from it.
-/
import Ruvname.Ledger
import Ruvname.Run

open Exec

/-! ## Grounded chains -/

/-- The database represents the ledger and the cached tip is one of its blocks, in its
stored form. -/
structure Chain.Grounded (c : Chain) (f : Ledger) : Prop where
  db : c.db.Represents f
  tip : ∀ b, c.lastBlock = some b →
    ∃ a, f b.index.toNat = some a ∧ BlockRow.ofBlock a = BlockRow.ofBlock b
  empty : c.lastBlock = none → ∀ n, f n = none

namespace Chain

variable {P : Platform} {now : UtcTime} {c c' : Chain} {b l : Block} {f : Ledger} {s : SignersCache}

theorem maxRows_lt : maxRows + 1 < 2 ^ 63 := by decide

theorem one_toNat : (1 : UInt64).toNat = 1 := rfl

/-- Signed blocks start above the first ones. -/
theorem two_le_of_signersStart {i : UInt64} (h : blockSignersStart ≤ i) : 2 ≤ i.toNat := by
  have hle := UInt64.le_iff_toNat_le.mp h
  have hstart : 2 ≤ blockSignersStart.toNat := by decide
  omega

namespace Grounded

variable (hg : c.Grounded f)
include hg

theorem index_le_maxRows (hl : c.lastBlock = some l) : l.index.toNat ≤ maxRows := by
  obtain ⟨a, ha, -⟩ := hg.tip l hl
  exact hg.db.le_maxRows (Option.isSome_iff_exists.mpr ⟨a, ha⟩)

theorem isSome_of_le_tip (hl : c.lastBlock = some l) {n : ℕ} (h₁ : 1 ≤ n) (h₂ : n ≤ l.index.toNat) :
    (f n).isSome := by
  obtain ⟨a, ha, -⟩ := hg.tip l hl
  exact hg.db.closed _ (Option.isSome_iff_exists.mpr ⟨a, ha⟩) n h₁ h₂

/-- A chain that stores a block has a tip. -/
theorem exists_tip {n : ℕ} (hx : f n = some b) : ∃ l, c.lastBlock = some l := by
  cases hl : c.lastBlock with
  | none =>
    rw [hg.empty hl] at hx
    cases hx
  | some l => exact ⟨l, rfl⟩

/-- The successor of the tip's index is computed without overflow. -/
theorem addU64_tip (hl : c.lastBlock = some l) :
    addU64 P.checks l.index 1 = .ok (l.index + 1) ∧ (l.index + 1).toNat = l.index.toNat + 1 := by
  have hle := hg.index_le_maxRows hl
  have hmax := maxRows_lt
  have hlt : l.index.toNat + 1 < 2 ^ 64 := by omega
  exact ⟨addU64_one hlt, toNat_add_one hlt⟩

/-- A block that is not ahead of the tip. -/
theorem index_le_succ (hl : c.lastBlock = some l) {next : UInt64}
    (h : addU64 P.checks l.index 1 = .ok next) (hle : ¬ next < b.index) :
    b.index.toNat ≤ l.index.toNat + 1 := by
  obtain ⟨hnext, htoNat⟩ := hg.addU64_tip (P := P) hl
  rw [hnext] at h
  cases h
  rw [UInt64.not_lt, UInt64.le_iff_toNat_le, htoNat] at hle
  exact hle

/-- **Good**, read off the ledger: the genesis block of an empty chain, the successor of
the tip, or a block of the vacant index 0. -/
theorem good_cases (h : c.checkNewBlock P now b = .ok (.good, s)) :
    (c.lastBlock = none ∧ b.isGenesis ∧ (c.origin.isZero ∨ b.hash = c.origin)) ∨
    ∃ l, c.lastBlock = some l ∧
      ((b.index.toNat = l.index.toNat + 1 ∧ b.prevBlockHash = l.hash)
        ∨ (b.index = 0 ∧ f 0 = none)) := by
  rw [checkNewBlock, checkBlock_accepting accepting_good] at h
  obtain ⟨-, hpos⟩ := h
  cases hl : c.lastBlock with
  | none =>
    rw [hl, checkPosition_none accepting_good] at hpos
    refine Or.inl ⟨rfl, hpos.1, ?_⟩
    by_cases hz : c.origin.isZero
    · exact Or.inl hz
    · right
      by_contra hne
      exact hpos.2.1 ⟨hz, hne⟩
  | some l =>
    rw [hl, checkPosition_some accepting_good] at hpos
    obtain ⟨-, ⟨next, hnext, hle⟩, -, hcmp⟩ := hpos
    refine Or.inr ⟨l, rfl, ?_⟩
    have hsucc := hg.index_le_succ hl hnext hle
    rcases compareWithTip_eq_good.mp hcmp with ⟨hbl, -, hnone⟩ | ⟨hlt, hprev⟩
    · -- at or below the tip every index but 0 is stored
      right
      rw [getBlock, hg.db.getBlock, Option.map_eq_none_iff] at hnone
      have hzero : b.index.toNat = 0 := by
        by_contra hpos
        have := hg.isSome_of_le_tip hl (n := b.index.toNat) (by omega) (UInt64.le_iff_toNat_le.mp hbl)
        rw [hnone] at this
        cases this
      rw [hzero] at hnone
      exact ⟨UInt64.toNat_inj.mp hzero, hnone⟩
    · left
      rw [UInt64.lt_iff_toNat_lt] at hlt
      exact ⟨by omega, hprev⟩

/-- A good block of positive index is the successor of the tip. -/
theorem index_eq_succ (hb : b.index ≠ 0)
    (hgood : c.checkNewBlock P now b = .ok (.good, s)) :
    b.index.toNat = c.getHeight.toNat + 1 := by
  rcases hg.good_cases hgood with ⟨hnone, hgen, -⟩ | ⟨l, hl, ⟨hindex, -⟩ | ⟨h0, -⟩⟩
  · have h1 : b.index = 1 := (of_decide_eq_true hgen).1
    rw [getHeight_of_none hnone, h1]
    rfl
  · rw [getHeight_of_some hl, hindex]
  · exact absurd h0 hb

/-- **Fork**, read off the ledger: another block of this index is stored, at or below the
tip. -/
theorem fork_cases (h : c.checkNewBlock P now b = .ok (.fork, s)) :
    ∃ l my, c.lastBlock = some l ∧ b.index.toNat ≤ l.index.toNat ∧
      f b.index.toNat = some my ∧ my.hash ≠ b.hash := by
  rw [checkNewBlock, checkBlock_accepting accepting_fork] at h
  obtain ⟨-, hpos⟩ := h
  cases hl : c.lastBlock with
  | none =>
    rw [hl, checkPosition_none accepting_fork] at hpos
    exact absurd hpos.2.2.1 (by simp)
  | some l =>
    rw [hl, checkPosition_some accepting_fork] at hpos
    obtain ⟨hle, -, my, hmy, hne⟩ := compareWithTip_eq_fork.mp hpos.2.2.2
    rw [getBlock, hg.db.getBlock] at hmy
    obtain ⟨a, ha, rfl⟩ := Option.map_eq_some_iff.mp hmy
    exact ⟨l, a, rfl, UInt64.le_iff_toNat_le.mp hle, ha, hne⟩

/-- Only the tables, the tip and the ledger matter for being grounded. -/
theorem congr (hdb : c'.db = c.db) (hlast : c'.lastBlock = c.lastBlock) : c'.Grounded f where
  db := hdb ▸ hg.db
  tip := by
    rw [hlast]
    exact hg.tip
  empty := by
    rw [hlast]
    exact hg.empty

end Grounded

/-- A chain whose tip was loaded from its database. -/
theorem grounded_of_load (hr : c.db.Represents f) (hlast : c.lastBlock = c.db.loadLastBlock) :
    c.Grounded f where
  db := hr
  tip b hb := by
    rw [hlast] at hb
    obtain ⟨n, a, ha, rfl, -⟩ := hr.loadLastBlock_eq_some hb
    have hn : a.collapse.index.toNat = n := hr.index n a ha
    rw [hn]
    exact ⟨a, ha, (Block.ofBlock_collapse a).symm⟩
  empty hnone := by
    rw [hlast] at hnone
    exact hr.loadLastBlock_eq_none hnone

/-- Such a tip is the block of greatest position. -/
theorem le_getHeight_of_load (hr : c.db.Represents f) (hlast : c.lastBlock = c.db.loadLastBlock)
    {m : ℕ} (hm : (f m).isSome) : m ≤ c.getHeight.toNat := by
  cases hl : c.lastBlock with
  | none =>
    rw [hlast] at hl
    rw [hr.loadLastBlock_eq_none hl] at hm
    cases hm
  | some l =>
    rw [getHeight_of_some hl]
    rw [hlast] at hl
    obtain ⟨n, x, hx, rfl, hmax⟩ := hr.loadLastBlock_eq_some hl
    have hn : x.collapse.index.toNat = n := hr.index n x hx
    rw [hn]
    exact hmax m hm

end Chain

/-! ## Actions -/

/-- What can happen to a chain. -/
inductive ChainAction where
  /-- A block is judged, whatever the verdict. -/
  | judge (now : UtcTime) (b : Block)
  /-- A peer announces a height. -/
  | height (height : UInt64)
  /-- A block judged good is added. -/
  | append (now : UtcTime) (b : Block)
  /-- A block judged a fork replaces ours. -/
  | replace (now : UtcTime) (b : Block)
  /-- `check_chain` of the last blocks. -/
  | recheck (clock : ℕ → UtcTime) (count : UInt64)
  /-- The database is opened again. -/
  | reopen

/-- The transitions of a chain.  An action that stops has no successor state. -/
def Chain.Step (P : Platform) (c : Chain) (a : ChainAction) (c' : Chain) : Prop :=
  match a with
  | .judge now b => ∃ q s, c.checkNewBlock P now b = .ok (q, s) ∧ c' = { c with signers := s }
  | .height h => c' = c.updateMaxHeight h
  | .append now b => ∃ s, c.checkNewBlock P now b = .ok (.good, s)
      ∧ { c with signers := s }.addBlock b = .ok c'
  | .replace now b => ∃ s, c.checkNewBlock P now b = .ok (.fork, s)
      ∧ { c with signers := s }.replaceBlock b = .ok c'
  | .recheck clock count => c.checkChain P clock count = .ok c'
  | .reopen => c' = Chain.new c.origin c.db

/-- The blocks of a list are judged and appended one after the other, at one reading of the
clock; `none` if one of them is not good. -/
def Chain.appendAll (P : Platform) (now : UtcTime) : List Block → Chain → Exec (Option Chain)
  | [], c => .ok (some c)
  | b :: blocks, c => do
    let (quality, cache) ← c.checkNewBlock P now b
    if quality = .good then do
      let c ← { c with signers := cache }.addBlock b
      appendAll P now blocks c
    else .ok none

/-- What an action can do to the ledger. -/
def Ledger.Step (f : Ledger) (a : ChainAction) (f' : Ledger) : Prop :=
  match a with
  | .judge _ _ => f' = f
  | .height _ => f' = f
  | .append _ b => f' = f ∨ (f b.index.toNat = none ∧ f' = f.put b)
  | .replace _ b => (f b.index.toNat).isSome ∧ f' = (f.truncate b.index.toNat).put b
  | .recheck _ _ => f' = f ∨ ∃ i, 2 ≤ i ∧ (f i).isSome ∧ f' = f.truncate i
  | .reopen => f' = f ∨ f' = fun _ => none

namespace Chain

variable {P : Platform} {now : UtcTime} {c c' : Chain} {b l : Block} {f : Ledger} {s : SignersCache}

/-- The first block of the list is appended, then the others. -/
theorem appendAll_cons {blocks : List Block} (h : c.appendAll P now (b :: blocks) = .ok (some c')) :
    ∃ c₁, c.Step P (.append now b) c₁ ∧ c₁.appendAll P now blocks = .ok (some c') := by
  obtain ⟨⟨quality, cache⟩, hcheck, h⟩ := bind_eq_ok.mp h
  by_cases hq : quality = .good
  · simp only [hq, if_true] at h hcheck
    obtain ⟨c₁, hadd, h⟩ := bind_eq_ok.mp h
    exact ⟨c₁, ⟨cache, hcheck, hadd⟩, h⟩
  · simp only [hq, if_false] at h
    cases h

theorem appendAll_singleton (h : c.appendAll P now [b] = .ok (some c')) :
    c.Step P (.append now b) c' := by
  obtain ⟨c₁, hstep, h⟩ := appendAll_cons h
  cases h
  exact hstep

/-- Appending good blocks is a run of the chain. -/
theorem appendAll_run {blocks : List Block} {ok : Chain → ChainAction → Prop}
    (hok : ∀ c, ∀ b ∈ blocks, ok c (.append now b))
    (h : c.appendAll P now blocks = .ok (some c')) : Run (Step P) ok c c' := by
  induction blocks generalizing c with
  | nil =>
    cases h
    exact .refl _
  | cons b blocks ih =>
    obtain ⟨c₁, hstep, h⟩ := appendAll_cons h
    have hfirst : Run (Step P) ok c c₁ := Run.single (hok c b List.mem_cons_self) hstep
    exact hfirst.trans (ih (fun c x hx => hok c x (List.mem_cons_of_mem _ hx)) h)

/-! ## Each action on the ledger -/

/-- Appending a good block. -/
theorem append_ledger (hg : c.Grounded f) (hgood : c.checkNewBlock P now b = .ok (.good, s))
    (h : { c with signers := s }.addBlock b = .ok c') :
    (c' = { c with signers := s } ∧ c.db.addBlockToTable b = none)
      ∨ (f b.index.toNat = none ∧ c'.Grounded (f.put b) ∧ { c with signers := s }.Added b c') := by
  have hfill : b.index.toNat < 2 ^ 63 ∧ ∀ j, 1 ≤ j → j < b.index.toNat → (f j).isSome := by
    have hmax := maxRows_lt
    rcases hg.good_cases hgood with ⟨-, hgen, -⟩ | ⟨l, hl, ⟨hindex, -⟩ | ⟨h0, -⟩⟩
    · have h1 : b.index = 1 := (of_decide_eq_true hgen).1
      rw [h1, one_toNat]
      exact ⟨by omega, fun j hj hlt => by omega⟩
    · have := hg.index_le_maxRows hl
      exact ⟨by omega, fun j hj hlt => hg.isSome_of_le_tip hl hj (by omega)⟩
    · rw [h0]
      exact ⟨by decide, fun j hj hlt => absurd hlt (Nat.not_lt_zero j)⟩
  rcases addBlock_spec (c := { c with signers := s }) hg.db hfill.2 hfill.1 h with h | ⟨h₁, h₂, h₃⟩
  · exact Or.inl h
  · refine Or.inr ⟨h₁, ⟨h₂, ?_, ?_⟩, h₃⟩
    · intro x hx
      rw [h₃.lastBlock] at hx
      cases hx
      exact ⟨b, Ledger.put_self f b, rfl⟩
    · intro hx
      rw [h₃.lastBlock] at hx
      cases hx

/-- There is room in a table from which a row has just been deleted. -/
theorem length_deleteFrom_lt {α : Type} {t : Table ℤ α maxRows} {k : ℤ} {r : α}
    (h : t.find? k = some r) : (t.deleteFrom k).rows.length < maxRows := by
  have hlt : (t.deleteFrom k).rows.length < t.rows.length := by
    apply List.length_filter_lt_length_iff_exists.mpr
    exact ⟨(k, r), Table.mem_rows_iff.mpr h, by simp⟩
  exact hlt.trans_le t.bounded

/-- Replacing from a fork.  The `INSERT` finds its key vacant and room for the row. -/
theorem replace_ledger (hg : c.Grounded f) (hfork : c.checkNewBlock P now b = .ok (.fork, s))
    (h : { c with signers := s }.replaceBlock b = .ok c') :
    (f b.index.toNat).isSome ∧ c'.Grounded ((f.truncate b.index.toNat).put b)
      ∧ { c with signers := SignersCache.new }.Added b c' := by
  obtain ⟨l, my, hl, hle, hmy, -⟩ := hg.fork_cases hfork
  have hlt : b.index.toNat < 2 ^ 63 := by
    have := hg.index_le_maxRows hl
    have := maxRows_lt
    omega
  have hfill : ∀ j, 1 ≤ j → j < b.index.toNat → (f.truncate b.index.toNat j).isSome := by
    intro j hj hjb
    rw [Ledger.truncate_of_lt hjb]
    exact hg.isSome_of_le_tip hl hj (by omega)
  rcases addBlock_spec
      (c := { c with signers := SignersCache.new, db := c.db.truncateFromBlock b.index })
      (hg.db.truncateFromBlock hlt) hfill hlt h with ⟨-, hfail⟩ | ⟨-, h₂, h₃⟩
  · exfalso
    have hroom : ((c.db.truncateFromBlock b.index).blocks.insert? (asI64 b.index)
        (BlockRow.ofBlock b)).isSome := by
      apply Table.insert?_isSome.mpr
      have hrow : c.db.blocks.find? (asI64 b.index) = some (BlockRow.ofBlock my) := by
        rw [hg.db.find?_asI64, hmy]
        rfl
      refine ⟨?_, length_deleteFrom_lt hrow⟩
      show (c.db.blocks.deleteFrom (asI64 b.index)).find? _ = none
      rw [Table.find?_deleteFrom, if_neg (lt_irrefl _)]
    rw [Db.addBlockToTable, Option.map_eq_none_iff] at hfail
    rw [hfail] at hroom
    cases hroom
  · refine ⟨Option.isSome_iff_exists.mpr ⟨my, hmy⟩, ⟨h₂, ?_, ?_⟩,
      ⟨h₃.lastBlock, h₃.lastFullBlock, h₃.origin, h₃.maxHeight, h₃.zones, h₃.signers⟩⟩
    · intro x hx
      rw [h₃.lastBlock] at hx
      cases hx
      exact ⟨b, Ledger.put_self _ b, rfl⟩
    · intro hx
      rw [h₃.lastBlock] at hx
      cases hx

/-- The fields of a chain that no check changes. -/
structure SameFrame (c c' : Chain) : Prop where
  origin : c'.origin = c.origin
  lastBlock : c'.lastBlock = c.lastBlock
  maxHeight : c'.maxHeight = c.maxHeight
  zones : c'.zones = c.zones

/-- **One iteration of the loop of `check_chain`.**  The origin block is compared with the
origin; another block is the place of a cut, or is good and becomes the tip. -/
theorem checkLoop_succ {clock : ℕ → UtcTime} {n : ℕ} {id : UInt64} {last lastFull : Option Block}
    {cut : Option UInt64} (hr : c.db.Represents f)
    (h : checkLoop P clock (n + 1) id c last lastFull = .ok (c', cut)) :
    ∃ x, f id.toNat = some x ∧
      ((id = 1 ∧ checkLoop P clock n (id + 1) c (some x.collapse) lastFull = .ok (c', cut))
      ∨ (id ≠ 1 ∧ cut = some id ∧ ∃ s, c' = { c with signers := s, db := c.db.truncateFromBlock id }
        ∧ (s = c.signers ∨ ∃ q, c.checkBlock P (clock n) x.collapse last lastFull = .ok (q, s)))
      ∨ (id ≠ 1 ∧ ∃ s, c.checkBlock P (clock n) x.collapse last lastFull = .ok (.good, s)
        ∧ ((x.transaction.isSome ∧ checkLoop P clock n (id + 1)
            { c with signers := s, lastFullBlock := some x.collapse } (some x.collapse)
              (some x.collapse) = .ok (c', cut))
          ∨ (x.transaction.isNone ∧ checkLoop P clock n (id + 1)
            { c with signers := s } (some x.collapse) lastFull = .ok (c', cut))))) := by
  rw [checkLoop] at h
  cases hget : c.getBlock id with
  | none =>
    rw [hget] at h
    cases h
  | some block =>
    obtain ⟨x, hx, rfl⟩ : ∃ x, f id.toNat = some x ∧ x.collapse = block := by
      rw [getBlock, hr.getBlock] at hget
      exact Option.map_eq_some_iff.mp hget
    have hindex : x.index = id := UInt64.toNat_inj.mp (hr.index id.toNat x hx)
    refine ⟨x, hx, ?_⟩
    rw [hget] at h
    simp only [Block.collapse_index, hindex] at h
    by_cases h1 : id = 1
    · left
      rw [if_pos h1] at h
      split at h
      · cases h
      · exact ⟨h1, h⟩
    · right
      rw [if_neg h1] at h
      split at h
      · cases h
        exact Or.inl ⟨h1, rfl, c.signers, rfl, Or.inl rfl⟩
      · obtain ⟨⟨quality, cache⟩, hcheck, h⟩ := bind_eq_ok.mp h
        by_cases hq : quality = .good
        · simp only [hq, ne_eq, not_true_eq_false, if_false, Block.collapse_transaction_isSome] at h
          rw [hq] at hcheck
          refine Or.inr ⟨h1, cache, hcheck, ?_⟩
          by_cases htx : x.transaction.isSome
          · rw [if_pos htx] at h
            exact Or.inl ⟨htx, h⟩
          · rw [if_neg htx] at h
            exact Or.inr ⟨by simpa using htx, h⟩
        · simp only [ne_eq, hq, not_false_eq_true, if_true] at h
          cases h
          exact Or.inl ⟨h1, rfl, cache, rfl, Or.inr ⟨quality, hcheck⟩⟩

/-- Above 1 means from 2 on. -/
theorem two_le_toNat {id : UInt64} (hid : 1 ≤ id.toNat) (h1 : id ≠ 1) : 2 ≤ id.toNat := by
  have : id.toNat ≠ 1 := fun e => h1 (UInt64.toNat_inj.mp e)
  omega

/-- The loop of `check_chain` leaves the table alone, or cuts it at one block it visited. -/
theorem checkLoop_spec {clock : ℕ → UtcTime} {n : ℕ} {id : UInt64} {last lastFull : Option Block}
    {cut : Option UInt64} (hr : c.db.Represents f) (hid : 1 ≤ id.toNat) (hn : id.toNat + n ≤ 2 ^ 63)
    (h : checkLoop P clock n id c last lastFull = .ok (c', cut)) :
    SameFrame c c' ∧ ((cut = none ∧ c'.db = c.db) ∨
      ∃ i, cut = some i ∧ 2 ≤ i.toNat ∧ id.toNat ≤ i.toNat ∧ (f i.toNat).isSome
        ∧ c'.db = c.db.truncateFromBlock i) := by
  induction n generalizing id c last lastFull with
  | zero =>
    cases h
    exact ⟨⟨rfl, rfl, rfl, rfl⟩, Or.inl ⟨rfl, rfl⟩⟩
  | succ n ih =>
    have hsucc : (id + 1).toNat = id.toNat + 1 := toNat_add_one (by omega)
    obtain ⟨x, hx, hcases⟩ := checkLoop_succ hr h
    -- a cut above the next block is one above this block
    have hlater : ∀ {db : Db}, (∃ i, cut = some i ∧ 2 ≤ i.toNat ∧ (id + 1).toNat ≤ i.toNat
        ∧ (f i.toNat).isSome ∧ c'.db = db.truncateFromBlock i) → ∃ i, cut = some i ∧ 2 ≤ i.toNat
          ∧ id.toNat ≤ i.toNat ∧ (f i.toNat).isSome ∧ c'.db = db.truncateFromBlock i := by
      rintro db ⟨i, hcut, htwo, hle, hi, hdb⟩
      exact ⟨i, hcut, htwo, by omega, hi, hdb⟩
    rcases hcases with ⟨-, h⟩ | ⟨h1, rfl, s, rfl, -⟩ | ⟨-, s, -, ⟨-, h⟩ | ⟨-, h⟩⟩
    · obtain ⟨hframe, hcut⟩ := ih hr (by omega) (by omega) h
      exact ⟨hframe, hcut.imp_right hlater⟩
    · exact ⟨⟨rfl, rfl, rfl, rfl⟩,
        Or.inr ⟨id, rfl, two_le_toNat hid h1, le_refl _, by rw [hx]; rfl, rfl⟩⟩
    · let c₁ : Chain := { c with signers := s, lastFullBlock := some x.collapse }
      obtain ⟨⟨h₁, h₂, h₃, h₄⟩, hcut⟩ := ih (c := c₁) hr (by omega) (by omega) h
      exact ⟨⟨h₁, h₂, h₃, h₄⟩, hcut.imp_right hlater⟩
    · let c₁ : Chain := { c with signers := s }
      obtain ⟨⟨h₁, h₂, h₃, h₄⟩, hcut⟩ := ih (c := c₁) hr (by omega) (by omega) h
      exact ⟨⟨h₁, h₂, h₃, h₄⟩, hcut.imp_right hlater⟩

/-- The first index to check lies between 1 and the successor of the height. -/
theorem checkFrom_spec {count start : UInt64} (hlt : c.getHeight.toNat < 2 ^ 63)
    (h : c.checkFrom P count = .ok start) :
    1 ≤ start.toNat ∧ start.toNat ≤ c.getHeight.toNat + 1 := by
  unfold checkFrom at h
  split at h
  · rename_i hgt
    have hlt' : count.toNat < c.getHeight.toNat := UInt64.lt_iff_toNat_lt.mp hgt
    have hsub : (c.getHeight - count).toNat = c.getHeight.toNat - count.toNat :=
      UInt64.toNat_sub_of_le _ _ (UInt64.le_iff_toNat_le.mpr hlt'.le)
    have hadd : (c.getHeight - count).toNat + 1 < 2 ^ 64 := by
      rw [hsub]
      omega
    rw [addU64_one hadd] at h
    cases h
    rw [toNat_add_one hadd, hsub]
    omega
  · cases h
    rw [one_toNat]
    omega

theorem Grounded.height_le (hg : c.Grounded f) : c.getHeight.toNat ≤ maxRows := by
  unfold getHeight
  cases hl : c.lastBlock with
  | none => exact Nat.zero_le _
  | some l => exact hg.index_le_maxRows hl

/-- Checking the stored chain. -/
theorem recheck_ledger {clock : ℕ → UtcTime} {count : UInt64} (hg : c.Grounded f)
    (h : c.checkChain P clock count = .ok c') :
    ∃ f', c'.Grounded f' ∧ c'.origin = c.origin ∧
      (f' = f ∨ ∃ i, 2 ≤ i ∧ (f i).isSome ∧ f' = f.truncate i) := by
  have hheight := hg.height_le
  have hmax := maxRows_lt
  obtain ⟨start, hstart, h⟩ := bind_eq_ok.mp h
  have hfrom := checkFrom_spec (by omega) hstart
  obtain ⟨⟨c₁, cut⟩, hloop, h⟩ := bind_eq_ok.mp h
  cases h
  obtain ⟨hframe, hcut⟩ := checkLoop_spec hg.db hfrom.1 (by omega) hloop
  rcases hcut with ⟨-, hdb⟩ | ⟨i, -, htwo, -, hi, hdb⟩
  · exact ⟨f, grounded_of_load (hdb ▸ hg.db) rfl, hframe.origin, Or.inl rfl⟩
  · have hlt : i.toNat < 2 ^ 63 := by
      have := hg.db.le_maxRows hi
      omega
    refine ⟨f.truncate i.toNat, grounded_of_load ?_ rfl, hframe.origin, Or.inr ⟨_, htwo, hi, rfl⟩⟩
    show c₁.db.Represents _
    rw [hdb]
    exact hg.db.truncateFromBlock hlt

/-- Opening a database: its tip is loaded, a database of another origin is emptied. -/
theorem new_ledger {db : Db} (hr : db.Represents f) (origin : Bytes) :
    ∃ f', (Chain.new origin db).Grounded f' ∧ (f' = f ∨ f' = fun _ => none) := by
  unfold Chain.new
  simp only
  split
  · exact ⟨fun _ => none, grounded_of_load Db.represents_empty rfl, Or.inr rfl⟩
  · exact ⟨f, grounded_of_load hr rfl, Or.inl rfl⟩

/-- A fresh database stays empty when it is opened. -/
theorem new_empty (origin : Bytes) : (Chain.new origin Db.empty).db = Db.empty := by
  unfold Chain.new
  simp only
  split
  · rfl
  · rfl

/-- **What a step does to the ledger.** -/
theorem Step.ledger {a : ChainAction} (hg : c.Grounded f) (h : c.Step P a c') :
    ∃ f', c'.Grounded f' ∧ f.Step a f' ∧ c'.origin = c.origin := by
  cases a with
  | judge now b =>
    obtain ⟨q, s, -, rfl⟩ := h
    exact ⟨f, hg.congr rfl rfl, rfl, rfl⟩
  | height h =>
    cases h
    exact ⟨f, hg.congr rfl rfl, rfl, rfl⟩
  | append now b =>
    obtain ⟨s, hgood, hadd⟩ := h
    rcases append_ledger hg hgood hadd with ⟨rfl, -⟩ | ⟨hfree, hg', hadded⟩
    · exact ⟨f, hg.congr rfl rfl, Or.inl rfl, rfl⟩
    · exact ⟨_, hg', Or.inr ⟨hfree, rfl⟩, hadded.origin⟩
  | replace now b =>
    obtain ⟨s, hfork, hrep⟩ := h
    obtain ⟨hsome, hg', hadded⟩ := replace_ledger hg hfork hrep
    exact ⟨_, hg', ⟨hsome, rfl⟩, hadded.origin⟩
  | recheck clock count =>
    obtain ⟨f', hg', horigin, hf'⟩ := recheck_ledger hg h
    exact ⟨f', hg', hf', horigin⟩
  | reopen =>
    cases h
    obtain ⟨f', hg', hf'⟩ := new_ledger hg.db c.origin
    exact ⟨f', hg', hf', rfl⟩

end Chain
