/-
# The ledger a database represents

The abstract view of the two tables.  A *ledger* assigns to a position the block accepted
there; `Db.Represents db f` says that the `blocks` table holds the stored form of every
block of the ledger `f` and nothing else, that the `domains` table is the projection of
its domain transactions, and that a ledger has no gap above position 0.

The queries and updates of `Chain` become the obvious operations on ledgers: a lookup, a
greatest position with a property, `put` and `truncate`.
-/
import Ruvname.Verdict

open Exec

/-! ## Stored form -/

/-- The row of `domains` that belongs to a block: only a domain transaction has one, and an
empty `signing` stands for the key of the block. -/
def Block.domainRow? (b : Block) : Option DomainRow :=
  b.transaction.bind fun t =>
    if t.class' = classDomain then
      some (DomainRow.ofTransaction b.timestamp (Chain.ownedTransaction b.pubKey t))
    else none

namespace Block

variable (b : Block)

@[simp] theorem collapse_index : b.collapse.index = b.index := rfl
@[simp] theorem collapse_hash : b.collapse.hash = b.hash := rfl
@[simp] theorem collapse_pubKey : b.collapse.pubKey = b.pubKey := rfl
@[simp] theorem collapse_timestamp : b.collapse.timestamp = b.timestamp := rfl
@[simp] theorem collapse_prevBlockHash : b.collapse.prevBlockHash = b.prevBlockHash := rfl
@[simp] theorem collapse_signature : b.collapse.signature = b.signature := rfl

/-- A block that is stored is full if it was. -/
@[simp] theorem collapse_transaction_isSome :
    b.collapse.transaction.isSome = b.transaction.isSome := by
  simp [collapse]

/-- What is stored does not change when a block is written a second time. -/
@[simp] theorem ofBlock_collapse : BlockRow.ofBlock b.collapse = BlockRow.ofBlock b := by
  have hbytes : ∀ x : Bytes, x.collapse.unlessZero = x.unlessZero := by
    intro x
    unfold Bytes.collapse Bytes.unlessZero
    cases hx : x.isZero <;> simp [hx, Bytes.isZero_default]
  have htx : ∀ t : Transaction, TransactionJson.toJson t.collapse = TransactionJson.toJson t := by
    intro t
    simp only [TransactionJson.toJson, Transaction.collapse, hbytes]
    rfl
  have hmap : (b.transaction.map Transaction.collapse).map TransactionJson.toJson
      = b.transaction.map TransactionJson.toJson := by
    rw [Option.map_map]
    congr 1
    funext t
    exact htx t
  simp [BlockRow.ofBlock, collapse, hmap]

end Block

@[simp] theorem BlockRow.ofBlock_hash (b : Block) : (BlockRow.ofBlock b).hash = b.hash := rfl
@[simp] theorem BlockRow.ofBlock_pubKey (b : Block) : (BlockRow.ofBlock b).pubKey = b.pubKey := rfl
@[simp] theorem BlockRow.ofBlock_prevBlockHash (b : Block) :
    (BlockRow.ofBlock b).prevBlockHash = b.prevBlockHash := rfl

/-- A row is full if its block is. -/
@[simp] theorem BlockRow.ofBlock_transaction_isSome (b : Block) :
    (BlockRow.ofBlock b).transaction.isSome = b.transaction.isSome := by
  simp [BlockRow.ofBlock]

/-! ## Ledgers -/

/-- The blocks accepted at the positions of a chain. -/
def Ledger := ℕ → Option Block

namespace Ledger

/-- The ledger without the positions from `n` on. -/
def truncate (f : Ledger) (n : ℕ) : Ledger := fun m => if m < n then f m else none

/-- The ledger with a block at its own index. -/
def put (f : Ledger) (b : Block) : Ledger := fun m => if m = b.index.toNat then some b else f m

/-- The block that is put is there. -/
theorem put_self (f : Ledger) (b : Block) : f.put b b.index.toNat = some b := if_pos rfl

/-- The others are as they were. -/
theorem put_of_ne {f : Ledger} {b : Block} {m : ℕ} (h : m ≠ b.index.toNat) : f.put b m = f m :=
  if_neg h

/-- Below the cut nothing changes. -/
theorem truncate_of_lt {f : Ledger} {n m : ℕ} (h : m < n) : f.truncate n m = f m := if_pos h

/-- From the cut on there is nothing. -/
theorem truncate_of_le {f : Ledger} {n m : ℕ} (h : n ≤ m) : f.truncate n m = none :=
  if_neg (by omega)

/-- A truncated ledger has no block from the cut on. -/
theorem truncate_eq_some {f : Ledger} {n m : ℕ} {x : Block} (h : f.truncate n m = some x) :
    m < n ∧ f m = some x := by
  unfold truncate at h
  split at h
  · exact ⟨‹m < n›, h⟩
  · cases h

/-- A block that is put is the only new one. -/
theorem put_eq_some {f : Ledger} {b x : Block} {m : ℕ} (h : f.put b m = some x) :
    f m = some x ∨ x = b := by
  unfold put at h
  split at h
  · cases h
    exact Or.inr rfl
  · exact Or.inl h

end Ledger

/-! ## Representation -/

/-- The database holds exactly the blocks of the ledger. -/
structure Db.Represents (db : Db) (f : Ledger) : Prop where
  blocks : ∀ n : ℕ, db.blocks.find? n = (f n).map BlockRow.ofBlock
  blocks_neg : ∀ k : ℤ, k < 0 → db.blocks.find? k = none
  domains : ∀ n : ℕ, db.domains.find? n = (f n).bind Block.domainRow?
  domains_neg : ∀ k : ℤ, k < 0 → db.domains.find? k = none
  index : ∀ n b, f n = some b → b.index.toNat = n
  closed : ∀ n, (f n).isSome → ∀ j, 1 ≤ j → j ≤ n → (f j).isSome

/-- An empty table represents an empty ledger. -/
theorem Db.represents_empty : Db.empty.Represents (fun _ => none) where
  blocks _ := rfl
  blocks_neg _ _ := rfl
  domains _ := rfl
  domains_neg _ _ := rfl
  index _ _ h := by cases h
  closed _ h := by cases h

/-- An empty database represents nothing else. -/
theorem Db.Represents.eq_none_of_empty {f : Ledger} (h : Db.empty.Represents f) (n : ℕ) :
    f n = none := by
  have hrow := h.blocks n
  rwa [show Db.empty.blocks.find? (n : ℤ) = none from rfl, eq_comm, Option.map_eq_none_iff] at hrow

namespace Db.Represents

variable {db db' : Db} {f : Ledger} (hr : db.Represents f)
include hr

/-- A position is never larger than the number of rows SQLite can hold. -/
theorem le_maxRows {n : ℕ} (h : (f n).isSome) : n ≤ maxRows := by
  have hcard : ((Finset.Icc 1 n).map Nat.castEmbedding : Finset ℤ).card ≤ maxRows := by
    apply Table.card_le_of_forall_isSome (t := db.blocks)
    intro k hk
    rw [Finset.mem_map] at hk
    obtain ⟨j, hj, rfl⟩ := hk
    rw [Finset.mem_Icc] at hj
    rw [Nat.castEmbedding_apply, hr.blocks, Option.isSome_map]
    exact hr.closed n h j hj.1 hj.2
  rw [Finset.card_map, Nat.card_Icc] at hcard
  omega

/-- There are no blocks above the last row. -/
theorem eq_none_of_lt {n : ℕ} (h : maxRows < n) : f n = none := by
  by_contra hne
  have := hr.le_maxRows (Option.isSome_iff_ne_none.mpr hne)
  omega

/-- The row under the `i64` cast of an index is that of the index itself. -/
theorem find?_asI64 (i : UInt64) :
    db.blocks.find? (asI64 i) = (f i.toNat).map BlockRow.ofBlock := by
  by_cases hi : i.toNat < 2 ^ 63
  · rw [asI64_of_lt hi, hr.blocks]
  · rw [hr.blocks_neg _ (asI64_neg_of_le (by omega)),
      hr.eq_none_of_lt (lt_of_lt_of_le (by decide) (not_lt.mp hi)), Option.map_none]

/-- `get_block` is a lookup in the ledger, up to all-zero byte strings. -/
theorem getBlock (i : UInt64) : db.getBlock i = (f i.toNat).map Block.collapse := by
  unfold Db.getBlock
  rw [hr.find?_asI64]
  cases hf : f i.toNat with
  | none => rfl
  | some b =>
    have hb : b.index = i := UInt64.toNat_inj.mp (hr.index _ _ hf)
    subst hb
    simp only [Option.map_some, BlockRow.toBlock_ofBlock]

/-- A stored id is a position of the ledger. -/
theorem exists_of_find? {k : ℤ} {r : BlockRow} (h : db.blocks.find? k = some r) :
    ∃ (n : ℕ) (b : Block), k = n ∧ f n = some b ∧ r = BlockRow.ofBlock b := by
  rcases lt_or_ge k 0 with hk | hk
  · rw [hr.blocks_neg k hk] at h
    cases h
  · obtain ⟨n, rfl⟩ := Int.eq_ofNat_of_zero_le hk
    rw [hr.blocks] at h
    obtain ⟨b, hb, rfl⟩ := Option.map_eq_some_iff.mp h
    exact ⟨n, b, rfl, hb, rfl⟩

/-- A row of the domains belongs to a block of the ledger. -/
theorem exists_of_find?_domains {k : ℤ} {d : DomainRow} (h : db.domains.find? k = some d) :
    ∃ (n : ℕ) (b : Block), k = n ∧ f n = some b ∧ b.domainRow? = some d := by
  rcases lt_or_ge k 0 with hk | hk
  · rw [hr.domains_neg k hk] at h
    cases h
  · obtain ⟨n, rfl⟩ := Int.eq_ofNat_of_zero_le hk
    rw [hr.domains] at h
    obtain ⟨b, hb, hd⟩ := Option.bind_eq_some_iff.mp h
    exact ⟨n, b, rfl, hb, hd⟩

/-- `truncate_db_from_block` truncates the ledger. -/
theorem truncateFromBlock {i : UInt64} (hi : i.toNat < 2 ^ 63) :
    (db.truncateFromBlock i).Represents (f.truncate i.toNat) where
  blocks n := by
    show (db.blocks.deleteFrom (asI64 i)).find? n = _
    rw [Table.find?_deleteFrom, asI64_of_lt hi]
    by_cases hn : n < i.toNat
    · rw [if_pos (by exact_mod_cast hn), hr.blocks, Ledger.truncate_of_lt hn]
    · rw [if_neg (by exact_mod_cast hn), Ledger.truncate_of_le (by omega), Option.map_none]
  blocks_neg k hk := by
    show (db.blocks.deleteFrom (asI64 i)).find? k = _
    rw [Table.find?_deleteFrom, hr.blocks_neg k hk]
    split <;> rfl
  domains n := by
    show (db.domains.deleteFrom (asI64 i)).find? n = _
    rw [Table.find?_deleteFrom, asI64_of_lt hi]
    by_cases hn : n < i.toNat
    · rw [if_pos (by exact_mod_cast hn), hr.domains, Ledger.truncate_of_lt hn]
    · rw [if_neg (by exact_mod_cast hn), Ledger.truncate_of_le (by omega), Option.bind_none]
  domains_neg k hk := by
    show (db.domains.deleteFrom (asI64 i)).find? k = _
    rw [Table.find?_deleteFrom, hr.domains_neg k hk]
    split <;> rfl
  index n b h := by
    unfold Ledger.truncate at h
    split at h
    · exact hr.index n b h
    · cases h
  closed n h j hj hjn := by
    have hn : n < i.toNat := by
      by_contra hge
      rw [Ledger.truncate_of_le (by omega)] at h
      cases h
    rw [Ledger.truncate_of_lt hn] at h
    rw [Ledger.truncate_of_lt (by omega)]
    exact hr.closed n h j hj hjn

/-- Putting a block at its index, row by row. -/
theorem put {b : Block} (hfill : ∀ j, 1 ≤ j → j < b.index.toNat → (f j).isSome)
    (hblocks : ∀ k : ℤ, db'.blocks.find? k
      = if k = b.index.toNat then some (BlockRow.ofBlock b) else db.blocks.find? k)
    (hdomains : ∀ k : ℤ, db'.domains.find? k
      = if k = b.index.toNat then b.domainRow? else db.domains.find? k) :
    db'.Represents (f.put b) where
  blocks n := by
    rw [hblocks]
    by_cases hn : n = b.index.toNat
    · rw [if_pos (by exact_mod_cast hn), hn, Ledger.put_self, Option.map_some]
    · rw [if_neg (by exact_mod_cast hn), Ledger.put_of_ne hn, hr.blocks]
  blocks_neg k hk := by
    rw [hblocks, if_neg (by omega), hr.blocks_neg k hk]
  domains n := by
    rw [hdomains]
    by_cases hn : n = b.index.toNat
    · rw [if_pos (by exact_mod_cast hn), hn, Ledger.put_self, Option.bind_some]
    · rw [if_neg (by exact_mod_cast hn), Ledger.put_of_ne hn, hr.domains]
  domains_neg k hk := by
    rw [hdomains, if_neg (by omega), hr.domains_neg k hk]
  index n x hx := by
    by_cases hn : n = b.index.toNat
    · rw [hn, Ledger.put_self] at hx
      cases hx
      exact hn.symm
    · rw [Ledger.put_of_ne hn] at hx
      exact hr.index n x hx
  closed n hn j hj hjn := by
    by_cases hjb : j = b.index.toNat
    · rw [hjb, Ledger.put_self]
      rfl
    · rw [Ledger.put_of_ne hjb]
      by_cases hnb : n = b.index.toNat
      · exact hfill j hj (by omega)
      · rw [Ledger.put_of_ne hnb] at hn
        exact hr.closed n hn j hj hjn

/-- A block without a domain leaves the domains as they are. -/
theorem find?_domains_of_vacant {b : Block} (hfree : f b.index.toNat = none)
    (hnone : b.domainRow? = none) (k : ℤ) :
    db.domains.find? k = if k = b.index.toNat then b.domainRow? else db.domains.find? k := by
  split
  · rename_i hk
    rw [hk, hr.domains, hfree, Option.bind_none, hnone]
  · rfl

/-! ### Selections -/

/-- A row read back from the table is a block of the ledger in its stored form. -/
theorem toBlock_eq_collapse {n : ℕ} {a : Block} (ha : f n = some a) :
    (BlockRow.ofBlock a).toBlock n = a.collapse := by
  have hlt : a.index.toNat < 2 ^ 63 := by
    have := hr.le_maxRows (Option.isSome_iff_exists.mpr ⟨a, ha⟩)
    have := hr.index n a ha
    have : maxRows < 2 ^ 63 := by decide
    omega
  rw [← BlockRow.toBlock_ofBlock a, asI64_of_lt hlt, hr.index n a ha]

/-- `load_last_block` reads the block of greatest position. -/
theorem loadLastBlock_eq_some {b : Block} (h : db.loadLastBlock = some b) :
    ∃ n a, f n = some a ∧ b = a.collapse ∧ ∀ m, (f m).isSome → m ≤ n := by
  obtain ⟨⟨k, r⟩, hlast, rfl⟩ := Option.map_eq_some_iff.mp h
  rw [Table.lastWhere?_eq_some] at hlast
  obtain ⟨hfind, -, hmax⟩ := hlast
  obtain ⟨n, a, rfl, ha, rfl⟩ := hr.exists_of_find? hfind
  refine ⟨n, a, ha, ?_, fun m hm => ?_⟩
  · exact hr.toBlock_eq_collapse ha
  · obtain ⟨x, hx⟩ := Option.isSome_iff_exists.mp hm
    have := hmax m (BlockRow.ofBlock x) (by rw [hr.blocks, hx]; rfl) rfl
    exact_mod_cast this

/-- Without a last block there is no block. -/
theorem loadLastBlock_eq_none (h : db.loadLastBlock = none) (n : ℕ) : f n = none := by
  rw [Db.loadLastBlock, Option.map_eq_none_iff, Table.lastWhere?_eq_none] at h
  by_contra hne
  obtain ⟨a, ha⟩ := Option.ne_none_iff_exists'.mp hne
  exact absurd (h n (BlockRow.ofBlock a) (by rw [hr.blocks, ha]; rfl)) (by simp)

/-- The condition of the statements for the last full block. -/
def IsFullFor (key : Option Bytes) (a : Block) : Prop :=
  a.transaction.isSome ∧ ∀ k ∈ key, a.pubKey = k

omit hr in
/-- The condition of the query is about the block that is stored. -/
theorem lastFull_cond {before : UInt64} {key : Option Bytes} {n : ℕ} {a : Block}
    (hb : before.toNat < 2 ^ 63) :
    ((n : ℤ) < asI64 before ∧ (BlockRow.ofBlock a).transaction.isSome
      ∧ ∀ k ∈ key, (BlockRow.ofBlock a).pubKey = k) ↔ n < before.toNat ∧ IsFullFor key a := by
  rw [asI64_of_lt hb, BlockRow.ofBlock_transaction_isSome, BlockRow.ofBlock_pubKey, IsFullFor]
  constructor
  · rintro ⟨h₁, h₂, h₃⟩
    exact ⟨by exact_mod_cast h₁, h₂, h₃⟩
  · rintro ⟨h₁, h₂, h₃⟩
    exact ⟨by exact_mod_cast h₁, h₂, h₃⟩

/-- Whatever the bound, a full block that is selected is one of the ledger. -/
theorem exists_of_lastFullBlock {before : UInt64} {key : Option Bytes} {b : Block}
    (h : db.lastFullBlock before key = some b) : ∃ n a, f n = some a ∧ b = a.collapse := by
  obtain ⟨⟨k, r⟩, hlast, rfl⟩ := Option.map_eq_some_iff.mp h
  obtain ⟨n, a, rfl, ha, rfl⟩ := hr.exists_of_find? (Table.lastWhere?_eq_some.mp hlast).1
  exact ⟨n, a, ha, hr.toBlock_eq_collapse ha⟩

/-- The last full block the table knows below a position. -/
theorem lastFullBlock_eq_some {before : UInt64} {key : Option Bytes} {b : Block}
    (hb : before.toNat < 2 ^ 63) (h : db.lastFullBlock before key = some b) :
    ∃ n a, f n = some a ∧ b = a.collapse ∧ n < before.toNat ∧ IsFullFor key a ∧
      ∀ m x, f m = some x → m < before.toNat → IsFullFor key x → m ≤ n := by
  obtain ⟨⟨k, r⟩, hlast, rfl⟩ := Option.map_eq_some_iff.mp h
  rw [Table.lastWhere?_eq_some] at hlast
  obtain ⟨hfind, hcond, hmax⟩ := hlast
  obtain ⟨n, a, rfl, ha, rfl⟩ := hr.exists_of_find? hfind
  have hfull := (lastFull_cond hb).mp (of_decide_eq_true hcond)
  refine ⟨n, a, ha, ?_, hfull.1, hfull.2, fun m x hx hm hfx => ?_⟩
  · exact hr.toBlock_eq_collapse ha
  · have := hmax m (BlockRow.ofBlock x) (by rw [hr.blocks, hx]; rfl)
      (decide_eq_true ((lastFull_cond hb).mpr ⟨hm, hfx⟩))
    exact_mod_cast this

/-- If the query finds nothing there is no full block of the key. -/
theorem lastFullBlock_eq_none {before : UInt64} {key : Option Bytes}
    (hb : before.toNat < 2 ^ 63) (h : db.lastFullBlock before key = none) :
    ∀ m x, f m = some x → m < before.toNat → ¬ IsFullFor key x := by
  rw [Db.lastFullBlock, Option.map_eq_none_iff, Table.lastWhere?_eq_none] at h
  intro m x hx hm hfull
  have hfalse := h m (BlockRow.ofBlock x) (by rw [hr.blocks, hx]; rfl)
  exact absurd ((lastFull_cond hb).mpr ⟨hm, hfull⟩) (of_decide_eq_false hfalse)

end Db.Represents

/-! ## Adding a block -/

/-- The part of the chain state that `add_block` touches besides the tables. -/
structure Chain.Added (c : Chain) (b : Block) (c' : Chain) : Prop where
  lastBlock : c'.lastBlock = some b
  lastFullBlock : c'.lastFullBlock = if b.transaction.isSome then some b else c.lastFullBlock
  origin : c'.origin = c.origin
  maxHeight : c'.maxHeight = c.maxHeight
  zones : c'.zones = c.zones
  signers : c'.signers = c.signers

namespace Chain

variable {c c' : Chain} {b : Block} {f : Ledger}

/-- What `add_transaction_to_table` does to the tables, when only the block's own row has been
added to them. -/
theorem addTransactionToTable_spec {db db₁ db₂ : Db} {t : Transaction} (hr : db.Represents f)
    (hindex : b.index.toNat < 2 ^ 63) (hfree : f b.index.toNat = none) (htx : b.transaction = some t)
    (hdomains : db₁.domains = db.domains)
    (h : db₁.addTransactionToTable b.index b.timestamp (ownedTransaction b.pubKey t) = some db₂) :
    db₂.blocks = db₁.blocks ∧ ∀ k : ℤ, db₂.domains.find? k
      = if k = b.index.toNat then b.domainRow? else db.domains.find? k := by
  have hclass : (ownedTransaction b.pubKey t).class' = t.class' := by
    unfold ownedTransaction
    split <;> rfl
  unfold Db.addTransactionToTable at h
  rw [hclass] at h
  by_cases hdomain : t.class' = classDomain
  · rw [if_pos hdomain] at h
    obtain ⟨domains, hins, rfl⟩ := Option.map_eq_some_iff.mp h
    have hrow : b.domainRow?
        = some (DomainRow.ofTransaction b.timestamp (ownedTransaction b.pubKey t)) := by
      simp [Block.domainRow?, htx, hdomain]
    refine ⟨rfl, fun k => ?_⟩
    rw [hrow, ← asI64_of_lt hindex, ← hdomains]
    exact Table.find?_insert? hins k
  · rw [if_neg hdomain] at h
    split at h
    · cases h
      have hnone : b.domainRow? = none := by simp [Block.domainRow?, htx, hdomain]
      rw [hdomains]
      exact ⟨rfl, hr.find?_domains_of_vacant hfree hnone⟩
    · cases h

/-- **What `add_block` does.**  Either the `INSERT` fails and nothing changes, or the block
is put at its index, which was vacant. -/
theorem addBlock_spec (hr : c.db.Represents f) (hfill : ∀ j, 1 ≤ j → j < b.index.toNat → (f j).isSome)
    (hindex : b.index.toNat < 2 ^ 63) (h : c.addBlock b = .ok c') :
    (c' = c ∧ c.db.addBlockToTable b = none)
      ∨ (f b.index.toNat = none ∧ c'.db.Represents (f.put b) ∧ c.Added b c') := by
  unfold addBlock Db.addBlockToTable at h
  cases hins : c.db.blocks.insert? (asI64 b.index) (BlockRow.ofBlock b) with
  | none =>
    rw [hins] at h
    cases h
    exact Or.inl ⟨rfl, by rw [Db.addBlockToTable, hins]; rfl⟩
  | some blocks =>
    rw [hins] at h
    have hfree : f b.index.toNat = none := by
      have hnone := (Table.insert?_isSome.mp (by rw [hins]; rfl)).1
      rw [hr.find?_asI64, Option.map_eq_none_iff] at hnone
      exact hnone
    have hblocks : ∀ k : ℤ, blocks.find? k
        = if k = b.index.toNat then some (BlockRow.ofBlock b) else c.db.blocks.find? k := by
      rw [← asI64_of_lt hindex]
      exact Table.find?_insert? hins
    refine Or.inr ⟨hfree, ?_⟩
    cases htx : b.transaction with
    | none =>
      simp only [Option.map_some, htx] at h
      cases h
      have hnone : b.domainRow? = none := by simp [Block.domainRow?, htx]
      exact ⟨hr.put hfill hblocks (hr.find?_domains_of_vacant hfree hnone),
        ⟨rfl, by simp [htx], rfl, rfl, rfl, rfl⟩⟩
    | some t =>
      simp only [Option.map_some, htx] at h
      split at h
      · cases h
      · rename_i db hadd
        cases h
        have hrest : ({ c.db with blocks := blocks } : Db).domains = c.db.domains := rfl
        obtain ⟨hsame, hdomains⟩ := addTransactionToTable_spec hr hindex hfree htx hrest hadd
        have hblocks' : ∀ k : ℤ, db.blocks.find? k
            = if k = b.index.toNat then some (BlockRow.ofBlock b) else c.db.blocks.find? k := by
          rw [hsame]
          exact hblocks
        exact ⟨hr.put hfill hblocks' hdomains, ⟨rfl, by simp [htx], rfl, rfl, rfl, rfl⟩⟩

/-- Adding a block changes nothing below its index. -/
theorem addBlock_truncateFromBlock {i : UInt64} (h : c.addBlock b = .ok c')
    (hi : asI64 i ≤ asI64 b.index) : c'.db.truncateFromBlock i = c.db.truncateFromBlock i := by
  unfold addBlock Db.addBlockToTable at h
  cases hins : c.db.blocks.insert? (asI64 b.index) (BlockRow.ofBlock b) with
  | none =>
    rw [hins] at h
    cases h
    rfl
  | some blocks =>
    rw [hins] at h
    have hblocks := Table.deleteFrom_insert? hins hi
    cases htx : b.transaction with
    | none =>
      simp only [Option.map_some, htx] at h
      cases h
      simp only [Db.truncateFromBlock, hblocks]
    | some t =>
      simp only [Option.map_some, htx] at h
      split at h
      · cases h
      · rename_i db hdb
        cases h
        unfold Db.addTransactionToTable at hdb
        split at hdb
        · obtain ⟨domains, hdins, rfl⟩ := Option.map_eq_some_iff.mp hdb
          simp only [Db.truncateFromBlock, hblocks, Table.deleteFrom_insert? hdins hi]
        · split at hdb
          · cases hdb
            simp only [Db.truncateFromBlock, hblocks]
          · cases hdb

end Chain
