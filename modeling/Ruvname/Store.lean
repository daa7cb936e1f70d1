/-
# The tables of the blockchain database

The two tables of `data/create_db.sql` and the SQL statements of `chain.rs`, over the
library of keyed tables.  The primary key of both is the block index cast to `i64`.

A block is bound column by column and read back column by column; `toBlock_ofBlock` says
that this gives the block back, up to all-zero byte strings inside its transaction.
-/
import Ruvname.Table
import Ruvname.Block

open Exec

/-! ## Rows -/

/-- An SQLite database has at most `2 ^ 48` bytes, so that no table ever has more rows:
an `INSERT` beyond it fails with "database or disk is full". -/
def maxRows : ℕ := 2 ^ 48

/-- The columns of `blocks` besides `id`.  An empty `transaction` text is `none`. -/
structure BlockRow where
  timestamp : Int64
  version : Int64
  difficulty : Int64
  random : Int64
  nonce : Int64
  transaction : Option TransactionJson
  prevBlockHash : Bytes
  hash : Bytes
  pubKey : Bytes
  signature : Bytes
  deriving DecidableEq, Repr

/-- The columns of `domains` besides `id`. -/
structure DomainRow where
  timestamp : Int64
  identity : Bytes
  confirmation : Bytes
  data : String
  signing : Bytes
  encryption : Bytes
  deriving DecidableEq, Repr

/-- The values that `add_block_to_table` binds. -/
def BlockRow.ofBlock (b : Block) : BlockRow where
  timestamp := b.timestamp
  version := b.version.toUInt64.toInt64
  difficulty := b.difficulty.toUInt64.toInt64
  random := b.random.toUInt64.toInt64
  nonce := b.nonce.toInt64
  transaction := b.transaction.map TransactionJson.toJson
  prevBlockHash := b.prevBlockHash
  hash := b.hash
  pubKey := b.pubKey
  signature := b.signature

/-- `get_block_from_statement`. -/
def BlockRow.toBlock (id : ℤ) (r : BlockRow) : Block where
  index := asU64 id
  timestamp := r.timestamp
  version := r.version.toUInt64.toUInt32
  difficulty := r.difficulty.toUInt64.toUInt32
  random := r.random.toUInt64.toUInt32
  nonce := r.nonce.toUInt64
  transaction := r.transaction.map TransactionJson.fromJson
  prevBlockHash := r.prevBlockHash
  hash := r.hash
  pubKey := r.pubKey
  signature := r.signature

/-- A block with the all-zero members of its transaction emptied. -/
def Block.collapse (b : Block) : Block :=
  { b with transaction := b.transaction.map Transaction.collapse }

/-- The stored form is stored as it is. -/
theorem Block.collapse_collapse (b : Block) : b.collapse.collapse = b.collapse := by
  have hmap : (b.transaction.map Transaction.collapse).map Transaction.collapse
      = b.transaction.map Transaction.collapse := by
    rw [Option.map_map]
    congr 1
    funext t
    exact t.collapse_collapse
  unfold collapse
  rw [hmap]

/-- **What is read back from the columns bound for a block.** -/
theorem BlockRow.toBlock_ofBlock (b : Block) :
    (BlockRow.ofBlock b).toBlock (asI64 b.index) = b.collapse := by
  have htx : (b.transaction.map TransactionJson.toJson).map TransactionJson.fromJson
      = b.transaction.map Transaction.collapse := by
    rw [Option.map_map]
    congr 1
    funext t
    exact TransactionJson.fromJson_toJson t
  simp [BlockRow.toBlock, BlockRow.ofBlock, Block.collapse, htx]

/-- The values that `add_transaction_to_table` binds. -/
def DomainRow.ofTransaction (timestamp : Int64) (t : Transaction) : DomainRow where
  timestamp := timestamp
  identity := t.identity
  confirmation := t.confirmation
  data := t.data
  signing := t.signing
  encryption := t.encryption

/-! ## The database -/

/-- `Options`, the contents of the table of that name. -/
structure Options where
  origin : String
  version : UInt32
  deriving DecidableEq, Repr

/-- The database of a node. -/
@[ext] structure Db where
  blocks : Table ℤ BlockRow maxRows
  domains : Table ℤ DomainRow maxRows
  options : Options

namespace Db

/-- A database as the table creation statements leave it. -/
def empty : Db := ⟨Table.empty, Table.empty, ⟨"", 0⟩⟩

/-- `add_block_to_table`: `none` is an SQLite error. -/
def addBlockToTable (db : Db) (b : Block) : Option Db :=
  (db.blocks.insert? (asI64 b.index) (BlockRow.ofBlock b)).map fun blocks =>
    { db with blocks := blocks }

/-- `add_transaction_to_table`: only a domain transaction gets a row, an unknown class is
an error. -/
def addTransactionToTable (db : Db) (index : UInt64) (timestamp : Int64) (t : Transaction) :
    Option Db :=
  if t.class' = classDomain then
    (db.domains.insert? (asI64 index) (DomainRow.ofTransaction timestamp t)).map fun domains =>
      { db with domains := domains }
  else if t.class' = classOrigin then some db
  else none

/-- `truncate_db_from_block`. -/
def truncateFromBlock (db : Db) (index : UInt64) : Db :=
  { db with
    blocks := db.blocks.deleteFrom (asI64 index)
    domains := db.domains.deleteFrom (asI64 index) }

/-- `get_block`, `SELECT * FROM blocks WHERE id=?`. -/
def getBlock (db : Db) (index : UInt64) : Option Block :=
  (db.blocks.find? (asI64 index)).map (BlockRow.toBlock (asI64 index))

/-- `load_last_block`, `SELECT * FROM blocks ORDER BY id DESC LIMIT 1`. -/
def loadLastBlock (db : Db) : Option Block :=
  (db.blocks.lastWhere? fun _ _ => true).map fun r => r.2.toBlock r.1

/-- `SQL_GET_LAST_FULL_BLOCK` and `SQL_GET_LAST_FULL_BLOCK_FOR_KEY`. -/
def lastFullBlock (db : Db) (before : UInt64) (pubKey : Option Bytes) : Option Block :=
  (db.blocks.lastWhere? fun id r =>
      id < asI64 before ∧ r.transaction.isSome ∧ ∀ key ∈ pubKey, r.pubKey = key).map
    fun r => r.2.toBlock r.1

/-- `SQL_GET_DOMAIN_BY_ID` and `SQL_GET_DOMAIN_OWNER_BY_ID`: the last row of an identity
with `id < height`. -/
def domainById (db : Db) (identity : Bytes) (height : UInt64) : Option (ℤ × DomainRow) :=
  db.domains.lastWhere? fun id r => id < asI64 height ∧ r.identity = identity

/-- `SQL_GET_USER_BLOCK_COUNT`. -/
def userBlockCount (db : Db) (pubKey : Bytes) (maxHeight : UInt64) : ℕ :=
  db.blocks.countWhere fun id r => r.pubKey = pubKey ∧ id < asI64 maxHeight

/-! ## Statements that only look below an index -/

variable {db : Db} {i height : UInt64}

/-- Each of them answers as before the cut. -/
theorem domainById_truncateFromBlock {identity : Bytes} (h : asI64 height ≤ asI64 i) :
    (db.truncateFromBlock i).domainById identity height = db.domainById identity height := by
  apply Table.lastWhere?_deleteFrom
  intro k row hk
  exact (of_decide_eq_true hk).1.trans_le h

theorem lastFullBlock_truncateFromBlock {key : Option Bytes} (h : asI64 height ≤ asI64 i) :
    (db.truncateFromBlock i).lastFullBlock height key = db.lastFullBlock height key := by
  unfold lastFullBlock
  congr 1
  apply Table.lastWhere?_deleteFrom
  intro k row hk
  exact (of_decide_eq_true hk).1.trans_le h

theorem userBlockCount_truncateFromBlock {key : Bytes} (h : asI64 height ≤ asI64 i) :
    (db.truncateFromBlock i).userBlockCount key height = db.userBlockCount key height := by
  apply Table.countWhere_deleteFrom
  intro k row hk
  exact (of_decide_eq_true hk).2.trans_le h

theorem getBlock_truncateFromBlock {index : UInt64} (h : asI64 index < asI64 i) :
    (db.truncateFromBlock i).getBlock index = db.getBlock index := by
  unfold getBlock
  congr 1
  show (db.blocks.deleteFrom (asI64 i)).find? (asI64 index) = _
  rw [Table.find?_deleteFrom, if_pos h]

end Db
