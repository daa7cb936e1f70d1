/-
# The chain: state, queries and updates

`Chain` of `chain.rs`: the database, the cached tip and last full block, and the memo of
signers.  This module embeds everything but the validator: opening the database, the
queries, `add_block` and `replace_block`.

A method that can stop (overflow, `expect`) returns in `Exec`; SQLite is assumed to
execute the statements as written.
-/
import Ruvname.Store

open Exec

/-! ## State -/

/-- `SignersCache`: the signers of one full block, keyed by its index. -/
structure SignersCache where
  index : UInt64
  signers : List Bytes
  deriving DecidableEq, Repr

/-- `SignersCache::new`, also what `clear` leaves. -/
def SignersCache.new : SignersCache := ⟨0, []⟩

/-- `has_signers_for`. -/
def SignersCache.hasSignersFor (cache : SignersCache) (index : UInt64) : Bool :=
  cache.index = index ∧ cache.signers ≠ []

/-- `MineResult`. -/
inductive MineResult where
  | fine
  | wrongName
  | wrongData
  | wrongKey
  | wrongZone
  | notOwned
  | cooldown (time : Int64)
  deriving DecidableEq, Repr

/-- `Chain`. -/
structure Chain where
  origin : Bytes
  lastBlock : Option Block
  lastFullBlock : Option Block
  maxHeight : UInt64
  db : Db
  zones : List ZoneData
  signers : SignersCache

/-- `MAX`, the max possible block index. -/
def maxIndex : UInt64 := 9223372036854775807

namespace Chain

variable (P : Platform)

/-! ## Opening the database -/

/-- `init_db` and `Chain::new`: a database of another origin is cleared, then the tip and
the last full block are cached. -/
def new (origin : Bytes) (db : Db) : Chain :=
  let foreign := ¬ origin.isZero ∧ db.options.origin ≠ "" ∧ toHex origin.data ≠ db.options.origin
  let db := if foreign then Db.empty else db
  { origin := origin
    lastBlock := db.loadLastBlock
    lastFullBlock := db.loadLastBlock.bind fun block =>
      if block.transaction.isSome then some block else db.lastFullBlock maxIndex none
    maxHeight := 0
    db := db
    zones := loadZones
    signers := SignersCache.new }

/-! ## Queries -/

/-- `get_height`. -/
def getHeight (c : Chain) : UInt64 :=
  match c.lastBlock with
  | none => 0
  | some block => block.index

/-- An empty chain has height 0. -/
theorem getHeight_of_none {c : Chain} (h : c.lastBlock = none) : c.getHeight = 0 := by
  rw [getHeight, h]

/-- The height is the index of the last block. -/
theorem getHeight_of_some {c : Chain} {block : Block} (h : c.lastBlock = some block) :
    c.getHeight = block.index := by
  rw [getHeight, h]

/-- A chain of positive height has a tip, whose index is the height. -/
theorem exists_lastBlock {c : Chain} (h : 0 < c.getHeight.toNat) :
    ∃ block, c.lastBlock = some block ∧ c.getHeight = block.index := by
  cases hl : c.lastBlock with
  | none =>
    rw [getHeight_of_none hl] at h
    exact absurd h (Nat.lt_irrefl 0)
  | some block => exact ⟨block, rfl, getHeight_of_some hl⟩

/-- `get_block`. -/
def getBlock (c : Chain) (index : UInt64) : Option Block := c.db.getBlock index

/-- `get_last_full_block`: the cached block if it qualifies, else the table's answer. -/
def getLastFullBlock (c : Chain) (before : UInt64) (pubKey : Option Bytes) : Option Block :=
  match c.lastFullBlock with
  | some block =>
    if block.index < before ∧ ∀ key ∈ pubKey, block.pubKey = key then some block
    else c.db.lastFullBlock before pubKey
  | none => c.db.lastFullBlock before pubKey

/-- `is_waiting_signers`. -/
def isWaitingSigners (c : Chain) : Exec Bool :=
  if c.getHeight < blockSignersStart then .ok false
  else
    match c.lastFullBlock with
    | none => .ok false
    | some fullBlock => do
      let signCount ← subU64 P.checks c.getHeight fullBlock.index
      .ok (signCount < blockSignersMin)

/-- `is_domain_in_blockchain`. -/
def isDomainInBlockchain (c : Chain) (height : UInt64) (identity : Bytes) : Bool :=
  (c.db.domainById identity height).isSome

/-- `can_mine_identity`: a new identity needs a day since the key's last full block. -/
def canMineIdentity (c : Chain) (identity : Bytes) (height : UInt64) (time : Int64)
    (pubKey : Bytes) : Exec MineResult :=
  match c.getLastFullBlock height (some pubKey) with
  | none => .ok .fine
  | some last => do
    let allowed ← addI64 P.checks last.timestamp newDomainsInterval
    let wait ← subI64 P.checks allowed time
    .ok (if ¬ c.isDomainInBlockchain height identity ∧ 0 < wait then .cooldown wait else .fine)

/-- `get_identity_transaction_and_state`. -/
def getIdentityTransactionAndState (c : Chain) (identity : Bytes) (height : UInt64) (time : Int64) :
    Exec (Option Transaction × DomainState) :=
  match c.db.domainById identity height with
  | none => .ok (none, .notFound)
  | some (_, row) => do
    let aliveUntil ← addI64 P.checks row.timestamp domainLifetime
    let transaction : Transaction :=
      { class' := classDomain
        identity := row.identity
        confirmation := row.confirmation
        signing := row.signing
        encryption := row.encryption
        data := row.data }
    if aliveUntil ≥ time then .ok (some transaction, .alive row.timestamp aliveUntil)
    else do
      let ownedUntil ← addI64 P.checks aliveUntil domainRenewTime
      if ownedUntil ≥ time then .ok (some transaction, .expired row.timestamp ownedUntil)
      else .ok (some transaction, .free row.timestamp)

/-- `is_id_available`: the identity is free or is owned by the same key. -/
def isIdAvailable (c : Chain) (height : UInt64) (time : Int64) (identity publicKey : Bytes) :
    Exec Bool := do
  let (transaction, state) ← c.getIdentityTransactionAndState P identity height time
  match transaction with
  | none => .ok true
  | some transaction =>
    if transaction.signing = publicKey then .ok true
    else
      match state with
      | .notFound => .ok true
      | .alive _ _ => .ok false
      | .expired _ _ => .ok false
      | .free _ => .ok true

/-- `get_domain_update_time`. -/
def getDomainUpdateTime (c : Chain) (identity : Bytes) (height : UInt64) (time : Int64) :
    Exec (Option Int64) :=
  match c.db.domainById identity height with
  | none => .ok none
  | some (_, row) => do
    let oldest ← subI64 P.checks time domainLifetime
    .ok (if row.timestamp < oldest then none else some row.timestamp)

/-- `get_identity_discount`: weeks since the last change plus one, at most eight. -/
def getIdentityDiscount (c : Chain) (identity : Bytes) (renewal : Bool) (height : UInt64)
    (time : Int64) : Exec UInt32 := do
  match ← c.getDomainUpdateTime P identity height time with
  | none => .ok 0
  | some timestamp =>
    if renewal ∨ c.getHeight < blocksWithoutDiscount then .ok 1
    else do
      let age ← subI64 P.checks time timestamp
      .ok (min (age / oneWeek) 7 + 1).toUInt64.toUInt32

/-- `get_difficulty_for_transaction`. -/
def getDifficultyForTransaction (c : Chain) (t : Transaction) (height : UInt64) (time : Int64) :
    Exec UInt32 :=
  if t.class' = classDomain then do
    let discount ← c.getIdentityDiscount P t.identity false height time
    match ← P.parseDomainData t.data with
    | some _ => subU32 P.checks domainDifficulty discount
    | none => .ok 4294967295
  else if t.class' = classOrigin then .ok originDifficulty
  else .ok 4294967295

/-! ## Updates -/

/-- The transaction with the owner filled in, as `add_block` records it. -/
def ownedTransaction (owner : Bytes) (t : Transaction) : Transaction :=
  if t.signing.isEmpty then { t with signing := owner } else t

/-- `add_block`.  An `INSERT` that fails is logged and changes nothing. -/
def addBlock (c : Chain) (b : Block) : Exec Chain :=
  match c.db.addBlockToTable b with
  | none => .ok c
  | some db =>
    match b.transaction with
    | none => .ok { c with db := db, lastBlock := some b }
    | some t =>
      match db.addTransactionToTable b.index b.timestamp (ownedTransaction b.pubKey t) with
      | none => .error (.expect "Error adding transaction")
      | some db => .ok { c with db := db, lastBlock := some b, lastFullBlock := some b }

/-- `replace_block`. -/
def replaceBlock (c : Chain) (b : Block) : Exec Chain :=
  { c with signers := SignersCache.new, db := c.db.truncateFromBlock b.index }.addBlock b

/-- `update_max_height`. -/
def updateMaxHeight (c : Chain) (height : UInt64) : Chain := { c with maxHeight := height }

end Chain
