/-
# The block validator

`check_block` of `chain.rs` and what it calls.  The validator is one long sequence of
early returns; here each of them is a check of its own, in the order of the source, and
`checkBlock` runs them as a decision list (`Exec.firstVerdict`) before it compares the
block with the tip (`checkPosition`).

`get_block_signers` memoizes its answer behind a `RefCell`, so the validator also returns
the memo it leaves.
-/
import Ruvname.Chain

open Exec

/-- `BlockQuality`: the result of a block check on the block's arrival. -/
inductive BlockQuality where
  | good
  | twin
  | future
  | rewind
  | bad
  | fork
  deriving DecidableEq, Repr

/-- A reading of the clock, `Utc::now().timestamp()`.  The calendar library covers about
262 thousand years on either side of 1970, less than `2 ^ 43` seconds. -/
structure UtcTime where
  secs : Int64
  lower : -2 ^ 43 ≤ secs.toInt
  upper : secs.toInt ≤ 2 ^ 43

/-- `WRONG_HASHES`: hashes that are refused whatever the block. -/
def wrongHashes : List Bytes :=
  [⟨[0x5B, 0x2D, 0x63, 0xCD, 0x8B, 0xD8, 0x54, 0xB2, 0x3A, 0x34, 0xA4, 0x9A, 0xD8, 0x50, 0xBF, 0x52,
     0x0B, 0xDD, 0x8D, 0x45, 0x14, 0xF9, 0xB2, 0x0A, 0x3D, 0xF0, 0x14, 0x30, 0xA5, 0x9F, 0x00, 0x00]⟩,
   ⟨[0x44, 0x48, 0xE0, 0x58, 0x28, 0x78, 0xFC, 0xB9, 0x82, 0xC0, 0xDD, 0xAF, 0xEB, 0x44, 0x1A, 0x03,
     0xA3, 0x0F, 0xB6, 0x2F, 0xA6, 0xEC, 0xD1, 0xEA, 0x4D, 0x51, 0xC2, 0x9A, 0x30, 0x98, 0x00, 0x00]⟩]

namespace Chain

variable (P : Platform)

/-! ## Signers -/

/-- The `while` loop of `get_block_signers`.  The set of the source holds the keys of
`result`, which receives a key exactly when the set does. -/
def searchSigners (c : Chain) (fullBlock : Block) (minimum : ℤ) (window : UInt64) :
    ℕ → UInt64 → UInt64 → Bool → List Bytes → Exec (List Bytes)
  | 0, _, _, _, result => if result.length < blockSignersAll then .error .unfinished else .ok result
  | fuel + 1, tail, count, mitigated, result =>
    if ¬ result.length < blockSignersAll then .ok result
    else do
      -- `wrapping_mul`, and we want it to start from 1
      let index := tail * count % window + 1
      let next ← addU64 P.checks count 1
      match c.getBlock index with
      | some b =>
        if c.db.userBlockCount b.pubKey fullBlock.index < minimum then
          -- too few blocks: `continue`, past the mitigation below
          c.searchSigners fullBlock minimum window fuel tail next mitigated result
        else
          let result :=
            if b.pubKey ≠ fullBlock.pubKey ∧ b.pubKey ∉ result then result ++ [b.pubKey] else result
          if ¬ mitigated ∧ next > 5000 then
            c.searchSigners fullBlock minimum window fuel (tail / 13) next true result
          else c.searchSigners fullBlock minimum window fuel tail next mitigated result
      | none =>
        if ¬ mitigated ∧ next > 5000 then
          c.searchSigners fullBlock minimum window fuel (tail / 13) next true result
        else c.searchSigners fullBlock minimum window fuel tail next mitigated result

/-- `get_block_signers`: the keys that may sign a full block, and the memo afterwards. -/
def getBlockSigners (c : Chain) (fullBlock : Block) : Exec (List Bytes × SignersCache) :=
  let minimum : ℤ := if fullBlock.index < 855 then 1 else (asI64 fullBlock.index).tdiv 100
  if fullBlock.index < blockSignersStart ∨ c.getHeight < fullBlock.index then .ok ([], c.signers)
  else if fullBlock.transaction.isNone then
    .error (.expect "assertion failed: block.transaction.is_some()")
  else if c.signers.hasSignersFor fullBlock.index then .ok (c.signers.signers, c.signers)
  else do
    let tail ← fullBlock.signature.getTailU64 P.checks
    -- Without the last block
    let window ← subU64 P.checks fullBlock.index 1
    let result ← c.searchSigners P fullBlock minimum window P.fuel (UInt64.ofNat tail) 1 false []
    .ok (result, ⟨fullBlock.index, result⟩)

/-- The loop of `is_good_signer_for_block` over `n` stored blocks from `i` on: has one of
them been signed by this key? -/
def alreadySigned (c : Chain) (pubKey : Bytes) : ℕ → UInt64 → Exec Bool
  | 0, _ => .ok false
  | n + 1, i =>
    match c.getBlock i with
    | none => .error (.expect "Error in DB!")
    | some signer => if signer.pubKey = pubKey then .ok true else c.alreadySigned pubKey n (i + 1)

/-- `is_good_signer_for_block`. -/
def isGoodSignerForBlock (c : Chain) (b fullBlock : Block) : Exec (Bool × SignersCache) := do
  let (signers, cache) ← c.getBlockSigners P fullBlock
  if b.pubKey ∉ signers then .ok (false, cache)
  else do
    let first ← addU64 P.checks fullBlock.index 1
    let signed ← c.alreadySigned b.pubKey (b.index.toNat - first.toNat) first
    .ok (¬ signed, cache)

/-- `is_good_sign_block`. -/
def isGoodSignBlock (c : Chain) (b : Block) (lastFullBlock : Option Block) :
    Exec (Bool × SignersCache) :=
  -- If this is not a signing block
  if b.transaction.isSome then .ok (true, c.signers)
  else
    match lastFullBlock with
    | none => .ok (true, c.signers)
    | some fullBlock => do
      let signCount ← subU64 P.checks c.getHeight fullBlock.index
      if signCount < blockSignersMin then
        -- Last full block is not locked enough
        if b.index > fullBlock.index ∧ b.transaction.isSome then .ok (false, c.signers)
        else c.isGoodSignerForBlock P b fullBlock
      else if signCount.toNat < blockSignersAll ∧ b.transaction.isNone then
        c.isGoodSignerForBlock P b fullBlock
      else .ok (true, c.signers)

/-! ## The checks, in order -/

/-- A block of a newer version is refused. -/
def checkVersion (b : Block) : Exec (Option BlockQuality) :=
  .ok (verdictIf (b.version > chainVersion) .bad)

/-- So is one of the wrong hashes. -/
def checkWrongHash (b : Block) : Exec (Option BlockQuality) :=
  .ok (verdictIf (b.hash ∈ wrongHashes) .bad)

/-- A block from the future: more than a minute ahead of the clock. -/
def checkClock (now : UtcTime) (b : Block) : Exec (Option BlockQuality) := do
  let latest ← addI64 P.checks now.secs 60
  .ok (verdictIf (b.timestamp > latest) .bad)

/-- A block further up than the next one. -/
def checkAhead (b : Block) (lastBlock : Option Block) : Exec (Option BlockQuality) :=
  match lastBlock with
  | none => .ok none
  | some last => do
    let next ← addU64 P.checks last.index 1
    .ok (verdictIf (b.index > next) .future)

/-- The difficulty a block has to declare. -/
def neededDifficulty (c : Chain) (b : Block) : Exec UInt32 :=
  match b.transaction with
  | none => .ok (if b.index = 1 then originDifficulty else signerDifficulty)
  | some t => c.getDifficultyForTransaction P t b.index b.timestamp

/-- The declared difficulty is high enough. -/
def checkDeclaredDifficulty (c : Chain) (b : Block) : Exec (Option BlockQuality) := do
  let difficulty ← c.neededDifficulty P b
  .ok (verdictIf (b.difficulty < difficulty) .bad)

/-- The hash reaches the declared difficulty. -/
def checkHashDifficulty (b : Block) : Exec (Option BlockQuality) := do
  let difficulty ← hashDifficulty b.hash
  .ok (verdictIf (difficulty < b.difficulty.toNat) .bad)

/-- The hash is that of the block. -/
def checkHash (b : Block) : Exec (Option BlockQuality) :=
  .ok (verdictIf (¬ checkBlockHash P b) .bad)

/-- The signature is that of its public key. -/
def checkSignature (b : Block) : Exec (Option BlockQuality) := do
  let good ← checkBlockSignature P b
  .ok (verdictIf (¬ good) .bad)

/-- The previous hash is that of the stored predecessor, if there is one; the limited
confidence depth decides what a mismatch means. -/
def checkParent (c : Chain) (b : Block) : Exec (Option BlockQuality) := do
  let prev ← subU64 P.checks b.index 1
  match c.getBlock prev with
  | none => .ok none
  | some prevBlock =>
    if b.prevBlockHash ≠ prevBlock.hash then do
      let depth ← subU64 P.checks c.getHeight limitedConfidenceDepth
      .ok (some (if b.index < depth then .bad else .rewind))
    else .ok none

/-- The key of a full block is strong enough. -/
def checkKeyStrength (b : Block) : Exec (Option BlockQuality) := do
  let strong ← checkPublicKeyStrength P b.pubKey keystoreDifficulty
  .ok (verdictIf (¬ strong) .bad)

/-- The identity is available to the key.  The height passed is that of the predecessor. -/
def checkIdentity (now : UtcTime) (c : Chain) (b : Block) (t : Transaction) :
    Exec (Option BlockQuality) := do
  let height ← subU64 P.checks b.index 1
  let available ← c.isIdAvailable P height now.secs t.identity b.pubKey
  .ok (verdictIf (¬ available) .bad)

/-- The key has waited long enough for a new identity. -/
def checkCooldown (c : Chain) (b : Block) (t : Transaction) : Exec (Option BlockQuality) := do
  let result ← c.canMineIdentity P t.identity b.index b.timestamp b.pubKey
  .ok (verdictIf (result ≠ .fine) .bad)

/-- A record of a zone bound to Ruvchain addresses: one of those, with short data. -/
def recordAllowed (record : DnsRecord) : Bool :=
  isRuvchainRecord record ∧ ∀ data ∈ record.getData, data.utf8ByteSize ≤ maxDataLen

/-- The records of a domain: not too many, and in a Ruvchain zone each of them allowed. -/
def checkRecords (c : Chain) (t : Transaction) : Exec (Option BlockQuality) := do
  match ← t.getDomainData P with
  | none => .ok none
  | some blockData =>
    .ok (verdictIf (blockData.records.length > maxRecords
      ∨ ∃ z ∈ c.zones, z.name = blockData.zone ∧ z.ruvchain
          ∧ ∃ record ∈ blockData.records, ¬ recordAllowed record) .bad)

/-- Everything `check_block` asks of a transaction. -/
def checkTransaction (now : UtcTime) (c : Chain) (b : Block) : Exec (Option BlockQuality) :=
  match b.transaction with
  | none => .ok none
  | some t =>
    firstVerdict
      [checkKeyStrength P b, c.checkIdentity P now b t, c.checkCooldown P b t, c.checkRecords P t]

/-- A block next to or below the tip: is it the tip's successor, known, or a fork? -/
def compareWithTip (c : Chain) (b last : Block) : BlockQuality :=
  if b.index ≤ last.index then
    if b.index = last.index ∧ last.hash = b.hash then .twin
    else
      match c.getBlock b.index with
      | some myBlock => if myBlock.hash ≠ b.hash then .fork else .twin
      | none => .good
  else if b.prevBlockHash ≠ last.hash then .bad
  else .good

/-- The signing rule as `check_block` applies it: in the main, signed part of blockchain
only. -/
def signStage (c : Chain) (b : Block) (lastFullBlock : Option Block) :
    Exec (Bool × SignersCache) :=
  if b.index > blockSignersStart then c.isGoodSignBlock P b lastFullBlock
  else .ok (true, c.signers)

/-- The last part of `check_block`: the place of the block relative to the tip. -/
def checkPosition (c : Chain) (b : Block) (lastBlock lastFullBlock : Option Block) :
    Exec (BlockQuality × SignersCache) :=
  match lastBlock with
  | none =>
    if ¬ b.isGenesis then .ok (.future, c.signers)
    else if ¬ c.origin.isZero ∧ b.hash ≠ c.origin then .ok (.bad, c.signers)
    else .ok (.good, c.signers)
  | some last =>
    if b.timestamp < last.timestamp ∧ b.index > last.index then .ok (.bad, c.signers)
    else do
      let next ← addU64 P.checks last.index 1
      if next < b.index then .ok (.future, c.signers)
      else do
        let (signed, cache) ← c.signStage P b lastFullBlock
        .ok (if signed then c.compareWithTip b last else .bad, cache)

/-- The checks that precede the comparison with the tip. -/
def checks (now : UtcTime) (c : Chain) (b : Block) (lastBlock : Option Block) :
    List (Exec (Option BlockQuality)) :=
  [checkVersion b, checkWrongHash b, checkClock P now b, checkAhead P b lastBlock,
    c.checkDeclaredDifficulty P b, checkHashDifficulty b, checkHash P b, checkSignature P b,
    c.checkParent P b, c.checkTransaction P now b]

/-- `check_block`. -/
def checkBlock (now : UtcTime) (c : Chain) (b : Block) (lastBlock lastFullBlock : Option Block) :
    Exec (BlockQuality × SignersCache) := do
  match ← firstVerdict (c.checks P now b lastBlock) with
  | some quality => .ok (quality, c.signers)
  | none => c.checkPosition P b lastBlock lastFullBlock

/-- `check_new_block`. -/
def checkNewBlock (now : UtcTime) (c : Chain) (b : Block) : Exec (BlockQuality × SignersCache) :=
  c.checkBlock P now b c.lastBlock c.lastFullBlock

end Chain
