/-
# The miner's side

What a node does to produce a block of its own: `get_sign_block` and
`update_sign_block_for_mining` of `chain.rs`, and from `miner.rs` the preparation of a job in
`mine_internal`, one attempt of `find_hash`, and the signature of the miner thread.

The keys are ed25519 keys: a `Keystore` signs what `Platform.verify` accepts.  Threads, job queue
and waiting are left out; the random numbers and the readings of the clock are arguments.
-/
import Ruvname.CheckBlock

open Exec

/-- `Keystore`, as far as signing blocks goes: the ed25519 key pair. -/
structure Keystore (P : Platform) where
  /-- `get_public`. -/
  getPublic : Bytes
  /-- `sign`. -/
  sign : List UInt8 → Bytes
  getPublic_length : getPublic.length = 32
  validKey_getPublic : P.validKey getPublic
  sign_length : ∀ message, (sign message).length = 64
  verify_sign : ∀ message, P.verify getPublic message (sign message)

namespace Block

/-- `Block::new`. -/
def new (transaction : Option Transaction) (pubKey prevBlockHash : Bytes) (difficulty : UInt32) :
    Block where
  index := 0
  timestamp := 0
  version := 0
  difficulty := difficulty
  random := 0
  nonce := 0
  hash := Bytes.default
  prevBlockHash := prevBlockHash
  pubKey := pubKey
  signature := Bytes.default
  transaction := transaction

/-- The job as `mine_internal` takes it over: cleared, and of the current version. -/
def toMine (b : Block) : Block :=
  { b with signature := Bytes.default, hash := Bytes.default, version := chainVersion }

/-- What a miner thread does to the block that was found. -/
def signed {P : Platform} (b : Block) (keystore : Keystore P) : Block :=
  { b with signature := keystore.sign b.asBytesCompact }

end Block

namespace Chain

variable (P : Platform)

/-! ## The next signing block -/

/-- The loop of `get_sign_block` over `n` stored blocks from `index` on: is one of them by this key? -/
def alreadyMined (c : Chain) (pubKey : Bytes) : ℕ → UInt64 → Exec Bool
  | 0, _ => .ok false
  | n + 1, index =>
    match c.getBlock index with
    | none => .error (.expect "called `Option::unwrap()` on a `None` value")
    | some b => if b.pubKey = pubKey then .ok true else c.alreadyMined pubKey n (index + 1)

/-- The two filters of `get_sign_block`: the key is one of the signers, and has no block from the
full one up to the tip. -/
def maySign (c : Chain) (signers : List Bytes) (full : UInt64) (keystore : Keystore P) : Exec Bool :=
  if keystore.getPublic ∈ signers then do
    let mined ← c.alreadyMined keystore.getPublic (c.getHeight.toNat + 1 - full.toNat) full
    .ok (¬ mined)
  else .ok false

/-- The keys that pass both filters. -/
def candidates (c : Chain) (signers : List Bytes) (full : UInt64) :
    List (Keystore P) → Exec (List (Keystore P))
  | [] => .ok []
  | keystore :: keys => do
    let may ← c.maySign P signers full keystore
    let rest ← candidates c signers full keys
    .ok (if may then keystore :: rest else rest)

/-- `get_sign_block`, at the reading `now` of the clock.  The number `rng` chooses one of the keys
that may sign. -/
def getSignBlock (now : UtcTime) (rng : ℕ) (c : Chain) (keys : List (Keystore P)) :
    Exec (Option (Block × Keystore P) × SignersCache) :=
  -- Too early to start block signings
  if c.getHeight < blockSignersStart then .ok (none, c.signers)
  else if keys.isEmpty then .ok (none, c.signers)
  -- No signing while syncing
  else if c.getHeight < c.maxHeight then .ok (none, c.signers)
  else
    match c.lastFullBlock with
    | none => .ok (none, c.signers)
    | some full => do
      let signCount ← subU64 P.checks c.getHeight full.index
      if signCount ≥ blockSignersMin then .ok (none, c.signers)
      else
        match c.lastBlock with
        | none => .ok (none, c.signers)
        | some last => do
          let quiet ← addI64 P.checks last.timestamp 60
          -- Waiting for other blocks before signing
          if quiet > now.secs then .ok (none, c.signers)
          else do
            let (signers, cache) ← c.getBlockSigners P full
            let choice ← c.candidates P signers full.index keys
            match choice[rng % choice.length]? with
            | none => .ok (none, cache)
            | some keystore => do
              let index ← addU64 P.checks last.index 1
              let block := Block.new none Bytes.default last.hash signerDifficulty
              .ok (some ({ block with index := index }, keystore), cache)

/-- `update_sign_block_for_mining`. -/
def updateSignBlockForMining (c : Chain) (b : Block) : Exec (Option Block) :=
  match c.lastFullBlock with
  | none => .ok none
  | some full => do
    let signCount ← subU64 P.checks c.getHeight full.index
    if signCount ≥ blockSignersMin then .ok none
    else
      match c.lastBlock with
      | none => .ok none
      | some last => do
        let index ← addU64 P.checks last.index 1
        .ok (some { b with index := index, prevBlockHash := last.hash })

/-! ## Mining -/

/-- The first part of `mine_internal`: a signing block gets the key and its place on the chain, if
the key is strong and the full block is not locked yet; any other block gets its place. -/
def prepareJob (c : Chain) (b : Block) (keystore : Keystore P) : Exec (Option Block) :=
  let b := b.toMine
  if b.index > 0 ∧ ¬ b.prevBlockHash.isEmpty then do
    let b := { b with pubKey := keystore.getPublic }
    let strong ← checkPublicKeyStrength P b.pubKey keystoreDifficulty
    if ¬ strong then .ok none
    else c.updateSignBlockForMining P b
  else do
    let index ← addU64 P.checks c.getHeight 1
    let prevBlockHash :=
      match c.lastBlock with
      | none => Bytes.default
      | some last => last.hash
    .ok (some { b with index := index, prevBlockHash := prevBlockHash })

/-- The place on the chain that `find_hash` gives to the block again. -/
def placed (c : Chain) (b : Block) : Exec Block :=
  match c.lastBlock with
  | none => .ok b
  | some last => do
    let index ← addU64 P.checks last.index 1
    .ok { b with prevBlockHash := last.hash, index := index }

/-- One attempt of `find_hash`, with one random number, reading of the clock and nonce: the block
with its hash, if this is good enough.  A full block waits until the last one is signed. -/
def findHash (now : UtcTime) (random : UInt32) (nonce : UInt64) (c : Chain) (b : Block) :
    Exec (Option Block) := do
  let b ← c.placed P { b with random := random, timestamp := now.secs }
  let waitingSigners ← c.isWaitingSigners P
  if b.transaction.isSome ∧ waitingSigners then .ok none
  else do
    let b := { b with nonce := nonce }
    let hash := P.blakeout b.asBytesCompact
    let difficulty ← hashDifficulty hash
    .ok (if b.difficulty.toNat ≤ difficulty then some { b with hash := hash } else none)

end Chain
