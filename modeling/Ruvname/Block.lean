/-
# Blocks

`Block` of `block.rs`, its serialization for hashing, the fork-choice comparison, and the
hash and signature checks of `hash_utils.rs` and `keystore.rs`.

Third-party code is a parameter: `Platform` collects the build profile, the Blakeout hash,
ed25519 and the JSON parser of domain data.  The private flag `hash_good` of a block is
left out: it only remembers that `check_block_hash` has succeeded on the same contents.
-/
import Ruvname.Transaction

/-! ## The block -/

/-- `Block`.  A block with a transaction is *full*, one without is a *signing* block. -/
structure Block where
  index : UInt64
  timestamp : Int64
  version : UInt32
  difficulty : UInt32
  random : UInt32
  nonce : UInt64
  hash : Bytes
  prevBlockHash : Bytes
  pubKey : Bytes
  signature : Bytes
  transaction : Option Transaction
  deriving DecidableEq, Repr

/-- `is_genesis`. -/
def Block.isGenesis (b : Block) : Bool :=
  b.index = 1 ∧ Transaction.getType b.transaction = .origin ∧ b.prevBlockHash = Bytes.default

/-! ## Serialization for hashing -/

/-- Little-endian bytes of an integer of `n` bytes. -/
def leBytes (n : ℕ) (x : ℕ) : List UInt8 :=
  (List.range n).map fun i => UInt8.ofNat (x / 256 ^ i)

/-- A bincode string: its length as `u64`, then its UTF-8 bytes. -/
def bincodeStr (s : String) : List UInt8 :=
  leBytes 8 s.utf8ByteSize ++ s.toUTF8.data.toList

/-- A `Bytes` member: hexadecimal text, left out altogether when `is_zero`. -/
def bincodeBytes (b : Bytes) : List UInt8 :=
  if b.isZero then [] else bincodeStr (toHex b.data)

/-- The members of a transaction in declaration order. -/
def Transaction.asBytesCompact (t : Transaction) : List UInt8 :=
  bincodeStr t.class' ++ bincodeBytes t.identity ++ bincodeBytes t.confirmation
    ++ bincodeBytes t.signing ++ bincodeBytes t.encryption
    ++ (if t.data = "" then [] else bincodeStr t.data)

/-- `as_bytes_compact`: the bincode form that is hashed and signed. -/
def Block.asBytesCompact (b : Block) : List UInt8 :=
  leBytes 8 b.index.toNat ++ leBytes 8 b.timestamp.toUInt64.toNat ++ leBytes 4 b.version.toNat
    ++ leBytes 4 b.difficulty.toNat ++ leBytes 4 b.random.toNat ++ leBytes 8 b.nonce.toNat
    ++ bincodeBytes b.hash ++ bincodeBytes b.prevBlockHash ++ bincodeBytes b.pubKey
    ++ bincodeBytes b.signature
    ++ (match b.transaction with
      | none => []
      | some t => 1 :: t.asBytesCompact)

/-! ## The platform -/

/-- The build profile and the third-party code a node is linked with. -/
structure Platform where
  /-- Whether integer arithmetic stops on overflow (dev profile) or wraps (release). -/
  checks : Bool
  /-- Steps granted to the search for signers, the one loop without a bound of its own. -/
  fuel : ℕ
  /-- The Blakeout hash. -/
  blakeout : List UInt8 → Bytes
  /-- A Blakeout digest has 32 bytes. -/
  blakeout_length : ∀ data, (blakeout data).length = 32
  /-- `VerifyingKey::from_bytes` accepts these 32 bytes. -/
  validKey : Bytes → Bool
  /-- `VerifyingKey::verify`: key, message, 64-byte signature. -/
  verify : Bytes → List UInt8 → Bytes → Bool
  /-- `serde_json::from_str::<DomainData>` around the visitor of `Bytes`: the text handed to the
  visitor, unless the parser refuses before it, and the data around the bytes read, unless it
  refuses after it. -/
  readDomainJson : String → Option (String × Option (Bytes → DomainData))

variable (P : Platform)

/-- `serde_json::from_str::<DomainData>`.  It panics where the visitor does. -/
def Platform.parseDomainData (data : String) : Exec (Option DomainData) := do
  match P.readDomainJson data with
  | none => .ok none
  | some (encrypted, build) =>
    match ← visitStr P.checks encrypted with
    | none => .ok none
    | some bytes => .ok (build.map fun f => f bytes)

/-- What one build parses every build parses. -/
theorem Platform.parseDomainData_checks {P : Platform} {data : String} {r : Option DomainData}
    (checks : Bool) (h : P.parseDomainData data = .ok r) :
    { P with checks := checks }.parseDomainData data = .ok r := by
  unfold parseDomainData at h ⊢
  dsimp only at h ⊢
  cases hjson : P.readDomainJson data with
  | none =>
    rw [hjson] at h
    exact h
  | some json =>
    rw [hjson] at h
    obtain ⟨read, hread, hr⟩ := Exec.bind_eq_ok.mp h
    dsimp only
    rw [visitStr_checks checks hread]
    exact hr

/-- `check_block_hash`: the hash is that of the block with hash and signature cleared. -/
def checkBlockHash (b : Block) : Bool :=
  P.blakeout { b with hash := Bytes.default, signature := Bytes.default }.asBytesCompact = b.hash

/-- `Keystore::check`: a key of another length, or one that is no curve point, panics; a
signature of another length is refused. -/
def keystoreCheck (message : List UInt8) (publicKey signature : Bytes) : Exec Bool :=
  if publicKey.length ≠ 32 then .error (.expect "Wrong public key")
  else if ¬ P.validKey publicKey then .error (.expect "Wrong public key!")
  else .ok (signature.length = 64 ∧ P.verify publicKey message signature)

/-- `check_block_signature`. -/
def checkBlockSignature (b : Block) : Exec Bool :=
  keystoreCheck P { b with signature := Bytes.default }.asBytesCompact b.pubKey b.signature

/-- `check_public_key_strength`: leading zero bits of the key's Blakeout hash. -/
def checkPublicKeyStrength (key : Bytes) (strength : UInt32) : Exec Bool := do
  let difficulty ← keyHashDifficulty (P.blakeout key.data)
  .ok (strength.toNat ≤ difficulty)

/-- `Transaction::get_domain_data`. -/
def Transaction.getDomainData (t : Transaction) : Exec (Option DomainData) :=
  if t.class' = classDomain then P.parseDomainData t.data else .ok none

variable {P}

theorem length_of_checkBlockHash {b : Block} (h : checkBlockHash P b) : b.hash.length = 32 := by
  have h : P.blakeout _ = b.hash := of_decide_eq_true h
  rw [← h]
  exact P.blakeout_length _

/-- A verified signature has 64 bytes and belongs to a key of 32. -/
theorem length_of_checkBlockSignature {b : Block} (h : checkBlockSignature P b = .ok true) :
    b.signature.length = 64 ∧ b.pubKey.length = 32 := by
  unfold checkBlockSignature keystoreCheck at h
  split at h
  · cases h
  · rename_i hkey
    split at h
    · cases h
    · simp only [Except.ok.injEq, decide_eq_true_eq] at h
      exact ⟨h.1, by simpa using hkey⟩

/-! ## Fork choice -/

/-- The score of a hash: zero bits at both ends, those at the start counted twice, above
the tail reduced modulo `0xFFFF`.  At most `192 * 2 ^ 16 + 65534`, it fits the `u32`. -/
def hashScore (checks : Bool) (hash : Bytes) : Exec ℕ := do
  let difficulty ← hashDifficulty hash
  let keyDifficulty ← keyHashDifficulty hash
  let tail ← hash.getTailU64 checks
  .ok ((difficulty + keyDifficulty) * 2 ^ 16 + tail % 0xFFFF)

/-- `is_better_than`: a full block beats a signing one; otherwise the score decides, and
between equal scores the smaller nonce. -/
def Block.isBetterThan (checks : Bool) (b other : Block) : Exec Bool :=
  if b.transaction.isSome ∧ other.transaction.isNone then .ok true
  else do
    let mine ← hashScore checks b.hash
    let its ← hashScore checks other.hash
    .ok (mine > its ∨ mine = its ∧ b.nonce ≠ other.nonce ∧ b.nonce < other.nonce)
