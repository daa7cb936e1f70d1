/-
# Blocks on the wire and in the table

The CBOR form in which blocks travel between nodes, `as_bytes` and `from_bytes` of `block.rs`.
Both the wire and the tables give a block back up to all-zero byte strings, which come back empty:
on the wire in every member, from the tables in the members of the transaction only.
-/
import Ruvname.Cbor
import Ruvname.Chain
import Ruvname.HexText

open Exec

/-! ## The CBOR form -/

/-- An `i64`. -/
def Cbor.ofInt64 (x : Int64) : Cbor := if 0 ≤ x then .uint x.toUInt64 else .nint (-1 - x).toUInt64

/-- A `Bytes` member, left out when `is_zero`. -/
def Bytes.member (name : String) (b : Bytes) : String × Option Cbor := (name, b.text.map Cbor.text)

/-- The members of a transaction as the derived `Serialize` lists them. -/
def Transaction.fields (t : Transaction) : List (String × Option Cbor) :=
  [("class", some (.text t.class')), t.identity.member "identity",
    t.confirmation.member "confirmation", t.signing.member "signing",
    t.encryption.member "encryption", ("data", if t.data = "" then none else some (.text t.data))]

def Transaction.toCbor (t : Transaction) : Cbor := .map (Cbor.present t.fields)

/-- The members of a block. -/
def Block.fields (b : Block) : List (String × Option Cbor) :=
  [("index", some (.uint b.index)), ("timestamp", some (.ofInt64 b.timestamp)),
    ("version", some (.uint b.version.toUInt64)), ("difficulty", some (.uint b.difficulty.toUInt64)),
    ("random", some (.uint b.random.toUInt64)), ("nonce", some (.uint b.nonce)),
    b.hash.member "hash", b.prevBlockHash.member "prev_block_hash", b.pubKey.member "pub_key",
    b.signature.member "signature", ("transaction", b.transaction.map Transaction.toCbor)]

def Block.toCbor (b : Block) : Cbor := .map (Cbor.present b.fields)

/-- `as_bytes`. -/
def Block.asBytes (b : Block) : List UInt8 := b.toCbor.toVec

/-! ## Reading a structure -/

/-- A reader of a value: it refuses (`none`), or panics on the way. -/
abbrev Reader := OptionT Exec

namespace Reader

variable {α : Type}

def u64 : Cbor → Reader UInt64
  | .uint n => pure n
  | _ => failure

def u32 : Cbor → Reader UInt32
  | .uint n => if n.toNat < 2 ^ 32 then pure n.toUInt32 else failure
  | _ => failure

def i64 : Cbor → Reader Int64
  | .uint n => if n.toNat < 2 ^ 63 then pure n.toInt64 else failure
  | .nint n => if n.toNat < 2 ^ 63 then pure (-1 - n.toInt64) else failure
  | _ => failure

def text : Cbor → Reader String
  | .text s => pure s
  | _ => failure

/-- `BytesVisitor`: hexadecimal text, or the bytes themselves. -/
def bytes (checks : Bool) : Cbor → Reader Bytes
  | .text s => OptionT.mk (visitStr checks s)
  | .byteString data => pure ⟨data⟩
  | _ => failure

/-- A member that has to be there. -/
def required (name : String) (read : Cbor → Reader α) (members : List (String × Cbor)) : Reader α :=
  match Cbor.field name members with
  | some (some v) => read v
  | _ => failure

/-- A member with `#[serde(default)]`. -/
def orDefault (name : String) (default : α) (read : Cbor → Reader α)
    (members : List (String × Cbor)) : Reader α :=
  match Cbor.field name members with
  | some (some v) => read v
  | some none => pure default
  | none => failure

/-- A member of type `Option`: missing or null is `None`. -/
def optional (name : String) (read : Cbor → Reader α) (members : List (String × Cbor)) :
    Reader (Option α) :=
  match Cbor.field name members with
  | some (some .null) => pure none
  | some (some v) => some <$> read v
  | some none => pure none
  | none => failure

end Reader

/-- The derived `Deserialize` of `Transaction`, member by member in declaration order. -/
def Transaction.ofCbor (checks : Bool) : Cbor → Reader Transaction
  | .map members => do
    let class' ← Reader.required "class" Reader.text members
    let identity ← Reader.orDefault "identity" Bytes.default (Reader.bytes checks) members
    let confirmation ← Reader.orDefault "confirmation" Bytes.default (Reader.bytes checks) members
    let signing ← Reader.orDefault "signing" Bytes.default (Reader.bytes checks) members
    let encryption ← Reader.orDefault "encryption" Bytes.default (Reader.bytes checks) members
    let data ← Reader.orDefault "data" "" Reader.text members
    pure
      { class' := class'
        identity := identity
        confirmation := confirmation
        signing := signing
        encryption := encryption
        data := data }
  | _ => failure

/-- The derived `Deserialize` of `Block`. -/
def Block.ofCbor (checks : Bool) : Cbor → Reader Block
  | .map members => do
    let index ← Reader.required "index" Reader.u64 members
    let timestamp ← Reader.required "timestamp" Reader.i64 members
    let version ← Reader.required "version" Reader.u32 members
    let difficulty ← Reader.required "difficulty" Reader.u32 members
    let random ← Reader.required "random" Reader.u32 members
    let nonce ← Reader.required "nonce" Reader.u64 members
    let hash ← Reader.orDefault "hash" Bytes.default (Reader.bytes checks) members
    let prevBlockHash ← Reader.orDefault "prev_block_hash" Bytes.default (Reader.bytes checks) members
    let pubKey ← Reader.orDefault "pub_key" Bytes.default (Reader.bytes checks) members
    let signature ← Reader.orDefault "signature" Bytes.default (Reader.bytes checks) members
    let transaction ← Reader.optional "transaction" (Transaction.ofCbor checks) members
    pure
      { index := index
        timestamp := timestamp
        version := version
        difficulty := difficulty
        random := random
        nonce := nonce
        hash := hash
        prevBlockHash := prevBlockHash
        pubKey := pubKey
        signature := signature
        transaction := transaction }
  | _ => failure

/-- `Block::from_bytes`. -/
def Block.fromBytes (checks : Bool) (data : List UInt8) : Exec (Option Block) :=
  match Cbor.fromSlice data with
  | none => .ok none
  | some v => (Block.ofCbor checks v).run

/-! ## The way there and back -/

namespace Reader

variable {checks : Bool} {fields : List (String × Option Cbor)}

/-- A `u32` is read back. -/
theorem u32_toUInt64 (x : UInt32) : u32 (.uint x.toUInt64) = pure x := by
  have hx := x.toNat_lt
  rw [u32, if_pos (by simpa using hx)]
  simp

/-- A non-negative `i64` as `u64`. -/
theorem toUInt64_toNat_lt {x : Int64} (h : 0 ≤ x.toInt) : x.toUInt64.toNat < 2 ^ 63 := by
  have hcond : x.toInt = if 2 * x.toUInt64.toNat < 2 ^ 64 then (x.toUInt64.toNat : ℤ)
      else x.toUInt64.toNat - (2 ^ 64 : ℕ) := BitVec.toInt_eq_toNat_cond x.toBitVec
  have hlt := x.toUInt64.toNat_lt
  split at hcond <;> omega

/-- An `i64` is read back, of either sign. -/
theorem i64_ofInt64 (x : Int64) : i64 (.ofInt64 x) = pure x := by
  unfold Cbor.ofInt64
  by_cases hx : 0 ≤ x
  · rw [if_pos hx, i64, if_pos (toUInt64_toNat_lt (Int64.le_iff_toInt_le.mp hx)),
      Int64.toInt64_toUInt64]
  · rw [Int64.le_iff_toInt_le, Int64.toInt_zero, not_le] at hx
    have hlow := x.le_toInt
    have hrange : (-1 - x).toInt = -1 - x.toInt := toInt_sub_of_range (by simp; omega) (by simp; omega)
    rw [if_neg (by rw [Int64.le_iff_toInt_le, Int64.toInt_zero]; omega), i64,
      if_pos (toUInt64_toNat_lt (by omega)), Int64.toInt64_toUInt64]
    have hback : -1 - (-1 - x) = x := by grind
    rw [hback]

/-- A member that may be left out is read back up to its zero bytes. -/
theorem bytes_member {b : Bytes} {name : String} (hnodup : (fields.map Prod.fst).Nodup)
    (hmem : b.member name ∈ fields) :
    orDefault name Bytes.default (bytes checks) (Cbor.present fields) = pure b.collapse := by
  unfold orDefault
  rw [Cbor.field_present hnodup hmem]
  unfold Bytes.text Bytes.unlessZero Bytes.collapse
  by_cases hzero : b.isZero
  · simp [hzero]
  · simp only [hzero, Bool.false_eq_true, if_false, Option.map_some, bytes, visitStr_toHex]
    rfl

/-- A member that has to be there is read as the value under its name. -/
theorem required_of_mem {α : Type} {read : Cbor → Reader α} {name : String} {v : Cbor}
    (hnodup : (fields.map Prod.fst).Nodup) (hmem : (name, some v) ∈ fields) :
    required name read (Cbor.present fields) = read v := by
  unfold required
  rw [Cbor.field_present hnodup hmem]

end Reader

/-- The members of a transaction have different names. -/
theorem Transaction.nodup_fields (t : Transaction) : (t.fields.map Prod.fst).Nodup := by
  show ["class", "identity", "confirmation", "signing", "encryption", "data"].Nodup
  decide

/-- So have those of a block. -/
theorem Block.nodup_fields (b : Block) : (b.fields.map Prod.fst).Nodup := by
  show ["index", "timestamp", "version", "difficulty", "random", "nonce", "hash", "prev_block_hash",
    "pub_key", "signature", "transaction"].Nodup
  decide

/-- **A transaction is read back** with its all-zero members emptied. -/
theorem Transaction.ofCbor_toCbor (checks : Bool) (t : Transaction) :
    Transaction.ofCbor checks t.toCbor = pure t.collapse := by
  have hnodup := t.nodup_fields
  have hdata : Reader.orDefault "data" "" Reader.text (Cbor.present t.fields) = pure t.data := by
    unfold Reader.orDefault
    rw [Cbor.field_present hnodup (v := if t.data = "" then none else some (.text t.data))
      (by simp [fields])]
    by_cases h : t.data = ""
    · simp [h]
    · simp only [h, if_false, Reader.text]
  unfold toCbor ofCbor
  simp only
  rw [Reader.required_of_mem hnodup (v := .text t.class') (by simp [fields]),
    Reader.bytes_member (b := t.identity) hnodup (by simp [fields]),
    Reader.bytes_member (b := t.confirmation) hnodup (by simp [fields]),
    Reader.bytes_member (b := t.signing) hnodup (by simp [fields]),
    Reader.bytes_member (b := t.encryption) hnodup (by simp [fields]), hdata]
  simp only [Reader.text, pure_bind]
  rfl

/-- The stored JSON text of a transaction has the same members, left out and filled in under the
same rules: reading either gives the same transaction. -/
theorem Transaction.ofCbor_toCbor_eq_fromJson (checks : Bool) (t : Transaction) :
    Transaction.ofCbor checks t.toCbor = pure (TransactionJson.fromJson (TransactionJson.toJson t)) := by
  rw [Transaction.ofCbor_toCbor, TransactionJson.fromJson_toJson]

/-- A block with all its all-zero members emptied. -/
def Block.emptied (b : Block) : Block :=
  { b.collapse with
    hash := b.hash.collapse
    prevBlockHash := b.prevBlockHash.collapse
    pubKey := b.pubKey.collapse
    signature := b.signature.collapse }

/-- **A block is read back**, with its zero members emptied. -/
theorem Block.ofCbor_toCbor (checks : Bool) (b : Block) :
    Block.ofCbor checks b.toCbor = pure b.emptied := by
  have hnodup := b.nodup_fields
  have htransaction : Reader.optional "transaction" (Transaction.ofCbor checks)
      (Cbor.present b.fields) = pure (b.transaction.map Transaction.collapse) := by
    unfold Reader.optional
    rw [Cbor.field_present hnodup (v := b.transaction.map Transaction.toCbor)
      (by simp [fields])]
    cases b.transaction with
    | none => rfl
    | some t =>
      show some <$> Transaction.ofCbor checks t.toCbor = _
      rw [Transaction.ofCbor_toCbor]
      rfl
  unfold toCbor ofCbor
  simp only
  rw [Reader.required_of_mem hnodup (v := .uint b.index) (by simp [fields]),
    Reader.required_of_mem hnodup (v := .ofInt64 b.timestamp) (by simp [fields]),
    Reader.required_of_mem hnodup (v := .uint b.version.toUInt64) (by simp [fields]),
    Reader.required_of_mem hnodup (v := .uint b.difficulty.toUInt64) (by simp [fields]),
    Reader.required_of_mem hnodup (v := .uint b.random.toUInt64) (by simp [fields]),
    Reader.required_of_mem hnodup (v := .uint b.nonce) (by simp [fields]),
    Reader.bytes_member (b := b.hash) hnodup (by simp [fields]),
    Reader.bytes_member (b := b.prevBlockHash) hnodup (by simp [fields]),
    Reader.bytes_member (b := b.pubKey) hnodup (by simp [fields]),
    Reader.bytes_member (b := b.signature) hnodup (by simp [fields]), htransaction]
  simp only [Reader.u64, Reader.u32_toUInt64, Reader.i64_ofInt64, pure_bind]
  rfl

/-- **A block survives the wire**, with its all-zero members emptied.  A vector of the source
has at most `isize::MAX` bytes. -/
theorem Block.fromBytes_asBytes (checks : Bool) {b : Block} (h : b.asBytes.length < 2 ^ 64) :
    Block.fromBytes checks b.asBytes = .ok (some b.emptied) := by
  unfold fromBytes asBytes
  rw [Cbor.fromSlice_toVec h]
  simp only [ofCbor_toCbor]
  rfl
