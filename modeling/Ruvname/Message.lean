/-
# Messages between nodes

`Message` of `p2p/message.rs` and its CBOR form.  A variant without members is written as its
name, one with members as a map from its name to the map of the members.  No member is ever
left out, so that a message survives the wire as it is (`P2p.Message.fromBytes_toVec`).
-/
import Ruvname.Wire

open Exec

namespace P2p

/-- `Message`. -/
inductive Message where
  | error
  | hand (appVersion origin : String) (version : UInt32) (isPublic : Bool) (randId : String)
  | shake (appVersion origin : String) (version : UInt32) (isPublic : Bool) (randId : String)
    (height : UInt64)
  | ping (height : UInt64) (hash : Bytes)
  | pong (height : UInt64) (hash : Bytes)
  | twin
  | loop
  | getPeers
  | peers (peers : List String)
  | getBlock (index : UInt64)
  | block (index : UInt64) (block : List UInt8)
  deriving DecidableEq, Repr

namespace Message

/-- A vector of bytes: a sequence of integers. -/
def byteArray (data : List UInt8) : Cbor := .array (data.map fun x => .uint x.toUInt64)

/-- The members of a variant, in declaration order. -/
def members : Message → List (String × Option Cbor)
  | hand appVersion origin version isPublic randId =>
    [("app_version", some (.text appVersion)), ("origin", some (.text origin)),
      ("version", some (.uint version.toUInt64)), ("public", some (.bool isPublic)),
      ("rand_id", some (.text randId))]
  | shake appVersion origin version isPublic randId height =>
    [("app_version", some (.text appVersion)), ("origin", some (.text origin)),
      ("version", some (.uint version.toUInt64)), ("public", some (.bool isPublic)),
      ("rand_id", some (.text randId)), ("height", some (.uint height))]
  | ping height hash => [("height", some (.uint height)), ("hash", some (.text (toHex hash.data)))]
  | pong height hash => [("height", some (.uint height)), ("hash", some (.text (toHex hash.data)))]
  | peers xs => [("peers", some (.array (xs.map .text)))]
  | getBlock index => [("index", some (.uint index))]
  | block index data => [("index", some (.uint index)), ("block", some (byteArray data))]
  | _ => []

/-- A variant with members. -/
def variant (name : String) (m : Message) : Cbor := .map [(name, .map (Cbor.present m.members))]

def toCbor : Message → Cbor
  | error => .text "Error"
  | hand a o v p r => variant "Hand" (hand a o v p r)
  | shake a o v p r h => variant "Shake" (shake a o v p r h)
  | ping height hash => variant "Ping" (ping height hash)
  | pong height hash => variant "Pong" (pong height hash)
  | twin => .text "Twin"
  | loop => .text "Loop"
  | getPeers => .text "GetPeers"
  | peers xs => variant "Peers" (peers xs)
  | getBlock index => variant "GetBlock" (getBlock index)
  | block index data => variant "Block" (block index data)

/-- `serde_cbor::to_vec`. -/
def toVec (m : Message) : List UInt8 := m.toCbor.toVec

/-! ## Reading a message -/

def readBool : Cbor → Reader Bool
  | .bool value => pure value
  | _ => failure

def readU8 : Cbor → Reader UInt8
  | .uint n => if n.toNat < 256 then pure n.toUInt8 else failure
  | _ => failure

def readMany {α : Type} (read : Cbor → Reader α) : Cbor → Reader (List α)
  | .array xs => xs.mapM read
  | _ => failure

/-- The derived `Deserialize` of a variant. -/
def ofMembers (checks : Bool) (name : String) (members : List (String × Cbor)) : Reader Message :=
  match name with
  | "Hand" => do
    let appVersion ← Reader.required "app_version" Reader.text members
    let origin ← Reader.required "origin" Reader.text members
    let version ← Reader.required "version" Reader.u32 members
    let isPublic ← Reader.required "public" readBool members
    let randId ← Reader.required "rand_id" Reader.text members
    pure (hand appVersion origin version isPublic randId)
  | "Shake" => do
    let appVersion ← Reader.required "app_version" Reader.text members
    let origin ← Reader.required "origin" Reader.text members
    let version ← Reader.required "version" Reader.u32 members
    let isPublic ← Reader.required "public" readBool members
    let randId ← Reader.required "rand_id" Reader.text members
    let height ← Reader.required "height" Reader.u64 members
    pure (shake appVersion origin version isPublic randId height)
  | "Ping" => do
    let height ← Reader.required "height" Reader.u64 members
    let hash ← Reader.required "hash" (Reader.bytes checks) members
    pure (ping height hash)
  | "Pong" => do
    let height ← Reader.required "height" Reader.u64 members
    let hash ← Reader.required "hash" (Reader.bytes checks) members
    pure (pong height hash)
  | "Peers" => do
    let xs ← Reader.required "peers" (readMany Reader.text) members
    pure (peers xs)
  | "GetBlock" => do
    let index ← Reader.required "index" Reader.u64 members
    pure (getBlock index)
  | "Block" => do
    let index ← Reader.required "index" Reader.u64 members
    let data ← Reader.required "block" (readMany readU8) members
    pure (block index data)
  | _ => failure

/-- The derived `Deserialize` of `Message`. -/
def ofCbor (checks : Bool) : Cbor → Reader Message
  | .text "Error" => pure error
  | .text "Twin" => pure twin
  | .text "Loop" => pure loop
  | .text "GetPeers" => pure getPeers
  | .map [(name, .map members)] => ofMembers checks name members
  | _ => failure

/-- `Message::from_bytes`. -/
def fromBytes (checks : Bool) (data : List UInt8) : Exec (Option Message) :=
  match Cbor.fromSlice data with
  | none => .ok none
  | some v => (ofCbor checks v).run

/-! ## The way there and back -/

/-- A `u8` is read back. -/
theorem readU8_toUInt64 (x : UInt8) : readU8 (.uint x.toUInt64) = pure x := by
  have hx := x.toNat_lt
  rw [readU8, if_pos (by simpa using hx)]
  simp

/-- The items of a list are read back if each of them is. -/
theorem readMany_map {α β : Type} {read : Cbor → Reader α} {write : β → Cbor} {f : β → α}
    (h : ∀ x, read (write x) = pure (f x)) (xs : List β) :
    readMany read (.array (xs.map write)) = pure (xs.map f) := by
  rw [readMany]
  induction xs with
  | nil => rfl
  | cons x xs ih => rw [List.map_cons, List.mapM_cons, h, pure_bind, ih, pure_bind, List.map_cons]

/-- A byte string is read back from its text. -/
theorem bytes_toHex (checks : Bool) (b : Bytes) :
    Reader.bytes checks (.text (toHex b.data)) = pure b := by
  rw [Reader.bytes, visitStr_toHex]
  rfl

/-- The members of a message have different names. -/
theorem nodup_members (m : Message) : (m.members.map Prod.fst).Nodup := by
  cases m <;> simp [members]

/-- A member of a variant is read by its reader. -/
theorem required_member {α : Type} {read : Cbor → Reader α} {m : Message} {name : String} {v : Cbor}
    (h : (name, some v) ∈ m.members) :
    Reader.required name read (Cbor.present m.members) = read v :=
  Reader.required_of_mem m.nodup_members h

/-- **A message is read back.** -/
theorem ofCbor_toCbor (checks : Bool) (m : Message) : ofCbor checks m.toCbor = pure m := by
  cases m with
  | error => rfl
  | hand a o v p r =>
    show ofMembers checks "Hand" (Cbor.present (hand a o v p r).members) = _
    simp only [ofMembers]
    rw [required_member (v := .text a) (by simp [members]),
      required_member (v := .text o) (by simp [members]),
      required_member (v := .uint v.toUInt64) (by simp [members]),
      required_member (v := .bool p) (by simp [members]),
      required_member (v := .text r) (by simp [members])]
    simp only [Reader.text, Reader.u32_toUInt64, readBool, pure_bind]
  | shake a o v p r h =>
    show ofMembers checks "Shake" (Cbor.present (shake a o v p r h).members) = _
    simp only [ofMembers]
    rw [required_member (v := .text a) (by simp [members]),
      required_member (v := .text o) (by simp [members]),
      required_member (v := .uint v.toUInt64) (by simp [members]),
      required_member (v := .bool p) (by simp [members]),
      required_member (v := .text r) (by simp [members]),
      required_member (v := .uint h) (by simp [members])]
    simp only [Reader.text, Reader.u32_toUInt64, Reader.u64, readBool, pure_bind]
  | ping height hash =>
    show ofMembers checks "Ping" (Cbor.present (ping height hash).members) = _
    simp only [ofMembers]
    rw [required_member (v := .uint height) (by simp [members]),
      required_member (v := .text (toHex hash.data)) (by simp [members])]
    simp only [Reader.u64, bytes_toHex, pure_bind]
  | pong height hash =>
    show ofMembers checks "Pong" (Cbor.present (pong height hash).members) = _
    simp only [ofMembers]
    rw [required_member (v := .uint height) (by simp [members]),
      required_member (v := .text (toHex hash.data)) (by simp [members])]
    simp only [Reader.u64, bytes_toHex, pure_bind]
  | twin => rfl
  | loop => rfl
  | getPeers => rfl
  | peers xs =>
    show ofMembers checks "Peers" (Cbor.present (peers xs).members) = _
    simp only [ofMembers]
    have htext : ∀ s, Reader.text (.text s) = pure (id s) := fun _ => rfl
    rw [required_member (v := .array (xs.map .text)) (by simp [members]), readMany_map htext,
      List.map_id, pure_bind]
  | getBlock index =>
    show ofMembers checks "GetBlock" (Cbor.present (getBlock index).members) = _
    simp only [ofMembers]
    rw [required_member (v := .uint index) (by simp [members])]
    simp only [Reader.u64, pure_bind]
  | block index data =>
    show ofMembers checks "Block" (Cbor.present (block index data).members) = _
    simp only [ofMembers]
    rw [required_member (v := .uint index) (by simp [members]),
      required_member (v := byteArray data) (by simp [members]), byteArray,
      readMany_map (f := id) readU8_toUInt64, List.map_id]
    simp only [Reader.u64, pure_bind]

/-- **A message survives the wire.** -/
theorem fromBytes_toVec (checks : Bool) {m : Message} (h : m.toVec.length < 2 ^ 64) :
    fromBytes checks m.toVec = .ok (some m) := by
  unfold fromBytes toVec
  rw [Cbor.fromSlice_toVec h]
  simp only [ofCbor_toCbor]
  rfl

end Message

end P2p
