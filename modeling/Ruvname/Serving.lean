/-
# Serving stored blocks

The way of a stored block to a peer that asks for it: the answer to `GetBlock`, encryption, the
frame with its two-byte length, and the same back on the other side.  The length is cut to
sixteen bits without a check, and nothing bounds the identity, the info or the contacts of a
block that is accepted: a block is served exactly if its encrypted answer fits the length.
-/
import Ruvname.Message
import Ruvname.Transparency

open Exec

namespace P2p

/-! ## Encryption and frames -/

/-- `Chacha`: ChaCha20-Poly1305 under a key and a nonce that both sides share. -/
structure Cipher where
  encrypt : List UInt8 → Option (List UInt8)
  decrypt : List UInt8 → Option (List UInt8)
  /-- Only messages beyond 256 GiB are refused. -/
  encrypt_isSome : ∀ m, m.length < 2 ^ 38 → (encrypt m).isSome
  /-- The tag has 16 bytes. -/
  length_encrypt : ∀ m c, encrypt m = some c → c.length = m.length + 16
  decrypt_encrypt : ∀ m c, encrypt m = some c → decrypt c = some m

/-- `encode_bytes`. -/
def encodeBytes (cipher : Option Cipher) (data : List UInt8) : Option (List UInt8) :=
  match cipher with
  | none => some data
  | some chacha => chacha.encrypt data

/-- `decode_message`. -/
def decodeMessage (cipher : Option Cipher) (data : List UInt8) : Option (List UInt8) :=
  match cipher with
  | none => some data
  | some chacha => chacha.decrypt data

/-- `send_message`: the bytes written to the connection. -/
def sendMessage (data : List UInt8) : List UInt8 :=
  let dataLen := UInt16.ofNat data.length
  Cbor.bigEndian 2 (dataLen ^^^ 0xAAAA).toNat ++ data

/-- `read_message`: the data of the first frame.  The buffer has 65535 bytes, so that every
length fits; a connection that ends early is an error. -/
def readMessage (stream : List UInt8) : Option (List UInt8) := do
  let (size, rest) ← Cbor.takeBytes 2 stream
  let dataSize := (UInt16.ofNat (Cbor.ofBigEndian size) ^^^ 0xAAAA).toNat
  if dataSize = 0 then none
  else do
    let (data, _) ← Cbor.takeBytes dataSize rest
    some data

/-- The reading part of `process_readable`: a message that cannot be decrypted is read as an
empty one. -/
def processReadable (checks : Bool) (cipher : Option Cipher) (stream : List UInt8) :
    Exec (Option Message) :=
  match readMessage stream with
  | none => .ok none
  | some data => Message.fromBytes checks ((decodeMessage cipher data).getD [])

/-- `handle_message` on `GetBlock`: the block as it is stored. -/
def answerGetBlock (c : Chain) (index : UInt64) : Option Message :=
  (c.getBlock index).map fun b => .block b.index b.asBytes

/-- `handle_message` on `Block`, up to the call of `handle_block`: `none` bans the sender. -/
def receiveBlock (checks : Bool) (index : UInt64) (data : List UInt8) : Exec (Option Block) := do
  match ← Block.fromBytes checks data with
  | none => .ok none
  | some b => .ok (if index ≠ b.index then none else some b)

/-- What a peer gets that has asked for a block. -/
def fetchBlock (checks : Bool) (cipher : Option Cipher) (c : Chain) (index : UInt64) :
    Exec (Option Block) :=
  match (answerGetBlock c index).bind fun reply => encodeBytes cipher reply.toVec with
  | none => .ok none
  | some data => do
    match ← processReadable checks cipher (sendMessage data) with
    | some (.block index block) => receiveBlock checks index block
    | _ => .ok none

/-! ## Frames -/

theorem readMessage_sendMessage (data : List UInt8) :
    readMessage (sendMessage data) =
      if data.length % 2 ^ 16 = 0 then none else some (data.take (data.length % 2 ^ 16)) := by
  have hsize : (UInt16.ofNat data.length ^^^ 0xAAAA).toNat < 256 ^ 2 := UInt16.toNat_lt _
  have hback : UInt16.ofNat (UInt16.ofNat data.length ^^^ 0xAAAA).toNat ^^^ 0xAAAA
      = UInt16.ofNat data.length := by
    rw [UInt16.ofNat_toNat, UInt16.xor_assoc, UInt16.xor_self, UInt16.xor_zero]
  have hlength : (UInt16.ofNat data.length).toNat = data.length % 2 ^ 16 := UInt16.toNat_ofNat'
  have htake : Cbor.takeBytes (data.length % 2 ^ 16) data
      = some (data.take (data.length % 2 ^ 16), data.drop (data.length % 2 ^ 16)) := by
    rw [Cbor.takeBytes, if_pos (Nat.mod_le _ _)]
  unfold readMessage sendMessage
  rw [Cbor.takeBytes_append (Cbor.length_bigEndian _ _)]
  show (if (UInt16.ofNat (Cbor.ofBigEndian _) ^^^ 0xAAAA).toNat = 0 then none else _) = _
  rw [Cbor.ofBigEndian_bigEndian hsize, hback, hlength]
  split
  · rfl
  · dsimp only
    rw [htake]
    rfl

/-- The bytes of a block are part of the message that carries it. -/
theorem length_asBytes_le (b : Block) :
    b.asBytes.length ≤ (Message.block b.index b.asBytes).toVec.length := by
  have harray := Cbor.length_le_encodeArray (b.asBytes.map fun x => .uint x.toUInt64)
  rw [List.length_map] at harray
  simp only [Message.toVec, Cbor.toVec, Message.toCbor, Message.variant, Message.members,
    Message.byteArray, Cbor.present, List.filterMap_cons, List.filterMap_nil, Option.map_some,
    Cbor.encode, Cbor.encodeMap, List.length_append]
  omega

/-! ## Fetching a block -/

section Fetch

variable {checks : Bool} {cipher : Cipher} {c : Chain} {index : UInt64} {b : Block}

/-- The length of the encrypted answer to a request for the block. -/
def answerLength (b : Block) : ℕ := (Message.block b.index b.asBytes).toVec.length + 16

/-- An answer that fits the frame arrives. -/
theorem fetchBlock_of_fits (hget : c.getBlock index = some b) (hfits : answerLength b < 2 ^ 16) :
    fetchBlock checks (some cipher) c index = .ok (some b.emptied) := by
  unfold answerLength at hfits
  obtain ⟨data, hdata⟩ := Option.isSome_iff_exists.mp
    (cipher.encrypt_isSome (Message.block b.index b.asBytes).toVec (by omega))
  have hlength := cipher.length_encrypt _ _ hdata
  have hbytes := length_asBytes_le b
  have hread : readMessage (sendMessage data) = some data := by
    rw [readMessage_sendMessage, Nat.mod_eq_of_lt (by omega), if_neg (by omega), List.take_length]
  have hmessage : processReadable checks (some cipher) (sendMessage data)
      = .ok (some (.block b.index b.asBytes)) := by
    unfold processReadable decodeMessage
    rw [hread]
    simp only [cipher.decrypt_encrypt _ _ hdata, Option.getD_some]
    exact Message.fromBytes_toVec checks (by omega)
  have hblock : receiveBlock checks b.index b.asBytes = .ok (some b.emptied) := by
    unfold receiveBlock
    rw [Block.fromBytes_asBytes checks (by omega), ok_bind]
    show Except.ok (if b.index ≠ b.index then none else some b.emptied) = _
    rw [if_neg (not_not_intro rfl)]
  unfold fetchBlock answerGetBlock encodeBytes
  rw [hget]
  simp only [Option.map_some, Option.bind_some, hdata, hmessage, ok_bind]
  exact hblock

/-- The answer with the block, if it is cut to the length that its frame says, fails
authentication. -/
def Cipher.RefusesCut (cipher : Cipher) (b : Block) : Prop :=
  ∀ data, cipher.encrypt (Message.block b.index b.asBytes).toVec = some data →
    data.length % 2 ^ 16 < data.length → cipher.decrypt (data.take (data.length % 2 ^ 16)) = none

/-- A longer one is cut, and does not if the cut is noticed. -/
theorem fetchBlock_of_not_fits (hrefuses : cipher.RefusesCut b) (hget : c.getBlock index = some b)
    (hlong : ¬ answerLength b < 2 ^ 16) :
    fetchBlock checks (some cipher) c index = .ok none := by
  unfold answerLength at hlong
  unfold fetchBlock answerGetBlock encodeBytes
  rw [hget]
  simp only [Option.map_some, Option.bind_some]
  cases hdata : cipher.encrypt (Message.block b.index b.asBytes).toVec with
  | none => rfl
  | some data =>
    have hlength := cipher.length_encrypt _ _ hdata
    have hempty : Message.fromBytes checks [] = .ok none := rfl
    have hmessage : processReadable checks (some cipher) (sendMessage data) = .ok none := by
      unfold processReadable decodeMessage
      rw [readMessage_sendMessage]
      by_cases hzero : data.length % 2 ^ 16 = 0
      · rw [if_pos hzero]
      · -- the frame is shorter than the ciphertext
        have hmod := Nat.mod_lt data.length (show 0 < 2 ^ 16 by decide)
        rw [if_neg hzero]
        simp only [hrefuses data hdata (by omega), Option.getD_none, hempty]
    simp only [hmessage, ok_bind]

end Fetch

/-- No member of the block before its transaction is all-zero without being empty. -/
structure NoZeroMember (b : Block) : Prop where
  hash : b.hash.collapse = b.hash
  prevBlockHash : b.prevBlockHash.collapse = b.prevBlockHash
  pubKey : b.pubKey.collapse = b.pubKey
  signature : b.signature.collapse = b.signature

theorem emptied_eq_self_iff {b : Block} (hcollapsed : b.collapse = b) : b.emptied = b ↔ NoZeroMember b := by
  constructor
  · intro h
    exact ⟨congrArg Block.hash h, congrArg Block.prevBlockHash h, congrArg Block.pubKey h,
      congrArg Block.signature h⟩
  · intro h
    unfold Block.emptied
    rw [hcollapsed, h.hash, h.prevBlockHash, h.pubKey, h.signature]

/-- **When a stored block is served.**  A peer that asks a reachable node for a stored block
gets this block if and only if the encrypted answer fits the two-byte length and the block has
no all-zero member that the wire would empty; the cipher is taken to refuse this one answer if it
has been cut. -/
theorem fetchBlock_eq_iff {P : Platform} {n : Node} {cipher : Cipher} {index : UInt64} {b : Block}
    (hn : n.Reachable P) (hget : n.chain.getBlock index = some b) (hrefuses : cipher.RefusesCut b) :
    fetchBlock P.checks (some cipher) n.chain index = .ok (some b) ↔
      answerLength b < 2 ^ 16 ∧ NoZeroMember b := by
  obtain ⟨f, hf⟩ := hn.grounded
  have hcollapsed : b.collapse = b := by
    rw [Chain.getBlock, hf.db.getBlock] at hget
    obtain ⟨x, -, rfl⟩ := Option.map_eq_some_iff.mp hget
    exact x.collapse_collapse
  rw [← emptied_eq_self_iff hcollapsed]
  by_cases hfits : answerLength b < 2 ^ 16
  · rw [fetchBlock_of_fits hget hfits, Except.ok.injEq, Option.some.injEq]
    exact ⟨fun h => ⟨hfits, h⟩, fun h => h.2⟩
  · rw [fetchBlock_of_not_fits hrefuses hget hfits]
    exact ⟨fun h => (by cases h), fun h => absurd h.1 hfits⟩

namespace Sample

/-- A cipher whose tag is the length of the message, as far as a frame can hold one. -/
def lengthCipher : Cipher where
  encrypt m := some (Cbor.bigEndian 16 (min m.length (2 ^ 16)) ++ m)
  decrypt c :=
    if 16 ≤ c.length ∧ Cbor.ofBigEndian (c.take 16) = min (c.length - 16) (2 ^ 16) then
      some (c.drop 16)
    else none
  encrypt_isSome _ _ := rfl
  length_encrypt m c h := by
    rw [← Option.some.inj h, List.length_append, Cbor.length_bigEndian, Nat.add_comm]
  decrypt_encrypt m c h := by
    have hwidth := Cbor.length_bigEndian 16 (min m.length (2 ^ 16))
    rw [← Option.some.inj h, List.take_left' hwidth, List.drop_left' hwidth,
      Cbor.ofBigEndian_bigEndian (by omega), if_pos]
    rw [List.length_append, hwidth]
    omega

/-- It refuses whatever has been cut to what a frame can hold. -/
theorem lengthCipher_refusesCut (b : Block) : lengthCipher.RefusesCut b := by
  intro data hdata hcut
  have hwidth := Cbor.length_bigEndian 16 (min (Message.block b.index b.asBytes).toVec.length (2 ^ 16))
  have hsmall := Nat.mod_lt data.length (show 0 < 2 ^ 16 by decide)
  revert hcut hsmall
  generalize data.length % 2 ^ 16 = k
  intro hcut hsmall
  rw [← Option.some.inj hdata, List.length_append, hwidth] at hcut
  rw [← Option.some.inj hdata]
  by_cases hshort : k < 16
  · refine if_neg fun h => ?_
    rw [List.length_take, List.length_append, hwidth] at h
    omega
  · refine if_neg fun h => ?_
    rw [List.take_take, Nat.min_eq_left (not_lt.mp hshort), List.take_left' hwidth,
      Cbor.ofBigEndian_bigEndian (by omega), List.length_take, List.length_append, hwidth] at h
    omega

end Sample

/-- The origin block is served. -/
theorem fetchBlock_genesis : ∃ n : Node, n.Reachable (Sample.platform true)
    ∧ n.chain.getBlock 1 = some Sample.genesis
    ∧ fetchBlock true (some Sample.lengthCipher) n.chain 1 = .ok (some Sample.genesis) := by
  have hrun : ∃ n, Node.receive (Sample.platform true) Sample.now [Sample.genesis]
      (Node.fresh Sample.genesis.hash) = .ok n ∧ n.chain.getBlock 1 = some Sample.genesis := by
    decide +kernel
  obtain ⟨n, hn, hget⟩ := hrun
  have hreach : n.Reachable (Sample.platform true) :=
    ⟨_, Node.receive_run (fun _ _ _ => trivial) hn⟩
  have hfits : answerLength Sample.genesis < 2 ^ 16 := by decide +kernel
  have hmembers : NoZeroMember Sample.genesis :=
    ⟨by decide +kernel, by decide +kernel, by decide +kernel, by decide +kernel⟩
  exact ⟨n, hreach, hget,
    (fetchBlock_eq_iff hreach hget (Sample.lengthCipher_refusesCut _)).mpr ⟨hfits, hmembers⟩⟩

namespace Sample

/-- A domain block whose identity has forty thousand bytes. -/
def huge : Transaction := Sample.domain ⟨List.replicate 40000 7⟩
def hugeIdentity : Block := Sample.block 2 10 2 Sample.genesis.hash (Sample.key 2) (some huge)

theorem length_huge : huge.identity.length = 40000 := List.length_replicate

theorem isZero_huge : huge.identity.isZero = false := by
  show (List.replicate 40000 (7 : UInt8)).all (· == 0) = false
  rw [List.all_replicate]
  rfl

end Sample

/-- An identity is written in hexadecimal, inside the transaction, inside the block. -/
theorem length_identity_le {b : Block} {t : Transaction} (ht : b.transaction = some t)
    (hzero : t.identity.isZero = false) : 2 * t.identity.length ≤ b.collapse.asBytes.length := by
  have hkept : t.collapse.identity = t.identity := by
    show t.identity.collapse = t.identity
    rw [Bytes.collapse, hzero]
    rfl
  rw [← hkept] at hzero ⊢
  have ht : b.collapse.transaction = some t.collapse := by rw [Block.collapse, ht, Option.map_some]
  generalize t.collapse = t at ht hzero
  generalize b.collapse = b at ht
  have htext : ("identity", some (Cbor.text (toHex t.identity.data))) ∈ t.fields := by
    simp [Transaction.fields, Bytes.member, Bytes.text, Bytes.unlessZero, hzero]
  have htransaction : ("transaction", some t.toCbor) ∈ b.fields := by
    simp [Block.fields, ht]
  have hsize := Cbor.size_le_encodeText (toHex t.identity.data)
  rw [utf8ByteSize_toHex] at hsize
  have hinner := Cbor.length_encode_le (Cbor.mem_present htext)
  have houter := Cbor.length_encode_le (Cbor.mem_present htransaction)
  rw [Cbor.encode] at hinner
  calc 2 * t.identity.length ≤ (Cbor.encodeText (toHex t.identity.data)).length := hsize
    _ ≤ t.toCbor.encode.length := hinner
    _ ≤ b.asBytes.length := houter

/-- A node without waiting blocks takes a good block. -/
theorem step_of_good {P : Platform} {n : Node} {now : UtcTime} {b : Block} {c : Chain}
    {r : BlockQuality × SignersCache} {next : UInt64} (hfuture : n.futureBlocks = [])
    (hcheck : n.chain.checkNewBlock P now b = .ok r) (hgood : r.1 = .good)
    (hnext : addU64 P.checks b.index 1 = .ok next)
    (hadd : { n.chain with signers := r.2 }.addBlock b = .ok c) :
    ∃ n', n.Step P (.block (fun _ => now) b) n' ∧ n'.chain = c := by
  obtain ⟨quality, cache⟩ := r
  subst hgood
  have hhandle := @Node.handleBlock_good P n (fun _ => now) b cache next c hcheck hnext hadd
  rw [hfuture] at hhandle
  exact ⟨_, ⟨.idle, hhandle⟩, rfl⟩

/-- The huge block is good for a node that has the origin block, and it is stored. -/
theorem Sample.huge_good : ∃ n, Node.receive (Sample.platform true) Sample.now [Sample.genesis]
      (Node.fresh Sample.genesis.hash) = .ok n
    ∧ n.futureBlocks = []
    ∧ ∃ r, n.chain.checkNewBlock (Sample.platform true) Sample.now Sample.hugeIdentity = .ok r
    ∧ r.1 = .good
    ∧ (n.chain.db.addBlockToTable Sample.hugeIdentity).isSome
    ∧ ∃ c, { n.chain with signers := r.2 }.addBlock Sample.hugeIdentity = .ok c ∧ True := by
  decide +kernel

/-- A transaction with a long identity makes a long answer. -/
theorem two_mul_length_le_answerLength {b : Block} {t : Transaction} (ht : b.transaction = some t)
    (hzero : t.identity.isZero = false) : 2 * t.identity.length ≤ answerLength b.collapse :=
  calc 2 * t.identity.length ≤ b.collapse.asBytes.length := length_identity_le ht hzero
    _ ≤ (Message.block b.collapse.index b.collapse.asBytes).toVec.length := length_asBytes_le _
    _ ≤ answerLength b.collapse := Nat.le_add_right _ _

theorem Sample.answerLength_huge : 2 ^ 16 ≤ answerLength Sample.hugeIdentity.collapse := by
  have hlong := two_mul_length_le_answerLength (b := Sample.hugeIdentity) rfl Sample.isZero_huge
  rw [Sample.length_huge] at hlong
  exact le_trans (by decide) hlong

/-- A block that was accepted and stored, and that no peer gets. -/
theorem not_fetchBlock_hugeIdentity : ∃ (n : Node) (b : Block), n.Reachable (Sample.platform true)
    ∧ n.chain.getBlock 2 = some b ∧ Sample.lengthCipher.RefusesCut b
    ∧ ∀ cipher : Cipher, cipher.RefusesCut b →
      fetchBlock true (some cipher) n.chain 2 ≠ .ok (some b) := by
  obtain ⟨n, hn, hfuture, r, hcheck, hgood, hstored, c, hadd, -⟩ := Sample.huge_good
  have hnext : addU64 true Sample.hugeIdentity.index 1 = .ok 3 := rfl
  obtain ⟨n', hstep, rfl⟩ := step_of_good hfuture hcheck hgood hnext hadd
  have hget : n'.chain.getBlock Sample.hugeIdentity.index = some Sample.hugeIdentity.collapse :=
    Chain.getBlock_addBlock (c := { n.chain with signers := r.2 }) hstored hadd
  have hreach : n'.Reachable (Sample.platform true) :=
    ⟨_, (Node.receive_run (fun _ _ _ => trivial) hn).tail trivial hstep⟩
  refine ⟨n', _, hreach, hget, Sample.lengthCipher_refusesCut _, fun cipher hrefuses hserved => ?_⟩
  have hfits := ((fetchBlock_eq_iff hreach hget hrefuses).mp hserved).1
  exact absurd hfits (not_lt.mpr Sample.answerLength_huge)

end P2p
