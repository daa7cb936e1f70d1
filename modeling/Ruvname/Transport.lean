/-
# Handshakes and frames on a connection

What two nodes write to a connection before they exchange messages, a key, or a key and a nonce,
behind random bytes whose number is masked, and the frames after it.  The readers get what was
sent, and leave nothing behind, however the connection cuts the bytes.
-/
import Ruvname.Chunked
import Ruvname.Serving

namespace P2p.Transport

/-- `io::ErrorKind`, as far as the readers report it. -/
inductive ErrorKind where
  | unexpectedEof
  | invalidInput
  | brokenPipe
  deriving DecidableEq

/-- A reader of the connection.  Its reads do not fail: they get some bytes, or none at the end. -/
abbrev Reader (α : Type) := Chunked UInt8 → Except ErrorKind α × Chunked UInt8

/-! ## Sending -/

/-- Writes the bytes into a buffer, one after the other. -/
def overwrite (buf : List UInt8) : ℕ → List UInt8 → List UInt8
  | _, [] => buf
  | off, b :: rest => overwrite (buf.set off b) (off + 1) rest

/-- `send_client_handshake`; the buffer holds the random bytes. -/
def sendClientHandshake (buf : List UInt8) (publicKey : Vector UInt8 32) : List UInt8 :=
  let garbageSize := buf.length - 33
  overwrite (buf.set 0 (UInt8.ofNat garbageSize ^^^ 0xA)) (garbageSize + 1) publicKey.toList

/-- `send_server_handshake`; the buffer holds the random bytes. -/
def sendServerHandshake (buf : List UInt8) (publicKey : Vector UInt8 32) (nonce : Vector UInt8 12) :
    List UInt8 :=
  let garbageSize := buf.length - 1 - 32 - 12
  let buf := overwrite (buf.set 0 (UInt8.ofNat garbageSize ^^^ 0xA)) (garbageSize + 1) publicKey.toList
  overwrite buf (garbageSize + 32 + 1) nonce.toList

/-! ## Reading -/

/-- `read_exact`. -/
def readExact (n : ℕ) : Reader (List UInt8) := fun s =>
  match s.readExact n with
  | (some data, s) => (.ok data, s)
  | (none, s) => (.error .unexpectedEof, s)

/-- `read_garbage_header`. -/
def readGarbageHeader : Reader Unit := fun s =>
  match readExact 1 s with
  | (.error e, s) => (.error e, s)
  | (.ok size, s) =>
    let dataSize := (UInt8.ofNat (Cbor.ofBigEndian size) ^^^ 0xA).toNat
    match readExact dataSize s with
    | (.error e, s) => (.error e, s)
    | (.ok _, s) => (.ok (), s)

/-- `read_client_handshake`. -/
def readClientHandshake : Reader (List UInt8) := fun s =>
  match readGarbageHeader s with
  | (.error e, s) => (.error e, s)
  | (.ok _, s) => readExact 32 s

/-- `read_server_handshake`. -/
def readServerHandshake : Reader (List UInt8) := fun s =>
  match readGarbageHeader s with
  | (.error e, s) => (.error e, s)
  | (.ok _, s) => readExact (32 + 12) s

/-- The loop of `read_message`; the buffer is filled up to the end of `acc`. -/
def fill (dataSize : ℕ) (acc : List UInt8) (s : Chunked UInt8) : List UInt8 × Chunked UInt8 :=
  let read := s.read (dataSize - acc.length)
  if (acc ++ read.1).length = dataSize ∨ read.1 = [] then (acc ++ read.1, read.2)
  else fill dataSize (acc ++ read.1) read.2
termination_by dataSize - acc.length
decreasing_by
  rename_i hstop
  rw [not_or] at hstop
  have hle := Chunked.length_read_le (dataSize - acc.length) s
  have hpos : 0 < (s.read (dataSize - acc.length)).1.length := List.length_pos_of_ne_nil hstop.2
  rw [List.length_append]
  omega

/-- `read_message`: the part of the buffer that the message fills.  The buffer has 65535 bytes, so
that every length fits. -/
def readMessage : Reader (List UInt8) := fun s =>
  match readExact 2 s with
  | (.error e, s) => (.error e, s)
  | (.ok size, s) =>
    let dataSize := (UInt16.ofNat (Cbor.ofBigEndian size) ^^^ 0xAAAA).toNat
    if dataSize = 0 then (.error .invalidInput, s)
    else
      let (data, s) := fill dataSize [] s
      if data.length = dataSize then (.ok data, s) else (.error .brokenPipe, s)

/-- Messages, one after the other. -/
def readMessages : ℕ → Reader (List (List UInt8))
  | 0, s => (.ok [], s)
  | n + 1, s =>
    match readMessage s with
    | (.error e, s) => (.error e, s)
    | (.ok data, s) =>
      match readMessages n s with
      | (.error e, s) => (.error e, s)
      | (.ok rest, s) => (.ok (data :: rest), s)

/-! ## What is sent -/

variable {s : Chunked UInt8} {buf data acc rest : List UInt8} {off : ℕ} {publicKey : Vector UInt8 32}
  {nonce : Vector UInt8 12}

/-- Only the written part of the buffer changes. -/
theorem overwrite_eq (h : off + data.length ≤ buf.length) :
    overwrite buf off data = buf.take off ++ data ++ buf.drop (off + data.length) := by
  induction data generalizing buf off with
  | nil =>
    rw [overwrite, List.append_nil, List.length_nil, Nat.add_zero, List.take_append_drop]
  | cons b data ih =>
    rw [List.length_cons] at h
    -- the byte that was written last is the last one before the rest
    have hset : (buf.set off b).take (off + 1) = buf.take off ++ [b] := by
      rw [List.take_add_one, List.getElem?_set_self (by omega), List.take_set_of_le (le_refl _)]
      rfl
    rw [overwrite, ih (by rw [List.length_set]; omega), hset, List.drop_set_of_lt (by omega),
      List.append_assoc, List.append_assoc, List.singleton_append, List.append_assoc,
      List.cons_append, List.length_cons]
    congr 4
    omega

theorem overwrite_append {data' : List UInt8} : overwrite buf off (data ++ data')
    = overwrite (overwrite buf off data) (off + data.length) data' := by
  induction data generalizing buf off with
  | nil => rfl
  | cons b data ih =>
    rw [List.cons_append, overwrite, overwrite, ih, List.length_cons]
    congr 1
    omega

/-- A handshake is a masked number, so many random bytes, and the data. -/
theorem exists_garbage (buf data : List UInt8) (off : ℕ) (hsize : off + 1 + data.length = buf.length) :
    ∃ garbage, garbage.length = off ∧ overwrite (buf.set 0 (UInt8.ofNat off ^^^ 0xA)) (off + 1) data
      = (UInt8.ofNat garbage.length ^^^ 0xA) :: (garbage ++ data) := by
  cases buf with
  | nil => simp at hsize
  | cons b buf =>
    rw [List.length_cons] at hsize
    refine ⟨buf.take off, by rw [List.length_take]; omega, ?_⟩
    rw [List.set_cons_zero, overwrite_eq (by rw [List.length_cons]; omega), List.take_succ_cons,
      List.drop_eq_nil_of_le (by rw [List.length_cons]; omega), List.append_nil, List.cons_append,
      List.length_take, Nat.min_eq_left (by omega)]

/-- What a client sends: a masked number, so many random bytes, and the key. -/
theorem exists_clientGarbage (publicKey : Vector UInt8 32) (hbuf : 64 ≤ buf.length ∧ buf.length < 255) :
    ∃ garbage, garbage.length < 256 ∧ sendClientHandshake buf publicKey
      = (UInt8.ofNat garbage.length ^^^ 0xA) :: (garbage ++ publicKey.toList) := by
  have hkey : publicKey.toList.length = 32 := publicKey.length_toList
  obtain ⟨garbage, hlength, heq⟩ := exists_garbage buf publicKey.toList (buf.length - 33) (by omega)
  exact ⟨garbage, by omega, heq⟩

/-- What a server sends: a masked number, so many random bytes, the key and the nonce. -/
theorem exists_serverGarbage (publicKey : Vector UInt8 32) (nonce : Vector UInt8 12)
    (hbuf : 64 ≤ buf.length ∧ buf.length < 255) :
    ∃ garbage, garbage.length < 256 ∧ sendServerHandshake buf publicKey nonce
      = (UInt8.ofNat garbage.length ^^^ 0xA) :: (garbage ++ (publicKey.toList ++ nonce.toList)) := by
  have hkey : publicKey.toList.length = 32 := publicKey.length_toList
  have hnonce : nonce.toList.length = 12 := nonce.length_toList
  obtain ⟨garbage, hlength, heq⟩ := exists_garbage buf (publicKey.toList ++ nonce.toList)
    (buf.length - 1 - 32 - 12) (by rw [List.length_append]; omega)
  refine ⟨garbage, by omega, ?_⟩
  rw [← heq, overwrite_append, hkey]
  rfl

/-! ## What is read -/

theorem exists_readExact {data : List UInt8} (h : s.items = data ++ rest) :
    ∃ s', readExact data.length s = (.ok data, s') ∧ s'.items = rest := by
  obtain ⟨s', hread, hs'⟩ := Chunked.exists_readExact h
  refine ⟨s', ?_, hs'⟩
  unfold readExact
  rw [hread]

/-- The random bytes are skipped. -/
theorem exists_readGarbageHeader {garbage : List UInt8} (hlength : garbage.length < 256)
    (h : s.items = (UInt8.ofNat garbage.length ^^^ 0xA) :: (garbage ++ rest)) :
    ∃ s', readGarbageHeader s = (.ok (), s') ∧ s'.items = rest := by
  have hfirst : s.items = [UInt8.ofNat garbage.length ^^^ 0xA] ++ (garbage ++ rest) := h
  obtain ⟨s₁, hsize, hs₁⟩ := exists_readExact hfirst
  obtain ⟨s₂, hgarbage, hs₂⟩ := exists_readExact hs₁
  have hdataSize : (UInt8.ofNat (Cbor.ofBigEndian [UInt8.ofNat garbage.length ^^^ 0xA]) ^^^ 0xA).toNat
      = garbage.length := by
    have hsingle : ∀ b : UInt8, Cbor.ofBigEndian [b] = b.toNat := fun b => by simp [Cbor.ofBigEndian]
    rw [hsingle, UInt8.ofNat_toNat, UInt8.xor_assoc, UInt8.xor_self, UInt8.xor_zero, UInt8.toNat_ofNat',
      Nat.mod_eq_of_lt (by omega)]
  refine ⟨s₂, ?_, hs₂⟩
  unfold readGarbageHeader
  rw [List.length_singleton] at hsize
  rw [hsize]
  dsimp only
  rw [hdataSize, hgarbage]

/-- **The loop gets what the stream goes on with**, whatever its pieces are. -/
theorem exists_fill (acc : List UInt8) (h : s.items = data ++ rest) (hdata : data ≠ []) :
    ∃ s', fill (acc.length + data.length) acc s = (acc ++ data, s') ∧ s'.items = rest := by
  induction hlength : data.length using Nat.strong_induction_on generalizing acc data s with
  | h n ih =>
    subst hlength
    obtain ⟨read, data', s', hread, hne, hsplit, hs'⟩ := Chunked.exists_read h hdata
    unfold fill
    rw [Nat.add_sub_cancel_left, hread]
    dsimp only
    by_cases hdone : data' = []
    · -- the read gets all that is missing
      rw [hdone, List.append_nil] at hsplit
      rw [hdone, List.nil_append] at hs'
      rw [← hsplit, if_pos (Or.inl List.length_append)]
      exact ⟨s', rfl, hs'⟩
    · have hlength : data.length = read.length + data'.length := by rw [hsplit, List.length_append]
      have hpos := List.length_pos_of_ne_nil hne
      have hpos' := List.length_pos_of_ne_nil hdone
      obtain ⟨s'', hfill, hs''⟩ := ih data'.length (by omega) (acc ++ read) hs' hdone rfl
      rw [if_neg]
      · refine ⟨s'', ?_, hs''⟩
        rw [List.length_append, Nat.add_assoc, ← hlength, List.append_assoc, ← hsplit] at hfill
        exact hfill
      · rw [not_or, List.length_append, hlength]
        exact ⟨by omega, hne⟩

/-- A frame is read as it was sent. -/
theorem exists_readMessage (hsize : 1 ≤ data.length ∧ data.length ≤ 65535)
    (h : s.items = sendMessage data ++ rest) :
    ∃ s', readMessage s = (.ok data, s') ∧ s'.items = rest := by
  unfold sendMessage at h
  rw [List.append_assoc] at h
  obtain ⟨s₁, hread, hs₁⟩ := exists_readExact h
  rw [Cbor.length_bigEndian] at hread
  have hback : (UInt16.ofNat (Cbor.ofBigEndian (Cbor.bigEndian 2
      (UInt16.ofNat data.length ^^^ 0xAAAA).toNat)) ^^^ 0xAAAA).toNat = data.length := by
    rw [Cbor.ofBigEndian_bigEndian (UInt16.toNat_lt _), UInt16.ofNat_toNat, UInt16.xor_assoc,
      UInt16.xor_self, UInt16.xor_zero, UInt16.toNat_ofNat', Nat.mod_eq_of_lt (by omega)]
  obtain ⟨s₂, hfill, hs₂⟩ := exists_fill [] hs₁ (List.ne_nil_of_length_pos hsize.1)
  rw [List.length_nil, Nat.zero_add, List.nil_append] at hfill
  refine ⟨s₂, ?_, hs₂⟩
  unfold readMessage
  rw [hread]
  dsimp only
  rw [hback, if_neg (by omega), hfill]
  dsimp only
  rw [if_pos rfl]

/-- **All frames are read**, by induction on their list. -/
theorem exists_readMessages {payloads : List (List UInt8)}
    (hsize : ∀ data ∈ payloads, 1 ≤ data.length ∧ data.length ≤ 65535)
    (h : s.items = payloads.flatMap sendMessage) :
    ∃ s', readMessages payloads.length s = (.ok payloads, s') ∧ s'.items = [] := by
  induction payloads generalizing s with
  | nil => exact ⟨s, rfl, h⟩
  | cons data payloads ih =>
    rw [List.flatMap_cons] at h
    obtain ⟨s₁, hdata, hs₁⟩ := exists_readMessage (hsize data List.mem_cons_self) h
    obtain ⟨s₂, hrest, hs₂⟩ := ih (fun data hdata => hsize data (List.mem_cons_of_mem _ hdata)) hs₁
    refine ⟨s₂, ?_, hs₂⟩
    rw [List.length_cons, readMessages, hdata]
    dsimp only
    rw [hrest]

/-- **Handshakes and frames are read as they were sent**, and nothing is left, however the connection
cuts what it transports. -/
theorem read_sent (publicKey : Vector UInt8 32) (nonce : Vector UInt8 12) (buf : List UInt8)
    (payloads : List (List UInt8)) (s : Chunked UInt8) (hbuf : 64 ≤ buf.length ∧ buf.length < 255)
    (hsize : ∀ data ∈ payloads, 1 ≤ data.length ∧ data.length ≤ 65535) :
    (s.items = sendClientHandshake buf publicKey ++ payloads.flatMap sendMessage →
      ∃ s' s'', readClientHandshake s = (.ok publicKey.toList, s')
        ∧ readMessages payloads.length s' = (.ok payloads, s'') ∧ s''.items = [])
    ∧ (s.items = sendServerHandshake buf publicKey nonce ++ payloads.flatMap sendMessage →
      ∃ s' s'', readServerHandshake s = (.ok (publicKey.toList ++ nonce.toList), s')
        ∧ readMessages payloads.length s' = (.ok payloads, s'') ∧ s''.items = []) := by
  constructor
  · intro h
    obtain ⟨garbage, hlength, heq⟩ := exists_clientGarbage publicKey hbuf
    rw [heq, List.cons_append, List.append_assoc] at h
    obtain ⟨s₁, hheader, hs₁⟩ := exists_readGarbageHeader hlength h
    obtain ⟨s₂, hkey, hs₂⟩ := exists_readExact hs₁
    obtain ⟨s₃, hmessages, hs₃⟩ := exists_readMessages hsize hs₂
    refine ⟨s₂, s₃, ?_, hmessages, hs₃⟩
    unfold readClientHandshake
    rw [hheader]
    rw [publicKey.length_toList] at hkey
    exact hkey
  · intro h
    obtain ⟨garbage, hlength, heq⟩ := exists_serverGarbage publicKey nonce hbuf
    rw [heq, List.cons_append, List.append_assoc] at h
    obtain ⟨s₁, hheader, hs₁⟩ := exists_readGarbageHeader hlength h
    obtain ⟨s₂, hkey, hs₂⟩ := exists_readExact hs₁
    obtain ⟨s₃, hmessages, hs₃⟩ := exists_readMessages hsize hs₂
    refine ⟨s₂, s₃, ?_, hmessages, hs₃⟩
    unfold readServerHandshake
    rw [hheader]
    rw [List.length_append, publicKey.length_toList, nonce.length_toList] at hkey
    exact hkey

/-- A connection that delivers byte by byte. -/
def bytewise (bytes : List UInt8) : Chunked UInt8 where
  chunks := bytes.map fun b => [b]
  nonempty chunk hchunk := by
    obtain ⟨b, -, rfl⟩ := List.mem_map.mp hchunk
    exact List.cons_ne_nil _ _

theorem items_bytewise (bytes : List UInt8) : (bytewise bytes).items = bytes := by
  show (bytes.map fun b => [b]).flatten = bytes
  induction bytes with
  | nil => rfl
  | cons b bytes ih => rw [List.map_cons, List.flatten_cons, ih, List.singleton_append]

/-- The shortest server handshake and two messages, byte by byte. -/
theorem read_sent_bytewise : ∃ s' s'',
    readServerHandshake (bytewise (sendServerHandshake (List.replicate 64 7) (Vector.replicate 32 1)
        (Vector.replicate 12 2) ++ [[1, 2, 3], [4]].flatMap sendMessage))
      = (.ok ((Vector.replicate 32 1).toList ++ (Vector.replicate 12 2).toList), s')
    ∧ readMessages 2 s' = (.ok [[1, 2, 3], [4]], s'') ∧ s''.items = [] :=
  (read_sent (Vector.replicate 32 1) (Vector.replicate 12 2) (List.replicate 64 7) [[1, 2, 3], [4]] _
    (by decide) (by decide)).2 (items_bytewise _)

end P2p.Transport
