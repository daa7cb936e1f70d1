/-
# Both ends of a connection

A connection seen from both sides: the end that has opened it and the end that has accepted it.
What one end writes arrives at the other end piece by piece; a read finds some of the bytes that
have not been read yet, and the ends take their steps in any order.  Either end can go away at any
time.

The handshakes lead both ends to one cipher, and from then on each end hears what the other end has
said: the same messages, in the same order, none left out and none twice.
-/
import Ruvname.NetworkLoop

/-! ## What arrives

A read that succeeds has got a part of what was sent, although not everything may have arrived. -/

namespace Chunked

variable {α : Type} {s s' : Chunked α} {data : List α} {n : ℕ}

/-- What `readExact` gets is what the stream starts with. -/
theorem items_of_readExact (h : s.readExact n = (some data, s')) :
    s.items = data ++ s'.items ∧ data.length = n := by
  induction n using Nat.strong_induction_on generalizing s data with
  | h n ih =>
    unfold readExact at h
    by_cases hn : n = 0
    · rw [if_pos hn] at h
      cases h
      exact ⟨rfl, hn.symm⟩
    · rw [if_neg hn] at h
      dsimp only at h
      have happend := read_append n s
      have hle := length_read_le n s
      by_cases hnil : (s.read n).1 = []
      · rw [if_pos hnil] at h
        cases h
      · rw [if_neg hnil] at h
        have hpos := List.length_pos_of_ne_nil hnil
        cases hmore : (s.read n).2.readExact (n - (s.read n).1.length) with
        | mk more s₁ =>
          rw [hmore] at h
          cases more with
          | none => cases h
          | some more =>
            cases h
            obtain ⟨hitems, hlength⟩ := ih (n - (s.read n).1.length) (by omega) hmore
            refine ⟨?_, ?_⟩
            · rw [← happend, hitems, List.append_assoc]
            · rw [List.length_append]
              omega

end Chunked

namespace P2p.Transport

variable {s s' : Chunked UInt8} {data frame c rest : List UInt8} {n : ℕ}

theorem items_of_readExact (h : readExact n s = (.ok data, s')) :
    s.items = data ++ s'.items ∧ data.length = n := by
  unfold readExact at h
  cases hread : s.readExact n with
  | mk got s₁ =>
    rw [hread] at h
    cases got with
    | none => cases h
    | some got =>
      cases h
      exact Chunked.items_of_readExact hread

theorem items_of_readGarbageHeader (h : readGarbageHeader s = (.ok (), s')) :
    ∃ size garbage, s.items = size :: (garbage ++ s'.items) ∧ garbage.length = (size ^^^ 0xA).toNat := by
  unfold readGarbageHeader at h
  cases hsize : readExact 1 s with
  | mk size s₁ =>
    rw [hsize] at h
    cases size with
    | error e => cases h
    | ok size =>
      dsimp only at h
      obtain ⟨hitems, hlength⟩ := items_of_readExact hsize
      obtain ⟨b, rfl⟩ := List.length_eq_one_iff.mp hlength
      cases hgarbage : readExact (UInt8.ofNat (Cbor.ofBigEndian [b]) ^^^ 0xA).toNat s₁ with
      | mk garbage s₂ =>
        rw [hgarbage] at h
        cases garbage with
        | error e => cases h
        | ok garbage =>
          cases h
          obtain ⟨hitems₁, hlength₁⟩ := items_of_readExact hgarbage
          refine ⟨b, garbage, ?_, ?_⟩
          · rw [hitems, hitems₁]
            rfl
          · rw [hlength₁, show Cbor.ofBigEndian [b] = b.toNat by simp [Cbor.ofBigEndian], UInt8.ofNat_toNat]

/-- The random bytes of a handshake that is arriving are skipped. -/
theorem readGarbageHeader_of_prefix {garbage : List UInt8} (hlength : garbage.length < 256)
    (h : s.items <+: (UInt8.ofNat garbage.length ^^^ 0xA) :: (garbage ++ rest))
    (hread : readGarbageHeader s = (.ok (), s')) :
    s.items = (UInt8.ofNat garbage.length ^^^ 0xA) :: garbage ++ s'.items ∧ s'.items <+: rest := by
  obtain ⟨size, skipped, hitems, hskipped⟩ := items_of_readGarbageHeader hread
  rw [hitems, List.cons_prefix_cons] at h
  obtain ⟨rfl, h⟩ := h
  rw [UInt8.xor_assoc, UInt8.xor_self, UInt8.xor_zero, UInt8.toNat_ofNat', Nat.mod_eq_of_lt hlength]
    at hskipped
  obtain ⟨more, hmore⟩ := h
  rw [List.append_assoc] at hmore
  obtain ⟨rfl, hrest⟩ := List.append_inj hmore hskipped
  exact ⟨hitems, more, hrest⟩

/-- Random bytes are skipped, and what comes after them is read. -/
theorem readHandshake_of_prefix {garbage payload : List UInt8} {s₁ : Chunked UInt8}
    (hlength : garbage.length < 256)
    (h : s.items <+: (UInt8.ofNat garbage.length ^^^ 0xA) :: (garbage ++ payload) ++ rest)
    (hheader : readGarbageHeader s = (.ok (), s₁))
    (hread : readExact payload.length s₁ = (.ok data, s')) :
    data = payload
      ∧ s.items = (UInt8.ofNat garbage.length ^^^ 0xA) :: (garbage ++ payload) ++ s'.items := by
  rw [List.cons_append, List.append_assoc] at h
  obtain ⟨hitems, more, hmore⟩ := readGarbageHeader_of_prefix hlength h hheader
  obtain ⟨hitems₁, hsize⟩ := items_of_readExact hread
  rw [hitems₁, List.append_assoc] at hmore
  obtain ⟨rfl, -⟩ := List.append_inj hmore hsize
  refine ⟨rfl, ?_⟩
  rw [hitems, hitems₁]
  simp only [List.cons_append, List.append_assoc]

/-- The key of a client that is arriving. -/
theorem readClientHandshake_of_prefix {publicKey : Vector UInt8 32} (g : Garbage)
    (h : s.items <+: sendClientHandshake g.bytes publicKey ++ rest)
    (hread : readClientHandshake s = (.ok data, s')) :
    data = publicKey.toList ∧ s.items = sendClientHandshake g.bytes publicKey ++ s'.items := by
  obtain ⟨garbage, hlength, heq⟩ := exists_clientGarbage publicKey ⟨g.lower, g.upper⟩
  rw [heq] at h ⊢
  unfold readClientHandshake at hread
  split at hread
  · cases hread
  · rename_i s₁ hheader
    refine readHandshake_of_prefix hlength h hheader ?_
    rw [publicKey.length_toList]
    exact hread

/-- The key and the nonce of a server that are arriving. -/
theorem readServerHandshake_of_prefix {publicKey : Vector UInt8 32} {nonce : Vector UInt8 12}
    (g : Garbage) (h : s.items <+: sendServerHandshake g.bytes publicKey nonce ++ rest)
    (hread : readServerHandshake s = (.ok data, s')) :
    data = publicKey.toList ++ nonce.toList
      ∧ s.items = sendServerHandshake g.bytes publicKey nonce ++ s'.items := by
  obtain ⟨garbage, hlength, heq⟩ := exists_serverGarbage publicKey nonce ⟨g.lower, g.upper⟩
  rw [heq] at h ⊢
  unfold readServerHandshake at hread
  split at hread
  · cases hread
  · rename_i s₁ hheader
    refine readHandshake_of_prefix hlength h hheader ?_
    rw [List.length_append, publicKey.length_toList, nonce.length_toList]
    exact hread

/-- A handshake that has been read was there. -/
theorem ne_nil_of_readGarbageHeader (h : readGarbageHeader s = (.ok (), s')) : s.items ≠ [] := by
  obtain ⟨size, garbage, hitems, -⟩ := items_of_readGarbageHeader h
  rw [hitems]
  exact List.cons_ne_nil _ _

theorem ne_nil_of_readClientHandshake (h : readClientHandshake s = (.ok data, s')) : s.items ≠ [] := by
  unfold readClientHandshake at h
  split at h
  · cases h
  · rename_i hheader
    exact ne_nil_of_readGarbageHeader hheader

theorem ne_nil_of_readServerHandshake (h : readServerHandshake s = (.ok data, s')) : s.items ≠ [] := by
  unfold readServerHandshake at h
  split at h
  · cases h
  · rename_i hheader
    exact ne_nil_of_readGarbageHeader hheader

theorem items_of_fill {acc : List UInt8} (h : fill n acc s = (data, s')) :
    acc ++ s.items = data ++ s'.items := by
  induction hm : n - acc.length using Nat.strong_induction_on generalizing acc s with
  | h m ih =>
    have happend := Chunked.read_append (n - acc.length) s
    unfold fill at h
    dsimp only at h
    split at h
    · cases h
      rw [← happend, List.append_assoc]
    · rename_i hstop
      rw [not_or] at hstop
      have hle := Chunked.length_read_le (n - acc.length) s
      have hpos := List.length_pos_of_ne_nil hstop.2
      rw [← ih _ (by rw [List.length_append]; omega) h rfl, List.append_assoc, happend]

theorem items_of_readMessage (h : readMessage s = (.ok frame, s')) :
    ∃ size, s.items = size ++ (frame ++ s'.items) ∧ size.length = 2
      ∧ frame.length = (UInt16.ofNat (Cbor.ofBigEndian size) ^^^ 0xAAAA).toNat ∧ frame ≠ [] := by
  unfold readMessage at h
  cases hsize : readExact 2 s with
  | mk size s₁ =>
    rw [hsize] at h
    cases size with
    | error e => cases h
    | ok size =>
      dsimp only at h
      obtain ⟨hitems, hlength⟩ := items_of_readExact hsize
      split at h
      · cases h
      · rename_i hzero
        cases hfill : fill (UInt16.ofNat (Cbor.ofBigEndian size) ^^^ 0xAAAA).toNat [] s₁ with
        | mk data s₂ =>
          rw [hfill] at h
          dsimp only at h
          split at h
          · rename_i hdata
            cases h
            have hfilled := items_of_fill hfill
            rw [List.nil_append] at hfilled
            refine ⟨size, by rw [hitems, hfilled], hlength, hdata, ?_⟩
            rintro rfl
            exact hzero hdata.symm
          · cases h

theorem length_sendMessage (data : List UInt8) : (sendMessage data).length = 2 + data.length := by
  unfold sendMessage
  rw [List.length_append, Cbor.length_bigEndian]

/-- **A frame that is arriving** is read as far as its two bytes of length tell. -/
theorem readMessage_of_prefix (h : s.items <+: sendMessage c ++ rest)
    (hread : readMessage s = (.ok frame, s')) :
    frame = c.take (c.length % 2 ^ 16) ∧ frame.length = c.length % 2 ^ 16
      ∧ s.items.length = 2 + frame.length + s'.items.length := by
  obtain ⟨size, hitems, hlength, hframe, -⟩ := items_of_readMessage hread
  obtain ⟨more, hmore⟩ := h
  unfold sendMessage at hmore
  dsimp only at hmore
  rw [hitems, List.append_assoc, List.append_assoc, List.append_assoc] at hmore
  obtain ⟨hsize, hrest⟩ := List.append_inj hmore (by rw [hlength, Cbor.length_bigEndian])
  have hback : frame.length = c.length % 2 ^ 16 := by
    rw [hframe, hsize, Cbor.ofBigEndian_bigEndian (UInt16.toNat_lt _), UInt16.ofNat_toNat,
      UInt16.xor_assoc, UInt16.xor_self, UInt16.xor_zero, UInt16.toNat_ofNat']
  refine ⟨?_, hback, ?_⟩
  · rw [← List.take_append_of_le_length (Nat.mod_le _ _), ← hrest, ← hback, List.take_left]
  · rw [hitems, List.length_append, List.length_append, hlength]
    omega

end P2p.Transport

/-! ## Ends -/

namespace P2p

/-- How far an end of a connection is. -/
inductive Stage where
  /-- It has opened the connection and has written nothing. -/
  | connecting
  /-- It has accepted the connection and has read nothing. -/
  | connected
  /-- It has written its key and waits for the answer. -/
  | waiting
  /-- It has read a key, and has not answered yet. -/
  | answering (chacha : Chacha)
  | talking (chacha : Chacha)

/-- An end of a connection, with a record of what it has written and read. -/
structure End where
  /-- `none` when the connection is gone. -/
  stage : Option Stage
  /-- All bytes that it has written. -/
  sent : List UInt8
  /-- The messages that it has written, before they were encrypted. -/
  said : List (List UInt8)
  /-- The messages that it has read, after they were decrypted. -/
  heard : List (List UInt8)
  /-- How many bytes it has read. -/
  taken : ℕ

namespace End

/-- What an end has read of a stream that is left as the other one. -/
def take (e : End) (s s' : Chunked UInt8) : End :=
  { e with taken := e.taken + (s.items.length - s'.items.length) }

/-- **What an end does**, and the stream from which it reads. -/
inductive Step (C : Config) (e : End) : Option (Chunked UInt8) → End → Prop
  | hello (g : Garbage) (h : e.stage = some .connecting) :
      Step C e none { e with
        stage := some .waiting
        sent := e.sent ++ Transport.sendClientHandshake g.bytes C.publicKey }
  | learn {s s' : Chunked UInt8} {key : List UInt8} (nonce : Vector UInt8 12)
      (h : e.stage = some .connected) (hread : Transport.readClientHandshake s = (.ok key, s')) :
      Step C e (some s) { e.take s s' with
        stage := some (.answering (C.chacha (Network.toKey key) nonce)) }
  | answer {chacha : Chacha} (g : Garbage) (h : e.stage = some (.answering chacha)) :
      Step C e none { e with
        stage := some (.talking chacha)
        sent := e.sent ++ Transport.sendServerHandshake g.bytes C.publicKey chacha.nonce }
  | agree {s s' : Chunked UInt8} {data : List UInt8} (h : e.stage = some .waiting)
      (hread : Transport.readServerHandshake s = (.ok data, s')) :
      Step C e (some s) { e.take s s' with
        stage := some (.talking (C.chacha (Network.toKey (data.take 32))
          (Network.toNonce (data.drop 32)))) }
  | say {chacha : Chacha} {data encrypted : List UInt8} (h : e.stage = some (.talking chacha))
      (hencrypt : chacha.cipher.encrypt data = some encrypted) :
      Step C e none { e with
        sent := e.sent ++ sendMessage encrypted
        said := e.said ++ [data] }
  | hear {chacha : Chacha} {s s' : Chunked UInt8} {frame data : List UInt8}
      (h : e.stage = some (.talking chacha)) (hread : Transport.readMessage s = (.ok frame, s'))
      (hdecrypt : chacha.cipher.decrypt frame = some data) :
      Step C e (some s) { e.take s s' with heard := e.heard ++ [data] }
  | close : Step C e none { e with stage := none }

/-- What was said stays said. -/
theorem Step.said_prefix {C : Config} {e e' : End} {s : Option (Chunked UInt8)} (h : e.Step C s e') :
    e.said <+: e'.said := by
  cases h with
  | say hstage hencrypt => exact List.prefix_append _ _
  | _ => exact List.prefix_refl _

/-- Every message that was said, with the tag of its encryption, fits the two bytes that tell its
length. -/
def Fits (e : End) : Prop := ∀ data ∈ e.said, data.length + 16 < 2 ^ 16

theorem Step.fits {C : Config} {e e' : End} {s : Option (Chunked UInt8)} (h : e.Step C s e')
    (hfits : e'.Fits) : e.Fits := fun data hdata => hfits data (h.said_prefix.subset hdata)

/-- An end that has just opened a connection. -/
def opened : End := ⟨some .connecting, [], [], [], 0⟩

/-- An end that has just accepted one. -/
def accepted : End := ⟨some .connected, [], [], [], 0⟩

end End

/-! ## The connection -/

/-- A connection, from its client to its server. -/
structure Connection where
  client : End
  server : End

/-- Which end takes a step, and the stream from which it reads. -/
inductive Turn where
  | client (s : Option (Chunked UInt8))
  | server (s : Option (Chunked UInt8))

namespace Connection

/-- The steps of a connection between a client that is configured as `A` and a server as `B`. -/
def Step (A B : Config) (w : Connection) (turn : Turn) (w' : Connection) : Prop :=
  match turn with
  | .client s => w.client.Step A s w'.client ∧ w'.server = w.server
  | .server s => w.server.Step B s w'.server ∧ w'.client = w.client

/-- **The contract of the connection**: a read finds a part of what the other end has written and
this end has not read. -/
def Delivers (w : Connection) (turn : Turn) : Prop :=
  match turn with
  | .client s => ∀ stream ∈ s, stream.items <+: w.server.sent.drop w.client.taken
  | .server s => ∀ stream ∈ s, stream.items <+: w.client.sent.drop w.server.taken

/-! ### One direction -/

/-- These are the encrypted messages. -/
def Encrypted (cipher : Cipher) (said frames : List (List UInt8)) : Prop :=
  List.Forall₂ (fun data c => cipher.encrypt data = some c) said frames

/-- **One direction of a connection**: from the end `x`, whose handshake is `hello`, to the end `y`.
Nothing has been written, or nothing has been read, or the handshake has been read and, after it,
the first messages. -/
inductive Line (hello : List UInt8) (cipher : Cipher) (x y : End) : Prop
  | silent (hsent : x.sent = []) (hsaid : x.said = []) (hheard : y.heard = []) (htaken : y.taken = 0)
  | fresh (frames : List (List UInt8)) (hsent : x.sent = hello ++ frames.flatMap sendMessage)
      (hsaid : Encrypted cipher x.said frames) (hheard : y.heard = []) (htaken : y.taken = 0)
  | underway (read unread left : List (List UInt8))
      (hsent : x.sent = hello ++ read.flatMap sendMessage ++ unread.flatMap sendMessage)
      (hsaid : x.said = y.heard ++ left) (hread : Encrypted cipher y.heard read)
      (hunread : Encrypted cipher left unread)
      (htaken : y.taken = (hello ++ read.flatMap sendMessage).length)

namespace Line

variable {hello : List UInt8} {cipher : Cipher} {x y x' y' : End}

/-- What was heard is the first of what was said. -/
theorem heard_prefix (h : Line hello cipher x y) : y.heard <+: x.said := by
  cases h with
  | silent hsent hsaid hheard htaken =>
    rw [hheard]
    exact List.nil_prefix
  | fresh frames hsent hsaid hheard htaken =>
    rw [hheard]
    exact List.nil_prefix
  | underway read unread left hsent hsaid hread hunread htaken =>
    rw [hsaid]
    exact List.prefix_append _ _

/-- Only what was written and what was read matters. -/
theorem congr (h : Line hello cipher x y) (hsent : x'.sent = x.sent) (hsaid : x'.said = x.said)
    (hheard : y'.heard = y.heard) (htaken : y'.taken = y.taken) : Line hello cipher x' y' := by
  cases h with
  | silent h₁ h₂ h₃ h₄ =>
    exact .silent (hsent.trans h₁) (hsaid.trans h₂) (hheard.trans h₃) (htaken.trans h₄)
  | fresh frames h₁ h₂ h₃ h₄ =>
    exact .fresh frames (hsent.trans h₁) (hsaid ▸ h₂) (hheard.trans h₃) (htaken.trans h₄)
  | underway read unread left h₁ h₂ h₃ h₄ h₅ =>
    refine .underway read unread left (hsent.trans h₁) ?_ ?_ h₄ (htaken.trans h₅)
    · rw [hsaid, hheard, h₂]
    · rw [hheard]
      exact h₃

/-- A direction in which nothing has been written is one with any handshake and any cipher. -/
theorem silent_of_nil {hello' : List UInt8} {cipher' : Cipher} (h : Line hello cipher x y)
    (hhello : hello ≠ []) (hsent : x.sent = []) : Line hello' cipher' x y := by
  cases h with
  | silent h₁ h₂ h₃ h₄ => exact .silent h₁ h₂ h₃ h₄
  | fresh frames h₁ h₂ h₃ h₄ =>
    rw [h₁, List.append_eq_nil_iff] at hsent
    exact absurd hsent.1 hhello
  | underway read unread left h₁ h₂ h₃ h₄ h₅ =>
    rw [h₁, List.append_eq_nil_iff, List.append_eq_nil_iff] at hsent
    exact absurd hsent.1.1 hhello

/-- The handshake is written. -/
theorem greet (h : Line hello cipher x y) (hhello : hello ≠ []) (hsent : x.sent = [])
    (hsent' : x'.sent = x.sent ++ hello) (hsaid' : x'.said = x.said) : Line hello cipher x' y := by
  cases h with
  | silent h₁ h₂ h₃ h₄ =>
    refine .fresh [] ?_ ?_ h₃ h₄
    · rw [hsent', h₁, List.flatMap_nil, List.append_nil, List.nil_append]
    · rw [hsaid', h₂]
      exact .nil
  | fresh frames h₁ h₂ h₃ h₄ =>
    rw [h₁, List.append_eq_nil_iff] at hsent
    exact absurd hsent.1 hhello
  | underway read unread left h₁ h₂ h₃ h₄ h₅ =>
    rw [h₁, List.append_eq_nil_iff, List.append_eq_nil_iff] at hsent
    exact absurd hsent.1.1 hhello

/-- A message is written after the handshake. -/
theorem say {data encrypted : List UInt8} (h : Line hello cipher x y) (hsent : x.sent ≠ [])
    (hencrypt : cipher.encrypt data = some encrypted)
    (hsent' : x'.sent = x.sent ++ sendMessage encrypted) (hsaid' : x'.said = x.said ++ [data]) :
    Line hello cipher x' y := by
  cases h with
  | silent h₁ h₂ h₃ h₄ => exact absurd h₁ hsent
  | fresh frames h₁ h₂ h₃ h₄ =>
    refine .fresh (frames ++ [encrypted]) ?_ ?_ h₃ h₄
    · rw [hsent', h₁, List.flatMap_append, List.flatMap_singleton, List.append_assoc]
    · rw [hsaid']
      exact List.rel_append h₂ (.cons hencrypt .nil)
  | underway read unread left h₁ h₂ h₃ h₄ h₅ =>
    refine .underway read (unread ++ [encrypted]) (left ++ [data]) ?_ ?_ h₃ ?_ h₅
    · rw [hsent', h₁, List.flatMap_append, List.flatMap_singleton, List.append_assoc,
        List.append_assoc]
    · rw [hsaid', h₂, List.append_assoc]
    · exact List.rel_append h₄ (.cons hencrypt .nil)

/-- The handshake is read. -/
theorem first {s s' : Chunked UInt8} (h : Line hello cipher x y) (htaken : y.taken = 0)
    (hsent : x.sent ≠ []) (hhello : hello ≠ []) (hitems : s.items = hello ++ s'.items)
    (hheard' : y'.heard = y.heard)
    (htaken' : y'.taken = y.taken + (s.items.length - s'.items.length)) :
    Line hello cipher x y' := by
  cases h with
  | silent h₁ h₂ h₃ h₄ => exact absurd h₁ hsent
  | fresh frames h₁ h₂ h₃ h₄ =>
    rw [h₃] at hheard'
    refine .underway [] frames x.said ?_ ?_ ?_ h₂ ?_
    · rw [h₁, List.flatMap_nil, List.append_nil]
    · rw [hheard', List.nil_append]
    · rw [hheard']
      exact .nil
    · rw [htaken', htaken, hitems, List.length_append, List.flatMap_nil, List.append_nil]
      omega
  | underway read unread left h₁ h₂ h₃ h₄ h₅ =>
    rw [h₅, List.length_eq_zero_iff, List.append_eq_nil_iff] at htaken
    exact absurd htaken.1 hhello

/-- **The next message is read**, whole if it fits. -/
theorem hear {s s' : Chunked UInt8} {frame data : List UInt8} (h : Line hello cipher x y)
    (hfits : x.Fits) (htaken : 0 < y.taken) (hitems : s.items <+: x.sent.drop y.taken)
    (hread : Transport.readMessage s = (.ok frame, s')) (hdecrypt : cipher.decrypt frame = some data)
    (hheard' : y'.heard = y.heard ++ [data])
    (htaken' : y'.taken = y.taken + (s.items.length - s'.items.length)) :
    Line hello cipher x y' := by
  cases h with
  | silent h₁ h₂ h₃ h₄ => omega
  | fresh frames h₁ h₂ h₃ h₄ => omega
  | underway read unread left h₁ h₂ h₃ h₄ h₅ =>
    rw [h₁, h₅, List.drop_left] at hitems
    cases h₄ with
    | nil =>
      -- nothing is there to be read
      obtain ⟨size, hsplit, hlength, -⟩ := Transport.items_of_readMessage hread
      rw [List.flatMap_nil, List.prefix_nil, hsplit, List.append_eq_nil_iff] at hitems
      rw [hitems.1] at hlength
      cases hlength
    | cons hencrypt hrest =>
      rename_i next c left unread
      rw [List.flatMap_cons] at hitems
      obtain ⟨hframe, hlength, hcount⟩ := Transport.readMessage_of_prefix hitems hread
      have hwhole : c.length < 2 ^ 16 := by
        rw [cipher.length_encrypt next c hencrypt]
        refine hfits next ?_
        rw [h₂]
        exact List.mem_append_right _ List.mem_cons_self
      rw [Nat.mod_eq_of_lt hwhole] at hframe hlength
      rw [List.take_length] at hframe
      rw [hframe, cipher.decrypt_encrypt next c hencrypt, Option.some.injEq] at hdecrypt
      subst hframe hdecrypt
      refine .underway (read ++ [frame]) unread left ?_ ?_ ?_ hrest ?_
      · rw [h₁, List.flatMap_cons, List.flatMap_append, List.flatMap_singleton]
        simp only [List.append_assoc]
      · rw [hheard', h₂, List.append_assoc, List.singleton_append]
      · rw [hheard']
        exact List.rel_append h₃ (.cons hencrypt .nil)
      · rw [htaken', h₅, hcount, List.flatMap_append, List.flatMap_singleton]
        simp only [List.length_append, Transport.length_sendMessage]
        omega

/-- Something was read, so something was written. -/
theorem sent_ne_nil (h : Line hello cipher x y) (hhello : hello ≠ []) (htaken : 0 < y.taken) :
    x.sent ≠ [] := by
  intro hsent
  cases h with
  | silent h₁ h₂ h₃ h₄ => omega
  | fresh frames h₁ h₂ h₃ h₄ => omega
  | underway read unread left h₁ h₂ h₃ h₄ h₅ =>
    rw [h₁, List.append_eq_nil_iff, List.append_eq_nil_iff] at hsent
    exact hhello hsent.1.1

/-- As long as nothing has been read, what was written starts with the handshake. -/
theorem hello_prefix (h : Line hello cipher x y) (hsent : x.sent ≠ []) : hello <+: x.sent := by
  cases h with
  | silent h₁ h₂ h₃ h₄ => exact absurd h₁ hsent
  | fresh frames h₁ h₂ h₃ h₄ =>
    rw [h₁]
    exact List.prefix_append _ _
  | underway read unread left h₁ h₂ h₃ h₄ h₅ =>
    rw [h₁, List.append_assoc]
    exact List.prefix_append _ _

/-- Before the first message any cipher will do. -/
theorem recipher {cipher' : Cipher} (h : Line hello cipher x y) (hsaid : x.said = [])
    (htaken : y.taken = 0) (hhello : hello ≠ []) : Line hello cipher' x y := by
  cases h with
  | silent h₁ h₂ h₃ h₄ => exact .silent h₁ h₂ h₃ h₄
  | fresh frames h₁ h₂ h₃ h₄ =>
    rw [hsaid] at h₂
    cases h₂
    exact .fresh [] h₁ (hsaid ▸ .nil) h₃ h₄
  | underway read unread left h₁ h₂ h₃ h₄ h₅ =>
    rw [h₅, List.length_eq_zero_iff, List.append_eq_nil_iff] at htaken
    exact absurd htaken.1 hhello

end Line

/-! ### Both directions -/

theorem toKey_toList (key : Vector UInt8 32) : Network.toKey key.toList = key := by
  apply Vector.ext
  intro i hi
  rw [Network.toKey, Vector.getElem_ofFn, List.getD_eq_getElem?_getD,
    List.getElem?_eq_getElem (by rw [Vector.length_toList]; exact hi), Option.getD_some,
    Vector.getElem_toList]

theorem toNonce_toList (nonce : Vector UInt8 12) : Network.toNonce nonce.toList = nonce := by
  apply Vector.ext
  intro i hi
  rw [Network.toNonce, Vector.getElem_ofFn, List.getD_eq_getElem?_getD,
    List.getElem?_eq_getElem (by rw [Vector.length_toList]; exact hi), Option.getD_some,
    Vector.getElem_toList]

variable {A B : Config}

/-- The handshake of a client. -/
def clientHello (A : Config) (g : Garbage) : List UInt8 :=
  Transport.sendClientHandshake g.bytes A.publicKey

/-- The handshake of a server. -/
def serverHello (B : Config) (g : Garbage) (nonce : Vector UInt8 12) : List UInt8 :=
  Transport.sendServerHandshake g.bytes B.publicKey nonce

theorem clientHello_ne_nil (A : Config) (g : Garbage) : clientHello A g ≠ [] := by
  obtain ⟨garbage, -, heq⟩ := Transport.exists_clientGarbage A.publicKey ⟨g.lower, g.upper⟩
  rw [clientHello, heq]
  exact List.cons_ne_nil _ _

theorem serverHello_ne_nil (B : Config) (g : Garbage) (nonce : Vector UInt8 12) :
    serverHello B g nonce ≠ [] := by
  obtain ⟨garbage, -, heq⟩ := Transport.exists_serverGarbage B.publicKey nonce ⟨g.lower, g.upper⟩
  rw [serverHello, heq]
  exact List.cons_ne_nil _ _

/-- How far the client is, and its cipher. -/
def ClientAt (A B : Config) (nonce : Vector UInt8 12) (e : End) : Prop :=
  match e.stage with
  | some .connecting => e.sent = [] ∧ e.taken = 0
  | some .waiting => e.sent ≠ [] ∧ e.taken = 0
  | some (.talking chacha) => e.sent ≠ [] ∧ 0 < e.taken ∧ chacha = A.chacha B.publicKey nonce
  | some .connected => False
  | some (.answering _) => False
  | none => True

/-- How far the server is, and its cipher. -/
def ServerAt (A B : Config) (nonce : Vector UInt8 12) (e : End) : Prop :=
  match e.stage with
  | some .connected => e.sent = [] ∧ e.taken = 0
  | some (.answering chacha) => e.sent = [] ∧ 0 < e.taken ∧ chacha = B.chacha A.publicKey nonce
  | some (.talking chacha) => e.sent ≠ [] ∧ 0 < e.taken ∧ chacha = B.chacha A.publicKey nonce
  | some .connecting => False
  | some .waiting => False
  | none => True

/-- **The invariant of a connection**, with the random bytes of the handshakes and the nonce that the
server has chosen.  The client says nothing before the server has answered. -/
structure Joined (A B : Config) (g g' : Garbage) (nonce : Vector UInt8 12) (w : Connection) :
    Prop where
  up : Line (clientHello A g) (B.chacha A.publicKey nonce).cipher w.client w.server
  down : Line (serverHello B g' nonce) (B.chacha A.publicKey nonce).cipher w.server w.client
  client : ClientAt A B nonce w.client
  server : ServerAt A B nonce w.server
  early : w.server.sent = [] → w.client.said = []

/-- **The contract of the key exchange**: under every nonce both ends compute the same cipher. -/
def SharesKey (A B : Config) : Prop :=
  ∀ nonce, (A.chacha B.publicKey nonce).cipher = (B.chacha A.publicKey nonce).cipher

variable {g g' : Garbage} {nonce : Vector UInt8 12} {w : Connection} {s : Option (Chunked UInt8)}
  {e : End}

namespace Joined

/-! A step of the client, by what it does. -/

theorem client_greets (h : Joined A B g g' nonce w) (hstage : w.client.stage = some .connecting)
    (g₁ : Garbage) : Joined A B g₁ g' nonce
      ⟨{ w.client with stage := some .waiting, sent := w.client.sent ++ clientHello A g₁ }, w.server⟩ := by
  have hclient := h.client
  unfold ClientAt at hclient
  rw [hstage] at hclient
  have hhello := clientHello_ne_nil A g₁
  have hsilent : Line (clientHello A g₁) (B.chacha A.publicKey nonce).cipher w.client w.server :=
    h.up.silent_of_nil (clientHello_ne_nil A g) hclient.1
  exact ⟨hsilent.greet hhello hclient.1 rfl rfl, h.down.congr rfl rfl rfl rfl,
    ⟨List.append_ne_nil_of_right_ne_nil _ hhello, hclient.2⟩, h.server, h.early⟩

/-- The client reads the key and the nonce of the server. -/
theorem client_agrees {s s' : Chunked UInt8} {data : List UInt8} (h : Joined A B g g' nonce w)
    (hstage : w.client.stage = some .waiting) (harrives : s.items <+: w.server.sent.drop w.client.taken)
    (hread : Transport.readServerHandshake s = (.ok data, s')) : Joined A B g g' nonce
      ⟨{ w.client.take s s' with stage := some (.talking (A.chacha (Network.toKey (data.take 32))
        (Network.toNonce (data.drop 32)))) }, w.server⟩ := by
  have hclient := h.client
  unfold ClientAt at hclient
  rw [hstage] at hclient
  have hdown := serverHello_ne_nil B g' nonce
  rw [hclient.2, List.drop_zero] at harrives
  have hsent : w.server.sent ≠ [] := by
    intro hnil
    rw [hnil, List.prefix_nil] at harrives
    exact Transport.ne_nil_of_readServerHandshake hread harrives
  obtain ⟨rest, hrest⟩ := h.down.hello_prefix hsent
  rw [← hrest] at harrives
  obtain ⟨rfl, hitems⟩ := Transport.readServerHandshake_of_prefix g' harrives hread
  have hlength := congrArg List.length hitems
  rw [List.length_append] at hlength
  have hpos := List.length_pos_of_ne_nil hdown
  refine ⟨h.up.congr rfl rfl rfl rfl, h.down.first hclient.2 hsent hdown hitems rfl rfl,
    ⟨hclient.1, ?_, ?_⟩, h.server, h.early⟩
  · show 0 < w.client.taken + (s.items.length - s'.items.length)
    unfold serverHello at hpos
    omega
  · have hkey : B.publicKey.toList.length = 32 := B.publicKey.length_toList
    rw [List.take_left' hkey, List.drop_left' hkey, toKey_toList, toNonce_toList]

theorem client_says {chacha : Chacha} {data encrypted : List UInt8} (hshares : SharesKey A B)
    (h : Joined A B g g' nonce w) (hstage : w.client.stage = some (.talking chacha))
    (hencrypt : chacha.cipher.encrypt data = some encrypted) : Joined A B g g' nonce
      ⟨{ w.client with
        sent := w.client.sent ++ sendMessage encrypted
        said := w.client.said ++ [data] }, w.server⟩ := by
  have hclient := h.client
  unfold ClientAt at hclient
  rw [hstage] at hclient
  obtain ⟨hsent, htaken, rfl⟩ := hclient
  rw [hshares] at hencrypt
  refine ⟨h.up.say hsent hencrypt rfl rfl, h.down.congr rfl rfl rfl rfl, ?_, h.server, fun hnil => ?_⟩
  · unfold ClientAt
    dsimp only
    rw [hstage]
    exact ⟨List.append_ne_nil_of_left_ne_nil hsent _, htaken, rfl⟩
  · exact absurd hnil (h.down.sent_ne_nil (serverHello_ne_nil B g' nonce) htaken)

theorem client_hears {chacha : Chacha} {s s' : Chunked UInt8} {frame data : List UInt8}
    (hshares : SharesKey A B) (h : Joined A B g g' nonce w) (hfits : w.server.Fits)
    (hstage : w.client.stage = some (.talking chacha))
    (harrives : s.items <+: w.server.sent.drop w.client.taken)
    (hread : Transport.readMessage s = (.ok frame, s'))
    (hdecrypt : chacha.cipher.decrypt frame = some data) : Joined A B g g' nonce
      ⟨{ w.client.take s s' with heard := w.client.heard ++ [data] }, w.server⟩ := by
  have hclient := h.client
  unfold ClientAt at hclient
  rw [hstage] at hclient
  obtain ⟨hsent, htaken, rfl⟩ := hclient
  rw [hshares] at hdecrypt
  refine ⟨h.up.congr rfl rfl rfl rfl, h.down.hear hfits htaken harrives hread hdecrypt rfl rfl, ?_,
    h.server, h.early⟩
  unfold ClientAt
  dsimp only [End.take]
  rw [hstage]
  exact ⟨hsent, Nat.lt_add_right _ htaken, rfl⟩

/-- **A step of the client.** -/
theorem client_step (hshares : SharesKey A B) (h : Joined A B g g' nonce w) (hfits : w.server.Fits)
    (hdelivers : w.Delivers (.client s)) (hstep : w.client.Step A s e) :
    ∃ g, Joined A B g g' nonce ⟨e, w.server⟩ := by
  cases hstep with
  | hello g₁ hstage => exact ⟨g₁, h.client_greets hstage g₁⟩
  | agree hstage hread => exact ⟨g, h.client_agrees hstage (hdelivers _ rfl) hread⟩
  | say hstage hencrypt => exact ⟨g, h.client_says hshares hstage hencrypt⟩
  | hear hstage hread hdecrypt =>
    exact ⟨g, h.client_hears hshares hfits hstage (hdelivers _ rfl) hread hdecrypt⟩
  | close =>
    exact ⟨g, h.up.congr rfl rfl rfl rfl, h.down.congr rfl rfl rfl rfl, trivial, h.server, h.early⟩
  | learn _ hstage _ | answer _ hstage =>
    have hclient := h.client
    unfold ClientAt at hclient
    rw [hstage] at hclient
    exact hclient.elim

/-! A step of the server. -/

/-- Before the server has read the key any nonce will do. -/
theorem client_renonced (h : Joined A B g g' nonce w) (hsilent : w.server.sent = [])
    (nonce₁ : Vector UInt8 12) : ClientAt A B nonce₁ w.client := by
  have hclient := h.client
  unfold ClientAt at hclient ⊢
  split at hclient
  · exact hclient
  · exact hclient
  · -- the server has not answered
    exact absurd hsilent (h.down.sent_ne_nil (serverHello_ne_nil B g' nonce) hclient.2.1)
  · exact hclient
  · exact hclient
  · trivial

/-- When the server reads the key it chooses the nonce; nothing has been said before. -/
theorem server_learns {s s' : Chunked UInt8} {key : List UInt8} (h : Joined A B g g' nonce w)
    (nonce₁ : Vector UInt8 12) (hstage : w.server.stage = some .connected)
    (harrives : s.items <+: w.client.sent.drop w.server.taken)
    (hread : Transport.readClientHandshake s = (.ok key, s')) : Joined A B g g' nonce₁
      ⟨w.client, { w.server.take s s' with
        stage := some (.answering (B.chacha (Network.toKey key) nonce₁)) }⟩ := by
  have hserver := h.server
  unfold ServerAt at hserver
  rw [hstage] at hserver
  have hup := clientHello_ne_nil A g
  rw [hserver.2, List.drop_zero] at harrives
  have hsent : w.client.sent ≠ [] := by
    intro hnil
    rw [hnil, List.prefix_nil] at harrives
    exact Transport.ne_nil_of_readClientHandshake hread harrives
  obtain ⟨rest, hrest⟩ := h.up.hello_prefix hsent
  rw [← hrest] at harrives
  obtain ⟨rfl, hitems⟩ := Transport.readClientHandshake_of_prefix g harrives hread
  have hlength := congrArg List.length hitems
  rw [List.length_append] at hlength
  have hpos := List.length_pos_of_ne_nil hup
  have hfresh : Line (clientHello A g) (B.chacha A.publicKey nonce₁).cipher w.client w.server :=
    h.up.recipher (h.early hserver.1) hserver.2 hup
  refine ⟨hfresh.first hserver.2 hsent hup hitems rfl rfl,
    (h.down.silent_of_nil (serverHello_ne_nil B g' nonce) hserver.1).congr rfl rfl rfl rfl,
    h.client_renonced hserver.1 nonce₁, ⟨hserver.1, ?_, ?_⟩, h.early⟩
  · show 0 < w.server.taken + (s.items.length - s'.items.length)
    unfold clientHello at hpos
    omega
  · rw [toKey_toList]

theorem server_answers {chacha : Chacha} (h : Joined A B g g' nonce w)
    (hstage : w.server.stage = some (.answering chacha)) (g₁ : Garbage) : Joined A B g g₁ nonce
      ⟨w.client, { w.server with
        stage := some (.talking chacha)
        sent := w.server.sent ++ serverHello B g₁ chacha.nonce }⟩ := by
  have hserver := h.server
  unfold ServerAt at hserver
  rw [hstage] at hserver
  obtain ⟨hsent, htaken, rfl⟩ := hserver
  have hsilent : Line (serverHello B g₁ nonce) (B.chacha A.publicKey nonce).cipher w.server w.client :=
    h.down.silent_of_nil (serverHello_ne_nil B g' nonce) hsent
  have hhello := serverHello_ne_nil B g₁ nonce
  have hwrites : w.server.sent ++ serverHello B g₁ nonce ≠ [] :=
    List.append_ne_nil_of_right_ne_nil _ hhello
  rw [B.nonce_chacha]
  exact ⟨h.up.congr rfl rfl rfl rfl, hsilent.greet hhello hsent rfl rfl, h.client,
    ⟨hwrites, htaken, rfl⟩, fun hnil => absurd hnil hwrites⟩

theorem server_says {chacha : Chacha} {data encrypted : List UInt8} (h : Joined A B g g' nonce w)
    (hstage : w.server.stage = some (.talking chacha))
    (hencrypt : chacha.cipher.encrypt data = some encrypted) : Joined A B g g' nonce
      ⟨w.client, { w.server with
        sent := w.server.sent ++ sendMessage encrypted
        said := w.server.said ++ [data] }⟩ := by
  have hserver := h.server
  unfold ServerAt at hserver
  rw [hstage] at hserver
  obtain ⟨hsent, htaken, rfl⟩ := hserver
  refine ⟨h.up.congr rfl rfl rfl rfl, h.down.say hsent hencrypt rfl rfl, h.client, ?_, fun hnil => ?_⟩
  · unfold ServerAt
    dsimp only
    rw [hstage]
    exact ⟨List.append_ne_nil_of_left_ne_nil hsent _, htaken, rfl⟩
  · exact absurd (List.append_eq_nil_iff.mp hnil).1 hsent

theorem server_hears {chacha : Chacha} {s s' : Chunked UInt8} {frame data : List UInt8}
    (h : Joined A B g g' nonce w) (hfits : w.client.Fits)
    (hstage : w.server.stage = some (.talking chacha))
    (harrives : s.items <+: w.client.sent.drop w.server.taken)
    (hread : Transport.readMessage s = (.ok frame, s'))
    (hdecrypt : chacha.cipher.decrypt frame = some data) : Joined A B g g' nonce
      ⟨w.client, { w.server.take s s' with heard := w.server.heard ++ [data] }⟩ := by
  have hserver := h.server
  unfold ServerAt at hserver
  rw [hstage] at hserver
  obtain ⟨hsent, htaken, rfl⟩ := hserver
  refine ⟨h.up.hear hfits htaken harrives hread hdecrypt rfl rfl, h.down.congr rfl rfl rfl rfl,
    h.client, ?_, h.early⟩
  unfold ServerAt
  dsimp only [End.take]
  rw [hstage]
  exact ⟨hsent, Nat.lt_add_right _ htaken, rfl⟩

/-- **A step of the server.** -/
theorem server_step (h : Joined A B g g' nonce w) (hfits : w.client.Fits)
    (hdelivers : w.Delivers (.server s)) (hstep : w.server.Step B s e) :
    ∃ g' nonce, Joined A B g g' nonce ⟨w.client, e⟩ := by
  cases hstep with
  | learn nonce₁ hstage hread =>
    exact ⟨g', nonce₁, h.server_learns nonce₁ hstage (hdelivers _ rfl) hread⟩
  | answer g₁ hstage => exact ⟨g₁, nonce, h.server_answers hstage g₁⟩
  | say hstage hencrypt => exact ⟨g', nonce, h.server_says hstage hencrypt⟩
  | hear hstage hread hdecrypt =>
    exact ⟨g', nonce, h.server_hears hfits hstage (hdelivers _ rfl) hread hdecrypt⟩
  | close =>
    exact ⟨g', nonce, h.up.congr rfl rfl rfl rfl, h.down.congr rfl rfl rfl rfl, h.client, trivial,
      h.early⟩
  | hello _ hstage | agree hstage _ =>
    have hserver := h.server
    unfold ServerAt at hserver
    rw [hstage] at hserver
    exact hserver.elim

end Joined

/-- A connection that has just been made. -/
def made : Connection := ⟨End.opened, End.accepted⟩

/-- What is promised of a connection: each end has heard the first messages that the other end has
said, and when both have a cipher it is the same one. -/
structure Faithful (w : Connection) : Prop where
  up : w.server.heard <+: w.client.said
  down : w.client.heard <+: w.server.said
  cipher : ∀ c c', w.client.stage = some (.talking c) → w.server.stage = some (.talking c') →
    c.cipher = c'.cipher

/-- The messages that both ends have said fit their frames. -/
def Fits (w : Connection) : Prop := w.client.Fits ∧ w.server.Fits

theorem Step.fits {w' : Connection} {turn : Turn} (h : Step A B w turn w') (hfits : w'.Fits) :
    w.Fits := by
  cases turn with
  | client s => exact ⟨h.1.fits hfits.1, h.2 ▸ hfits.2⟩
  | server s => exact ⟨h.2 ▸ hfits.1, h.1.fits hfits.2⟩

/-- By cases on the end that takes the step. -/
theorem Joined.step {w' : Connection} {turn : Turn} (hshares : SharesKey A B)
    (h : Joined A B g g' nonce w) (hfits : w.Fits) (hdelivers : w.Delivers turn)
    (hstep : Step A B w turn w') : ∃ g g' nonce, Joined A B g g' nonce w' := by
  cases turn with
  | client s =>
    obtain ⟨hclient, hserver⟩ := hstep
    obtain ⟨g₁, h₁⟩ := h.client_step hshares hfits.2 hdelivers hclient
    rw [← hserver] at h₁
    exact ⟨g₁, g', nonce, h₁⟩
  | server s =>
    obtain ⟨hserver, hclient⟩ := hstep
    obtain ⟨g₁, nonce₁, h₁⟩ := h.server_step hfits.1 hdelivers hserver
    rw [← hclient] at h₁
    exact ⟨g, g₁, nonce₁, h₁⟩

/-- **Every run of a connection is faithful** whose messages fit their frames. -/
theorem run_faithfulEnds (hshares : SharesKey A B) (run : Run (Step A B) Delivers made w)
    (hfits : w.Fits) : Faithful w := by
  have hjoined : w.Fits → ∃ g g' nonce, Joined A B g g' nonce w := by
    refine run.invariant (I := fun w => w.Fits → ∃ g g' nonce, Joined A B g g' nonce w) ?_ ?_
    · have hgarbage : Garbage := ⟨List.replicate 64 0, by decide, by decide⟩
      exact fun _ => ⟨hgarbage, hgarbage, Vector.replicate 12 0, .silent rfl rfl rfl rfl,
        .silent rfl rfl rfl rfl, ⟨rfl, rfl⟩, ⟨rfl, rfl⟩, fun _ => rfl⟩
    · intro w turn w' hw hdelivers hstep hfits'
      have hfits := Step.fits hstep hfits'
      obtain ⟨g, g', nonce, h⟩ := hw hfits
      exact h.step hshares hfits hdelivers hstep
  obtain ⟨g, g', nonce, h⟩ := hjoined hfits
  refine ⟨h.up.heard_prefix, h.down.heard_prefix, fun c c' hc hc' => ?_⟩
  have hclient := h.client
  have hserver := h.server
  unfold ClientAt at hclient
  unfold ServerAt at hserver
  rw [hc] at hclient
  rw [hc'] at hserver
  rw [hclient.2.2, hserver.2.2]
  exact hshares nonce

end Connection

end P2p
