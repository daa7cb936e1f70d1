/-
# The network loop

`Network` of `p2p/network.rs` with its peer table, ciphers and registrations: what the loop of
`start` does with an event that the poll reports, and what it does when one of its timers runs out.
The poll, the sockets, the random numbers and the clocks are inputs.  When a timer runs out is left
open, so that a run takes these steps in any order; how a map enumerates its entries is left open,
too.
-/
import Ruvname.PeerTable
import Ruvname.Transport
import Ruvname.Twins

open Exec

namespace P2p

/-! ## State -/

/-- `Chacha`: a cipher and the nonce it was made with. -/
structure Chacha where
  cipher : Cipher
  nonce : Vector UInt8 12

/-- `Interest`: what a connection is registered for. -/
structure Interest where
  readable : Bool
  writable : Bool
  deriving DecidableEq

namespace Interest

def reads : Interest := ⟨true, false⟩
def writes : Interest := ⟨false, true⟩
def both : Interest := ⟨true, true⟩

end Interest

/-- What else there is of a connection: its cipher, its registration, and the height it was told. -/
structure Link where
  chacha : Option Chacha
  interest : Interest
  sentHeight : UInt64

/-- What a node has written and what it has read: a record that nothing reads.  A handshake that is
cut off is not on record. -/
inductive Traffic where
  | handshake (token : ℕ) (bytes : List UInt8)
  /-- A handshake of so many bytes was read, and the cipher is the one of this key and nonce. -/
  | greeted (token : ℕ) (key : Vector UInt8 32) (nonce : Vector UInt8 12) (taken : ℕ)
  | wrote (token : ℕ) (chacha : Option Chacha) (data bytes : List UInt8)
  | heard (token : ℕ) (chacha : Option Chacha) (frame : List UInt8) (message : Message)

/-- `version_compatible`: the first two parts of both versions are the same text. -/
def versionCompatible (myVersion version : String) : Bool :=
  (List.intercalate ['.'] ((myVersion.toList.splitOn '.').take 2)).isPrefixOf version.toList

/-- What a node is built and started with. -/
structure Config where
  platform : Platform
  machine : Machine
  /-- `settings.origin`. -/
  origin : String
  /-- `settings.net.public`. -/
  isPublic : Bool
  /-- `settings.net.ruvchain_only`. -/
  ruvchainOnly : Bool
  appVersion : String
  publicKey : Vector UInt8 32
  /-- `diffie_hellman` of the own secret and a key, and `Chacha::new` with a nonce. -/
  chacha : Vector UInt8 32 → Vector UInt8 12 → Chacha
  nonce_chacha : ∀ key nonce, (chacha key nonce).nonce = nonce
  /-- `str::parse::<SocketAddr>` and `to_string`. -/
  parseAddr : String → Option SocketAddr
  showAddr : SocketAddr → String

/-- `SERVER`: the token of the server socket. -/
def server : ℕ := 0

/-- `Network`, its context as far as it is the node, and the instant of its last step. -/
structure Network where
  now : ℕ
  /-- The next token. -/
  token : UInt64
  /-- How many connections there have been: a record that nothing reads. -/
  opened : ℕ
  table : Peers
  links : ℕ → Link
  newPeers : List SocketAddr
  behindPingSentTime : ℤ
  node : Node
  traffic : List Traffic

/-- The buffer of a handshake with its random bytes: `rng.gen_range(64..255)` many. -/
structure Garbage where
  bytes : List UInt8
  lower : 64 ≤ bytes.length
  upper : bytes.length < 255

/-- What reading from a connection meets. -/
structure Reading where
  readClosed : Bool
  stream : Chunked UInt8
  nonce : Vector UInt8 12
  clock : ℕ → UtcTime
  coin : Bool
  /-- How a new `HashSet` of these texts enumerates them. -/
  hashSet : List String → List String
  hashSet_perm : ∀ l, (hashSet l).Perm l.dedup

/-- How many bytes a reader takes from the connection. -/
def Reading.taken {α : Type} (r : Reading) (read : Transport.Reader α) : ℕ :=
  r.stream.items.length - (read r.stream).2.items.length

/-- What writing to a connection meets. -/
structure Writing where
  garbage : Garbage
  /-- After how many bytes an error occurs, if there is one. -/
  cut : Option ℕ

/-- What is written of these bytes. -/
def Writing.written (w : Writing) (bytes : List UInt8) : List UInt8 :=
  match w.cut with
  | none => bytes
  | some k => bytes.take k

/-- What the poll reports about a connection. -/
structure Readiness where
  isError : Bool
  writeClosed : Bool
  readable : Bool
  writable : Bool
  reading : Reading
  writing : Writing

/-- What `update` meets: random numbers, the clock, and whether a socket connects. -/
structure Refreshing where
  random : UInt64
  coin : ℕ → Bool
  syncCoin : Bool
  pick : ℕ
  utc : UtcTime
  connects : SocketAddr → Bool

namespace Network

variable (C : Config)

/-- `Network::new`. -/
def new (now : ℕ) (myId : String) (node : Node) : Network :=
  ⟨now, 1, 0, Peers.new myId, fun _ => ⟨none, ⟨false, false⟩, 0⟩, [], 0, node, []⟩

/-- Changes a peer through `get_mut_peer`. -/
def modify (n : Network) (token : ℕ) (f : Peer → Peer) : Network :=
  { n with table := n.table.modify token f }

def relink (n : Network) (token : ℕ) (f : Link → Link) : Network :=
  { n with links := Function.update n.links token (f (n.links token)) }

def note (n : Network) (x : Traffic) : Network := { n with traffic := n.traffic ++ [x] }

/-- `registry.reregister(..).unwrap()`. -/
def reregister (n : Network) (token : ℕ) (interest : Interest) : Exec Network :=
  if C.machine.reregister token then .ok (n.relink token fun l => { l with interest })
  else .error (.expect "called `Result::unwrap()` on an `Err` value")

def setChacha (n : Network) (token : ℕ) (chacha : Chacha) : Network :=
  n.relink token fun l => { l with chacha := some chacha }

/-- A connection with the token that is next, and the one that is next then. -/
def addConnection (n : Network) (next : UInt64) (peer : Peer) (interest : Interest) : Network :=
  { n with
    token := next
    opened := n.opened + 1
    table := n.table.addPeer n.token.toNat peer
    links := Function.update n.links n.token.toNat ⟨none, interest, 0⟩ }

/-- `next_token`, or `next`, and the registration of the socket. -/
def register (n : Network) (peer : Peer) (interest : Interest) (error : String) : Exec Network := do
  let next ← addU64 C.platform.checks n.token 1
  if C.machine.reregister n.token.toNat then .ok (n.addConnection next peer interest)
  else .error (.expect error)

def closePeer (now : ℕ) (n : Network) (token : ℕ) : Network :=
  { n with table := n.table.closePeer now token }

/-! ## Connections -/

/-- An address of the older protocol in the form of the newer one is converted. -/
def plainAddress (address : SocketAddr) : SocketAddr :=
  match address.ip with
  | .v6 ip =>
    match ip.toIpv4 with
    | some ipv4 => ⟨.v4 ipv4, address.port⟩
    | none => address
  | .v4 _ => address

/-- The server socket has accepted a connection. -/
def accept (now : ℕ) (n : Network) (address : SocketAddr) : Exec Network :=
  let address := plainAddress address
  if n.table.isIgnored address.ip then .ok n
  else if C.ruvchainOnly ∧ ¬ isRuvchainAddr address.ip then .ok n
  else n.register C (Peer.new now address (.connected now)) .reads "Error registering poll"

/-- `connect_peer`, and whether it returns `Ok`. -/
def connectPeer (now : ℕ) (connects : SocketAddr → Bool) (n : Network) (addr : SocketAddr) :
    Exec (Network × Bool) :=
  if n.table.isIgnored addr.ip then .ok (n, false)
  else if C.ruvchainOnly ∧ ¬ isRuvchainAddr addr.ip then .ok (n, false)
  else if ¬ connects addr then .ok (n, false)
  else do
    let n ← n.register C ((Peer.new now addr .connecting).setPublic true) .writes
      "called `Result::unwrap()` on an `Err` value"
    .ok (n, true)

/-- `connect_new_peers`. -/
def connectNewPeers (now : ℕ) (connects : SocketAddr → Bool) (n : Network) : Exec Network :=
  match (n.newPeers.insertionSort fun a b => a.rank ≤ b.rank).destutter (· ≠ ·) with
  | [] => .ok n
  | addr :: rest => do
    let (n, _) ← { n with newPeers := rest }.connectPeer C now connects addr
    .ok n

/-- The loop over the addresses of one configured peer.  It takes all of them, and so leaves none to
be copied to the candidates. -/
def connectAddresses (now : ℕ) (connects : SocketAddr → Bool) :
    List SocketAddr → Finset ℕ → Network → Exec (Network × Finset ℕ)
  | [], set, n => .ok (n, set)
  | addr :: addresses, set, n =>
    if addr.rank ∈ set then connectAddresses now connects addresses set n
    else do
      let (n, ok) ← n.connectPeer C now connects addr
      connectAddresses now connects addresses (if ok then insert addr.rank set else set) n

/-- `connect_peers`; the addresses of every configured peer have been resolved. -/
def connectPeers (now : ℕ) (connects : SocketAddr → Bool) :
    List (List SocketAddr) → Finset ℕ → Network → Exec Network
  | [], _, n => .ok n
  | addresses :: peersAddrs, set, n =>
    if 10 ≤ set.card then .ok n
    else do
      let (n, set) ← connectAddresses C now connects addresses set n
      connectPeers now connects peersAddrs set n

/-! ## Messages -/

/-- One address of an exchange. -/
def addCandidate (n : Network) (peer : String) : Network :=
  match C.parseAddr peer with
  | none => n
  | some addr =>
    if n.table.peers.any fun e => e.2.addr.ip = addr.ip then n
    else if n.newPeers.any fun a => a.ip = addr.ip then n
    else if n.table.isIgnored addr.ip then n
    else if addr.skipPrivate then n
    else { n with newPeers := n.newPeers ++ [addr] }

/-- `add_peers_from_exchange`, with the texts in the order of the set. -/
def addPeersFromExchange (n : Network) (peers : List String) : Network :=
  peers.foldl (addCandidate C) n

/-- What `handle_message` finds when it handles a message. -/
def hearing (now token : ℕ) (r : Reading) (n : Network) (peer : Peer) (message : Message) : Hearing where
  token := token
  message := message
  session :=
    { origin := C.origin
      isPublic := C.isPublic
      appVersion := C.appVersion
      myId := n.table.myId
      versionCompatible := versionCompatible C.appVersion
      isTweenConnect := n.table.isTweenConnect now
      wantsPeers := n.table.getPeersActiveCount now < Peers.maxNodes ∧ r.coin
      -- the one that asks has been set active
      peersForExchange := ((n.table.modify token (Peer.setActive now true)).getPeersForExchange now
        peer.addr).map C.showAddr }
  node := n.node
  clock := r.clock
  now := now
  coin := r.coin

/-- What `handle_message` notes about the peer. -/
def noted (now token : ℕ) (r : Reading) (h : Hearing) (n : Network) : Network :=
  match h.message with
  | .hand .. | .shake .. => { n with table := n.table.noted h }
  | .ping height _ | .pong height _ =>
    n.modify token fun peer => (peer.setHeight height).setActive now true
  | .getPeers | .getBlock _ => n.modify token (Peer.setActive now true)
  | .peers peers =>
    (n.modify token (Peer.setActive now true)).addPeersFromExchange C (r.hashSet peers)
  | .block index data =>
    match receiveBlock C.platform.checks index data with
    | .ok (some b) =>
      if b.hash ∈ n.node.seenBlocks then n.modify token (Peer.setActive now true)
      else n.modify token fun peer => (peer.setActive now true).setReceivedBlock b.index
    | _ => n.modify token (Peer.setActive now true)
  | .error | .twin | .loop => n

/-- What `process_readable` does with the answer, and what it returns. -/
def settle (now token : ℕ) (n : Network) : State → Exec (Network × Bool)
  | .message m => do
    let n ← n.reregister C token .writes
    .ok (n.modify token (Peer.setState (.message m.toVec)), true)
  | .idle => .ok (n.modify token (Peer.setState (.idle now)), true)
  | .error => .ok (n, true)
  | .banned => do
    let table ← n.table.ignorePeer now token
    .ok ({ n with table }, true)
  | .loop => do
    let table ← (n.table.modify token (Peer.setState .loop)).ignorePeer now token
    .ok ({ n with table }, true)
  | .sendLoop => do
    let n ← n.reregister C token .both
    .ok (n.modify token (Peer.setState .sendLoop), true)
  | .twin => .ok (n.modify token (Peer.setState .twin), false)

/-- A message is handled and answered. -/
def hear (now token : ℕ) (r : Reading) (frame : List UInt8) (peer : Peer) (message : Message)
    (n : Network) : Exec (Network × Bool) := do
  let h := n.hearing C now token r peer message
  let (node, state) ← n.table.answer C.platform h
  let n := n.note (.heard token (n.links token).chacha frame message)
  { n.noted C now token r h with node }.settle C now token state

/-- The bytes of a key. -/
def toKey (bytes : List UInt8) : Vector UInt8 32 := Vector.ofFn fun i => bytes.getD i 0

/-- The bytes of a nonce. -/
def toNonce (bytes : List UInt8) : Vector UInt8 12 := Vector.ofFn fun i => bytes.getD i 0

/-- `process_readable`. -/
def processReadable (now token : ℕ) (r : Reading) (n : Network) : Exec (Network × Bool) :=
  match n.table.getPeer token with
  | none => .ok (n, false)
  | some peer =>
    if r.readClosed then .ok (n, false)
    else
      match peer.state with
      | .connected _ =>
        match (Transport.readClientHandshake r.stream).1 with
        | .error _ => .ok (n, false)
        | .ok key => do
          let n ← n.reregister C token .writes
          let n := n.note
            (.greeted token (toKey key) r.nonce (r.taken Transport.readClientHandshake))
          let n := n.setChacha token (C.chacha (toKey key) r.nonce)
          .ok (n.modify token (Peer.setState (.serverHandshake now)), true)
      | .serverHandshake _ =>
        match (Transport.readServerHandshake r.stream).1 with
        | .error _ => .ok (n, false)
        | .ok data =>
          if data.length ≠ 32 + 12 then .ok (n, false)
          else do
            let n ← n.reregister C token .writes
            let key := toKey (data.take 32)
            let nonce := toNonce (data.drop 32)
            let n := n.note (.greeted token key nonce (r.taken Transport.readServerHandshake))
            let n := n.setChacha token (C.chacha key nonce)
            .ok (n.modify token (Peer.setState .handshakeFinished), true)
      | _ =>
        match (Transport.readMessage r.stream).1 with
        | .error _ => .ok (n, false)
        | .ok frame => do
          -- a frame that cannot be decrypted is read as an empty one
          let data := (decodeMessage ((n.links token).chacha.map Chacha.cipher) frame).getD []
          match ← Message.fromBytes C.platform.checks data with
          | none => .ok (n, false)
          | some message => n.hear C now token r frame peer message

/-- `encode_message` or `encode_bytes`, and `send_message`, whose error is only logged. -/
def sendFrame (w : Writing) (n : Network) (token : ℕ) (data : List UInt8) : Option Network :=
  (encodeBytes ((n.links token).chacha.map Chacha.cipher) data).map fun encoded =>
    n.note (.wrote token (n.links token).chacha data (w.written (sendMessage encoded)))

/-- `encode_message(..).unwrap()`, and `send_message`. -/
def sendFrameUnwrap (w : Writing) (n : Network) (token : ℕ) (message : Message) : Exec Network :=
  match n.sendFrame w token message.toVec with
  | some n => .ok n
  | none => .error (.expect "called `Result::unwrap()` on an `Err` value")

/-- `Message::hand` with what the node says about itself. -/
def hand (n : Network) : Message :=
  .hand C.appVersion C.origin chainVersion C.isPublic n.table.myId

/-- The state machine of `process_writable`; `none` if a handshake could not be written. -/
def writeState (now token : ℕ) (w : Writing) (n : Network) (peer : Peer) : Exec (Option Network) :=
  match peer.state with
  | .connecting =>
    if w.cut.isSome then .ok none
    else
      let n := n.note (.handshake token (Transport.sendClientHandshake w.garbage.bytes C.publicKey))
      .ok (some (n.modify token fun peer =>
        (peer.setState (.serverHandshake now)).setActive now true))
  | .serverHandshake _ =>
    if w.cut.isSome then .ok none
    else
      -- without a cipher the nonce is `ZERO_NONCE`
      let nonce := ((n.links token).chacha.map Chacha.nonce).getD (Vector.replicate 12 0)
      let n := n.note
        (.handshake token (Transport.sendServerHandshake w.garbage.bytes C.publicKey nonce))
      .ok (some (n.modify token fun peer => (peer.setState .handshakeFinished).setActive now true))
  | .handshakeFinished => do
    let n ← n.sendFrameUnwrap w token (n.hand C)
    .ok (some (n.modify token fun peer => (peer.setState (.idle now)).setActive now true))
  | .message data =>
    let n := (n.sendFrame w token data).getD n
    .ok (some (n.modify token (Peer.setState (.idle now))))
  | .idle since =>
    if 120 ≤ Peer.elapsedSecs now since then do
      let n ← n.sendFrameUnwrap w token (.ping n.node.chain.getHeight n.node.chain.getLastHash)
      .ok (some n)
    else .ok (some n)
  | .sendLoop => do
    let n ← n.sendFrameUnwrap w token .loop
    .ok (some (n.modify token (Peer.setState (.idle now))))
  | .twin => do
    let n ← n.sendFrameUnwrap w token .twin
    .ok (some (n.modify token (Peer.setState (.idle now))))
  | .connected _ | .error | .banned | .offline _ | .loop => .ok (some n)

/-- `process_writable`. -/
def processWritable (now token : ℕ) (w : Writing) (n : Network) : Exec (Network × Bool) :=
  match n.table.getPeer token with
  | none => .ok (n, true)
  | some peer => do
    match ← n.writeState C now token w peer with
    | none => .ok (n, false)
    | some n => do
      let n ← n.reregister C token .reads
      .ok (n, true)

/-- `handle_connection_event`. -/
def handleConnectionEvent (now token : ℕ) (e : Readiness) (n : Network) : Exec (Network × Bool) :=
  if e.isError ∨ (e.reading.readClosed ∧ e.writeClosed) then .ok (n, false)
  else do
    let read := if e.readable then n.processReadable C now token e.reading else .ok (n, true)
    let (n, ok) ← read
    if ¬ ok then .ok (n, false)
    else if e.writable then n.processWritable C now token e.writing
    else .ok (n, true)

/-- An event of a connection; it is closed if the event could not be handled. -/
def ready (now token : ℕ) (e : Readiness) (n : Network) : Exec Network := do
  let (n, ok) ← n.handleConnectionEvent C now token e
  .ok (if ok then n else n.closePeer now token)

/-! ## The periodic update -/

/-- `PING_PERIOD`. -/
def pingPeriod : ℕ := 30

/-- An idle peer that is pinged. -/
def isDue (now randomTime : ℕ) (p : Peer) : Bool :=
  match p.state with
  | .idle since => pingPeriod + randomTime ≤ Peer.elapsedSecs now since
  | _ => false

/-- A peer that is neither idle nor connecting, and has timed out or is not active. -/
def isStale (now : ℕ) (p : Peer) : Bool :=
  match p.state with
  | .idle _ | .connecting => false
  | s => s.isTimedOut now ∨ ¬ p.activeAt now

/-- A peer with a message that is not stale. -/
def isWaiting (now : ℕ) (p : Peer) : Bool :=
  match p.state with
  | .message _ => ¬ isStale now p
  | _ => false

/-- The first loop of `update`: idle peers are pinged, or asked for other peers, and those with a
message are registered once more. -/
def keepAlive (now randomTime nodes : ℕ) (coin : ℕ → Bool) (height : UInt64) (hash : Bytes)
    (n : Network) : Exec Network :=
  let message (token : ℕ) : Message :=
    if nodes < Peers.maxNodes ∧ coin token then .getPeers else .ping height hash
  if n.table.peers.all fun e =>
      (isDue now randomTime e.2 ∨ isWaiting now e.2) → C.machine.reregister e.1 then
    .ok { n with
      table := n.table.edit fun token p =>
        if isDue now randomTime p then p.setState (.message (message token).toVec) else p
      links := fun token =>
        match n.table.getPeer token with
        | none => n.links token
        | some p =>
          if isDue now randomTime p then { n.links token with interest := .both }
          else if isWaiting now p then { n.links token with interest := .writes }
          else n.links token }
  else .error (.expect "called `Result::unwrap()` on an `Err` value")

/-- The peers that the first loop finds stale. -/
def staleTokens (now : ℕ) (t : Peers) : List ℕ := (t.peers.filter fun e => isStale now e.2).map Prod.fst

/-- The part of `update` that asks for blocks. -/
def askBlocks (nodes : ℕ) (coin : Bool) (height maxHeight : UInt64) (haveBlocks : Finset UInt64)
    (n : Network) : Exec Network :=
  match n.table.updateSync C.machine height maxHeight haveBlocks nodes coin with
  | (a, .ok ()) => .ok { n with
      table := a.table
      links := fun token =>
        if token ∈ a.requests.map Prod.fst then { n.links token with interest := .writes }
        else n.links token }
  | (_, .error fault) => .error fault

/-- A peer that is behind and has not been told so. -/
def isBehind (now : ℕ) (height : UInt64) (n : Network) (e : ℕ × Peer) : Bool :=
  e.2.isLower height ∧ e.2.state.isIdle ∧ ¬ e.2.activeRecently now
    ∧ (n.links e.1).sentHeight < height

/-- The part of `update` that pings one peer that has fewer blocks. -/
def pingBehind (now : ℕ) (utc : UtcTime) (pick : ℕ) (height : UInt64) (hash : Bytes) (n : Network) :
    Exec Network :=
  if n.behindPingSentTime + 5 < utc.secs.toInt then
    let behind := n.table.peers.filter (n.isBehind now height)
    match behind[pick % behind.length]? with
    | none => .ok n
    | some e => do
      let n ← n.reregister C e.1 .writes
      let n := n.modify e.1 (Peer.setState (.message (Message.ping height hash).toVec))
      let n := n.relink e.1 fun l => { l with sentHeight := height }
      .ok { n with behindPingSentTime := utc.secs.toInt }
  else .ok n

/-- A peer that is offline for a long time. -/
def isOffline (now : ℕ) (p : Peer) : Bool :=
  p.state.needReconnect now ∧ Peers.maxReconnects ≤ p.reconnects

/-- The part of `update` that removes the peers that are offline for a long time. -/
def dropOffline (now : ℕ) (n : Network) : Network :=
  let ips := (n.table.peers.filter fun e => isOffline now e.2).map fun e => e.2.addr.ip
  { n with table := ips.foldl (Peers.ignoreIp now) (n.table.retain fun p => ¬ isOffline now p) }

/-- The part of `update` that reconnects to one peer. -/
def reconnect (now : ℕ) (connects : SocketAddr → Bool) (n : Network) : Exec Network :=
  match n.table.peers.find? fun e => e.2.state.needReconnect now with
  | none => .ok n
  | some e =>
    if ¬ connects e.2.addr then .ok n
    else do
      let n ← n.reregister C e.1 .writes
      .ok (n.modify e.1 fun peer => (peer.setState .connecting).incReconnects)

/-- `update` up to the offline peers. -/
def updateOnline (now : ℕ) (u : Refreshing) (hash : Bytes) (height maxHeight : UInt64)
    (haveBlocks : Finset UInt64) (n : Network) : Exec Network := do
  let nodes := n.table.getPeersActiveCount now
  let randomTime := u.random.toNat % pingPeriod
  let stale := staleTokens now n.table
  let n ← n.keepAlive C now randomTime nodes u.coin height hash
  let n := { n with table := (stale.foldl (Peers.closePeer now) n.table).purgeIgnored now }
  let n ← n.askBlocks C nodes u.syncCoin height maxHeight haveBlocks
  n.pingBehind C now u.utc u.pick height hash

/-- `update`. -/
def update (now : ℕ) (u : Refreshing) (hash : Bytes) (height maxHeight : UInt64)
    (haveBlocks : Finset UInt64) (n : Network) : Exec Network := do
  let n ← n.updateOnline C now u hash height maxHeight haveBlocks
  (n.dropOffline now).reconnect C now u.connects

/-- The update with what the loop passes on of the node. -/
def refresh (now : ℕ) (u : Refreshing) (n : Network) : Exec Network :=
  let chain := n.node.chain
  n.update C now u chain.getLastHash chain.getHeight chain.maxHeight
    (n.node.futureBlocks.map fun e => e.2.index).toFinset

/-! ## Steps -/

/-- What happens to the network. -/
inductive Event where
  /-- The server socket accepts a connection. -/
  | accept (address : SocketAddr)
  /-- The poll reports about a connection.  Under the token of the server socket it reports about
  this one. -/
  | ready (token : ℕ) (e : Readiness)
  /-- No event has come for too long. -/
  | closeAll
  | connectNew (connects : SocketAddr → Bool)
  | connectPeers (peersAddrs : List (List SocketAddr)) (connects : SocketAddr → Bool)
  | update (u : Refreshing)
  /-- The blocks that were seen are forgotten. -/
  | clearSeen
  /-- A thread of the miner has found a block. -/
  | mined (utc : UtcTime) (b : Block)
  /-- The map of the peers enumerates them in another order. -/
  | reorder (peers : List (ℕ × Peer))

/-- A step of the network at an instant. -/
def step (now : ℕ) (n : Network) : Event → Exec Network
  | .accept address => n.accept C now address
  | .ready token e => if token = server then .ok n else n.ready C now token e
  | .closeAll => .ok { n with table := n.table.closeAllPeers now }
  | .connectNew connects => n.connectNewPeers C now connects
  | .connectPeers peersAddrs connects => connectPeers C now connects peersAddrs ∅ n
  | .update u => n.refresh C now u
  | .clearSeen => .ok { n with node := { n.node with seenBlocks := [] } }
  | .mined utc b => do
    let node ← n.node.addMined C.platform utc b
    .ok { n with node }
  | .reorder peers =>
    if h : peers.Perm n.table.peers then
      .ok { n with table :=
        { n.table with peers, nodup := ((h.map Prod.fst).nodup_iff).mpr n.table.nodup } }
    else .ok n

/-- What is reported about a connection is what it is registered for. -/
def registered (n : Network) : Event → Bool
  | .ready token e => (e.readable → (n.links token).interest.readable)
      ∧ (e.writable → (n.links token).interest.writable)
  | _ => true

/-- **The contract of the clock and of the poll**: instants do not decrease, and nothing is reported
that a connection is not registered for. -/
def Admissible (n : Network) (i : ℕ × Event) : Prop := n.now ≤ i.1 ∧ n.registered i.2

instance (n : Network) (i : ℕ × Event) : Decidable (n.Admissible i) :=
  inferInstanceAs (Decidable (_ ∧ _))

/-- The transitions of the network. -/
def Step (n : Network) (i : ℕ × Event) (n' : Network) : Prop :=
  { n with now := i.1 }.step C i.1 i.2 = .ok n'

end Network

end P2p
