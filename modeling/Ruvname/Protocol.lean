/-
# Handling a message

`Network::handle_message` of `p2p/network.rs`: the answer to every message, and what it does to
the node.  Of the peer table and the settings it reads a few values only, and it tosses a coin
before it asks for more peers; a `Session` is what it finds there when the message arrives.
What it writes into the peer table (heights, activity) is read by nothing here and left out.
-/
import Ruvname.Serving

open Exec

namespace P2p

/-- What `handle_message` reads besides the node. -/
structure Session where
  /-- `settings.origin`. -/
  origin : String
  /-- `settings.net.public`. -/
  isPublic : Bool
  appVersion : String
  myId : String
  versionCompatible : String → Bool
  /-- Active peers with this id. -/
  isTweenConnect : String → Bool
  /-- Fewer than `MAX_NODES` peers are active and the coin says to ask for more. -/
  wantsPeers : Bool
  peersForExchange : List String

/-- The state of the connection after a message. -/
inductive State where
  | idle
  | message (message : Message)
  | banned
  | error
  | twin
  | loop
  | sendLoop
  deriving DecidableEq, Repr

end P2p

/-- `get_last_hash`. -/
def Chain.getLastHash (c : Chain) : Bytes :=
  match c.lastBlock with
  | none => Bytes.default
  | some block => block.hash

namespace Node

open P2p (Session)

variable (P : Platform)

/-- The answers of `handle_block`. -/
def answerOf : State → P2p.State
  | .idle => .idle
  | .message (.getBlock index) => .message (.getBlock index)
  | .message (.block index b) => .message (.block index b.asBytes)
  | .banned => .banned

/-- A higher peer raises the height that we know of. -/
def noteHeight (n : Node) (height : UInt64) : Node :=
  if height > n.chain.getHeight then { n with chain := n.chain.updateMaxHeight height } else n

/-- `handle_message` on `Shake`. -/
def handleShake (session : Session) (n : Node) (appVersion origin : String) (version : UInt32)
    (randId : String) (height : UInt64) : Node × P2p.State :=
  if origin ≠ session.origin then (n, .banned)
  else if version ≠ chainVersion then (n, .banned)
  else if session.isTweenConnect randId then (n, .twin)
  else if ¬ session.versionCompatible appVersion then (n, .banned)
  else (n.noteHeight height, if session.wantsPeers then .message .getPeers else .idle)

/-- The common part of `Ping` and `Pong`: what is asked of a peer that is higher, or as high on
another tip; `otherwise` is the answer to any other. -/
def handleHeight (n : Node) (height : UInt64) (hash : Bytes) (otherwise : P2p.State) :
    Exec (Node × P2p.State) :=
  if height > n.chain.getHeight then do
    let next ← addU64 P.checks n.chain.getHeight 1
    .ok (n.noteHeight height, .message (.getBlock next))
  else if n.chain.getHeight = height ∧ hash ≠ n.chain.getLastHash then
    .ok (n, .message (.getBlock n.chain.getHeight))
  else .ok (n, otherwise)

/-- The part of `handle_message` on `Block` after the block has been read: one whose hash has
been seen is ignored. -/
def hearBlock (clock : ℕ → UtcTime) (n : Node) (b : Block) : Exec (Node × P2p.State) :=
  if b.hash ∈ n.seenBlocks then .ok (n, .idle)
  else do
    let (n, state) ← n.handleBlock P clock b
    .ok (n, answerOf state)

/-- `handle_message`. -/
def handleMessage (session : Session) (clock : ℕ → UtcTime) (n : Node) :
    P2p.Message → Exec (Node × P2p.State)
  | .hand appVersion origin _ _ randId => .ok (n,
      if ¬ session.versionCompatible appVersion then .banned
      else if session.myId = randId then .sendLoop
      else if origin = session.origin then
        .message (.shake session.appVersion origin chainVersion session.isPublic session.myId
          n.chain.getHeight)
      else .banned)
  | .shake appVersion origin version _ randId height =>
    .ok (n.handleShake session appVersion origin version randId height)
  | .error => .ok (n, .error)
  | .ping height hash =>
    let pong := .message (.pong n.chain.getHeight n.chain.getLastHash)
    if hash ∈ n.seenBlocks then .ok (n, pong) else n.handleHeight P height hash pong
  | .pong height hash =>
    if hash ∈ n.seenBlocks then .ok (n, .idle)
    else n.handleHeight P height hash (if session.wantsPeers then .message .getPeers else .idle)
  | .getPeers => .ok (n, .message (.peers session.peersForExchange))
  | .peers _ => .ok (n, .idle)
  | .getBlock index =>
    match P2p.answerGetBlock n.chain index with
    | some reply => .ok (n, .message reply)
    | none => .ok (n, .error)
  | .block index data => do
    match ← P2p.receiveBlock P.checks index data with
    | none => .ok (n, .banned)
    | some b => n.hearBlock P clock b
  | .twin => .ok (n, .twin)
  | .loop => .ok (n, .loop)

/-- A message with what it meets: the peer table and the clock. -/
structure Input where
  session : Session
  clock : ℕ → UtcTime
  message : P2p.Message

/-- Messages are handled one after the other. -/
def hearAll : List Input → Node → Exec Node
  | [], n => .ok n
  | i :: inputs, n => do
    let (n, _) ← n.handleMessage P i.session i.clock i.message
    hearAll inputs n

end Node
