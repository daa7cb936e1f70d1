/-
# The node: handling a received block

`Network::handle_block` of `p2p/network.rs`: the verdict of `check_new_block` decides
whether the block is appended (with the blocks that waited for it), replaces a fork, waits
among the future blocks, or is dropped.

A node is its chain, the bucket of future blocks and the hashes seen.  The peer table and
the events posted to the user interface are left out: nothing here reads them.
-/
import Ruvname.CheckChain

open Exec

/-! ## State -/

/-- The bucket `future_blocks`, a map from the index. -/
abbrev FutureBlocks := List (UInt64 × Block)

namespace FutureBlocks

def insert (future : FutureBlocks) (index : UInt64) (b : Block) : FutureBlocks :=
  (index, b) :: future.filter (fun e => e.1 ≠ index)

def remove (future : FutureBlocks) (index : UInt64) : FutureBlocks :=
  future.filter (fun e => e.1 ≠ index)

end FutureBlocks

/-- What a node keeps of the network. -/
structure Node where
  chain : Chain
  futureBlocks : FutureBlocks
  seenBlocks : List Bytes

/-- The messages that `handle_block` answers with. -/
inductive Message where
  | getBlock (index : UInt64)
  | block (index : UInt64) (block : Block)
  deriving DecidableEq, Repr

/-- The state of the connection after a message has been handled. -/
inductive State where
  | idle
  | message (message : Message)
  | banned
  deriving DecidableEq, Repr

namespace Node

variable (P : Platform)

/-! ## Handling a block -/

/-- The `while let` loop that adds consequent blocks out of the bucket.  Every iteration
takes an entry out of the bucket, so that its size is enough fuel. -/
def drainFuture : ℕ → (ℕ → UtcTime) → Chain → FutureBlocks → UInt64 → Exec (Chain × FutureBlocks)
  | 0, _, c, future, _ => .ok (c, future)
  | n + 1, clock, c, future, nextIndex =>
    match future.lookup nextIndex with
    | none => .ok (c, future)
    | some b => do
      let future := future.remove nextIndex
      let (quality, cache) ← c.checkNewBlock P (clock 0) b
      let c := { c with signers := cache }
      if quality = .good then do
        let c ← c.addBlock b
        let nextIndex ← addU64 P.checks nextIndex 1
        drainFuture n (fun i => clock (i + 1)) c future nextIndex
      else .ok (c, future)

/-- `lagged`: the fork is at our tip and we are very much behind of blockchain. -/
def isLagged (c : Chain) (b : Block) : Exec Bool :=
  if b.index = c.getHeight then do
    let confident ← addU64 P.checks b.index limitedConfidenceDepth
    .ok (decide (confident ≤ c.maxHeight))
  else .ok false

/-- Whether a fork block takes the place of ours. -/
def forkWins (c : Chain) (b : Block) (ourBlock : Block) : Exec Bool := do
  let lagged ← isLagged P c b
  let better ← b.isBetterThan P.checks ourBlock
  .ok (better ∨ lagged)

/-- `handle_block`, at the successive readings of `clock`. -/
def handleBlock (clock : ℕ → UtcTime) (n : Node) (b : Block) : Exec (Node × State) := do
  let n := { n with seenBlocks := b.hash :: n.seenBlocks }
  let (quality, cache) ← n.chain.checkNewBlock P (clock 0) b
  let c := { n.chain with signers := cache }
  match quality with
  | .good => do
    let nextIndex ← addU64 P.checks b.index 1
    let added ← c.addBlock b
    let (added, future) ←
      drainFuture P n.futureBlocks.length (fun i => clock (i + 1)) added n.futureBlocks nextIndex
    -- If it was the last block to sync
    let future := if added.getHeight = c.maxHeight then [] else future
    .ok ({ n with chain := added, futureBlocks := future }, .idle)
  | .twin => .ok ({ n with chain := c }, .idle)
  | .future => .ok ({ n with chain := c, futureBlocks := n.futureBlocks.insert b.index b }, .idle)
  | .bad => do
    let next ← addU64 P.checks c.getHeight 1
    let c := if next = b.index then c.updateMaxHeight c.getHeight else c
    .ok ({ n with chain := c }, .banned)
  | .rewind => do
    let parent ← subU64 P.checks b.index 1
    .ok ({ n with chain := c }, .message (.getBlock parent))
  | .fork =>
    match c.getBlock b.index with
    | none => .error (.expect "called `Option::unwrap()` on a `None` value")
    | some ourBlock => do
      let wins ← forkWins P c b ourBlock
      if wins then do
        let c ← c.replaceBlock b
        .ok ({ n with chain := c }, .idle)
      else .ok ({ n with chain := c }, .message (.block ourBlock.index ourBlock))

end Node
