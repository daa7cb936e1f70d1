/-
# The check of the stored chain at startup

`check_chain` of `chain.rs`: the last blocks of the table are judged again, in order,
against a tip and a last full block carried along by hand.  The first block that is not
good is cut off together with everything above it.
-/
import Ruvname.CheckBlock

open Exec

namespace Chain

variable (P : Platform)

/-- The first index to check: the last `count` blocks, or the full chain. -/
def checkFrom (c : Chain) (count : UInt64) : Exec UInt64 :=
  if c.getHeight > count then addU64 P.checks (c.getHeight - count) 1 else .ok 1

/-- The tip and the last full block below `start`, from which the check sets out. -/
def checkStart (c : Chain) (start : UInt64) : Option Block × Option Block :=
  if start > 1 then
    let last := c.getBlock (start - 1)
    (last, last.bind fun last =>
      match last.transaction with
      | none => c.getLastFullBlock last.index none
      | some _ => some last)
  else (none, none)

/-- The loop of `check_chain` over `n` blocks from `id` on.  The second component is the
index the table was truncated from, if the loop was left that way. -/
def checkLoop (clock : ℕ → UtcTime) :
    ℕ → UInt64 → Chain → Option Block → Option Block → Exec (Chain × Option UInt64)
  | 0, _, c, _, _ => .ok (c, none)
  | n + 1, id, c, last, lastFull =>
    match c.getBlock id with
    | none => .error (.panic "Blockchain is corrupted! Please, delete 'blockchain.db' and restart.")
    | some block =>
      if block.index = 1 then
        if block.hash ≠ c.origin then .error (.panic "Loaded DB is not of origin")
        -- the origin block is not noted as a full block
        else checkLoop clock n (id + 1) c (some block) lastFull
      else if block.hash ∈ wrongHashes then
        .ok ({ c with db := c.db.truncateFromBlock block.index }, some block.index)
      else do
        let (quality, cache) ← c.checkBlock P (clock n) block last lastFull
        let c := { c with signers := cache }
        if quality ≠ .good then
          .ok ({ c with db := c.db.truncateFromBlock block.index }, some block.index)
        else if block.transaction.isSome then
          checkLoop clock n (id + 1) { c with lastFullBlock := some block } (some block) (some block)
        else checkLoop clock n (id + 1) c (some block) lastFull

/-- `check_chain`: the last `count` blocks, or all of them.  Afterwards the caches are
reloaded, the last full block by way of `get_last_full_block`. -/
def checkChain (clock : ℕ → UtcTime) (c : Chain) (count : UInt64) : Exec Chain := do
  let start ← c.checkFrom P count
  let (last, lastFull) := c.checkStart start
  let (c, _) ← checkLoop P clock (c.getHeight.toNat + 1 - start.toNat) start c last lastFull
  .ok { c with
    lastBlock := c.db.loadLastBlock
    lastFullBlock := c.getLastFullBlock maxIndex none }

end Chain
