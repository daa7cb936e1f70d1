/-
# How deep a received block reaches

The validator refuses a block more than `LIMITED_CONFIDENCE_DEPTH` below the tip, but only
when its previous hash does not match.  A fork whose parent we share is accepted at any
depth, and if it wins, everything above it is deleted.  Apart from that no stored block is
touched by `handle_block`.
-/
import Ruvname.Reachable

open Exec

namespace Node

variable {P : Platform} {n n' : Node} {clock : ℕ → UtcTime} {b : Block} {state : State}

/-- The stored blocks below the confidence depth of `n` are stored in `n'` as well. -/
def KeepsConfident (n n' : Node) : Prop :=
  ∀ k : ℤ, k < (n.chain.getHeight.toNat : ℤ) - limitedConfidenceDepth.toNat →
    ∀ row, n.chain.db.blocks.find? k = some row → n'.chain.db.blocks.find? k = some row

/-- A winning fork removes the block it replaces. -/
theorem not_keepsConfident_of_replaces {f : Ledger} (hg : n.chain.Grounded f)
    (hg' : n'.chain.Grounded ((f.truncate b.index.toNat).put b))
    (hwins : Replaces P (clock 0) n.chain b)
    (hdeep : b.index.toNat + limitedConfidenceDepth.toNat < n.chain.getHeight.toNat) :
    ¬ KeepsConfident n n' := by
  obtain ⟨s, our, hfork, -, -⟩ := hwins
  obtain ⟨l, my, -, -, hmy, hne⟩ := hg.fork_cases hfork
  intro hkeep
  have hrow : n.chain.db.blocks.find? (b.index.toNat : ℤ) = some (BlockRow.ofBlock my) := by
    rw [hg.db.blocks, hmy, Option.map_some]
  have hrow' : n'.chain.db.blocks.find? (b.index.toNat : ℤ) = some (BlockRow.ofBlock b) := by
    rw [hg'.db.blocks, Ledger.put_self, Option.map_some]
  have hsame := hkeep b.index.toNat (by omega) _ hrow
  rw [hrow', Option.some.injEq] at hsame
  apply hne
  calc my.hash = (BlockRow.ofBlock my).hash := rfl
    _ = (BlockRow.ofBlock b).hash := by rw [hsame]
    _ = b.hash := rfl

/-- A ledger that agrees with another below a position stores the same rows there. -/
theorem find?_eq_of_ledger {f f' : Ledger} (hg : n.chain.Grounded f) (hg' : n'.chain.Grounded f')
    {k : ℤ} {row : BlockRow} (hrow : n.chain.db.blocks.find? k = some row)
    (h : ∀ (m : ℕ) x, k = m → f m = some x → f' m = some x) :
    n'.chain.db.blocks.find? k = some row := by
  obtain ⟨m, x, rfl, hx, rfl⟩ := hg.db.exists_of_find? hrow
  rw [hg'.db.blocks, h m x rfl hx, Option.map_some]

/-- **Limited-confidence finality, exactly.**  A received block keeps all stored blocks
below the confidence depth if and only if it is not a winning fork from below it. -/
theorem handleBlock_keepsConfident_iff (hn : Reachable P n)
    (h : n.handleBlock P clock b = .ok (n', state)) :
    KeepsConfident n n' ↔
      ¬ (b.index.toNat + limitedConfidenceDepth.toNat < n.chain.getHeight.toNat
        ∧ Replaces P (clock 0) n.chain b) := by
  obtain ⟨f, hg⟩ := hn.grounded
  obtain ⟨f', hg', hf'⟩ := handleBlock_ledger hg h
  constructor
  · rintro hkeep ⟨hdeep, hwins⟩
    rcases hf' with ⟨-, rfl⟩ | ⟨hnot, -⟩
    · exact not_keepsConfident_of_replaces hg hg' hwins hdeep hkeep
    · exact hnot hwins
  · intro hcond k hk row hrow
    refine find?_eq_of_ledger hg hg' hrow fun m x hm hx => ?_
    rcases hf' with ⟨hwins, rfl⟩ | ⟨-, hle⟩
    · -- a winning fork at the confidence depth or above it
      have hshallow : ¬ b.index.toNat + limitedConfidenceDepth.toNat < n.chain.getHeight.toNat :=
        fun hdeep => hcond ⟨hdeep, hwins⟩
      have hlt : m < b.index.toNat := by omega
      rw [Ledger.put_of_ne (by omega), Ledger.truncate_of_lt hlt, hx]
    · exact hle m x hx

end Node

namespace Sample

/-- Six signing blocks on top of the origin block. -/
def signingBlocks : List Block :=
  [block 2 10 3 genesis.hash (key 2) none, block 3 20 4 (hash [3]) (key 2) none,
    block 4 30 5 (hash [4]) (key 2) none, block 5 40 6 (hash [5]) (key 2) none,
    block 6 50 7 (hash [6]) (key 2) none, block 7 60 9 (hash [7]) (key 2) none]

/-- A better block 2 with the same parent. -/
def deepFork : Block := block 2 10 128 genesis.hash (key 3) none

end Sample

namespace Node

/-- An eighth block leaves the first two in their places. -/
theorem handleBlock_keepsConfident_next : ∃ n,
    receive (Sample.platform true) Sample.now (Sample.genesis :: Sample.signingBlocks)
        (fresh Sample.genesis.hash) = .ok n
      ∧ ∃ r, n.handleBlock (Sample.platform true) (fun _ => Sample.now)
          (Sample.block 8 70 10 (Sample.hash [9]) (Sample.key 2) none) = .ok r
        ∧ r.1.chain.getHeight = 8 ∧ KeepsConfident n r.1 := by
  have hrun : ∃ n,
      receive (Sample.platform true) Sample.now (Sample.genesis :: Sample.signingBlocks)
          (fresh Sample.genesis.hash) = .ok n
        ∧ n.chain.getHeight = 7
        ∧ ∃ r, n.handleBlock (Sample.platform true) (fun _ => Sample.now)
            (Sample.block 8 70 10 (Sample.hash [9]) (Sample.key 2) none) = .ok r
          ∧ r.1.chain.getHeight = 8 := by
    decide +kernel
  obtain ⟨n, hn, hheight, r, hr, hheight'⟩ := hrun
  refine ⟨n, hn, r, hr, hheight', ?_⟩
  refine (handleBlock_keepsConfident_iff
    ⟨Sample.genesis.hash, receive_run (fun _ _ _ => trivial) hn⟩ hr).mpr ?_
  rintro ⟨hdeep, -⟩
  rw [hheight] at hdeep
  exact absurd hdeep (by decide)

/-- The node has seven blocks; a fork at index 2, below `7 - 4`, is taken over. -/
theorem not_keepsConfident_deepFork : ∃ n,
    receive (Sample.platform true) Sample.now (Sample.genesis :: Sample.signingBlocks)
        (fresh Sample.genesis.hash) = .ok n
      ∧ ∃ r, n.handleBlock (Sample.platform true) (fun _ => Sample.now) Sample.deepFork = .ok r
        ∧ ¬ KeepsConfident n r.1 := by
  have hrun : ∃ n,
      receive (Sample.platform true) Sample.now (Sample.genesis :: Sample.signingBlocks)
          (fresh Sample.genesis.hash) = .ok n
        ∧ n.chain.getHeight = 7
        ∧ (n.chain.db.blocks.find? 2).map (fun row => row.hash) = some (Sample.hash [3])
        ∧ ∃ r, n.handleBlock (Sample.platform true) (fun _ => Sample.now) Sample.deepFork = .ok r
          ∧ (r.1.chain.db.blocks.find? 2).map (fun row => row.hash) = some Sample.deepFork.hash := by
    decide +kernel
  obtain ⟨n, hn, hheight, hold, r, hr, hnew⟩ := hrun
  refine ⟨n, hn, r, hr, fun hkeep => ?_⟩
  obtain ⟨row, hrow, hhash⟩ := Option.map_eq_some_iff.mp hold
  have hkept := hkeep 2 (by rw [hheight]; decide) row hrow
  rw [hkept, Option.map_some, hhash] at hnew
  exact absurd hnew (by decide)

end Node
