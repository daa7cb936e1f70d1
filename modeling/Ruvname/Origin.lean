/-
# Is block 1 the origin block for good?

A node with a configured origin compares it with a block only while its chain is empty.
Block 1 of a chain is thereby pinned to the origin as long as nothing replaces it.  The
one path that does is a fork at index 1 (or 0), which is judged by its score alone.
-/
import Ruvname.Reachable

open Exec

/-- A chain that is not empty starts with the block of the configured origin. -/
def Chain.OriginPinned (c : Chain) : Prop :=
  c.lastBlock.isSome → ∃ b, c.getBlock 1 = some b ∧ b.hash = c.origin

instance (c : Chain) : Decidable c.OriginPinned :=
  decidable_of_iff (c.lastBlock.isSome → (c.getBlock 1).any fun b => b.hash = c.origin)
    (by simp [Chain.OriginPinned, Option.any_eq_true])

/-- A ledger is empty or has the origin block at position 1. -/
def Ledger.PinnedTo (f : Ledger) (origin : Bytes) : Prop :=
  (∃ a, f 1 = some a ∧ a.hash = origin) ∨ ∀ n, f n = none

namespace Chain

variable {P : Platform} {c c' : Chain} {f f' : Ledger} {a : ChainAction} {origin : Bytes}

/-- The origin block is seen by `get_block`. -/
theorem Grounded.originPinned (hg : c.Grounded f) (hf : f.PinnedTo c.origin) : c.OriginPinned := by
  intro hsome
  rcases hf with ⟨a, ha, hhash⟩ | hnone
  · refine ⟨a.collapse, ?_, hhash⟩
    rw [getBlock, hg.db.getBlock, one_toNat, ha, Option.map_some]
  · obtain ⟨l, hl⟩ := Option.isSome_iff_exists.mp hsome
    obtain ⟨x, hx, -⟩ := hg.tip l hl
    rw [hnone] at hx
    cases hx

/-- Truncating above position 1 keeps the origin block. -/
theorem pinnedTo_truncate {n : ℕ} (hn : 2 ≤ n) (hf : f.PinnedTo origin) :
    (f.truncate n).PinnedTo origin := by
  rcases hf with ⟨a, ha, hhash⟩ | hnone
  · refine Or.inl ⟨a, ?_, hhash⟩
    rw [Ledger.truncate_of_lt (by omega), ha]
  · right
    intro m
    unfold Ledger.truncate
    split
    · exact hnone m
    · rfl

/-- So does putting a block elsewhere, once the origin block is there. -/
theorem pinnedTo_put {b : Block} (hb : b.index.toNat ≠ 1) (hf : ∃ a, f 1 = some a ∧ a.hash = origin) :
    (f.put b).PinnedTo origin := by
  obtain ⟨a, ha, hhash⟩ := hf
  exact Or.inl ⟨a, by rw [Ledger.put_of_ne (Ne.symm hb), ha], hhash⟩

/-- **The step lemma.**  Every action but a replacement at index 0 or 1 keeps the origin
block: an append finds position 1 taken, and on an empty chain the origin is compared. -/
theorem Step.pinned (hg : c.Grounded f) (hzero : ¬ c.origin.isZero) (hf : f.PinnedTo c.origin)
    (hrep : ∀ now b, a = .replace now b → 2 ≤ b.index.toNat) (h : c.Step P a c') :
    ∃ f', c'.Grounded f' ∧ c'.origin = c.origin ∧ f'.PinnedTo c.origin := by
  obtain ⟨f', hg', hstep, horigin⟩ := h.ledger hg
  refine ⟨f', hg', horigin, ?_⟩
  cases a with
  | judge now b => exact (show f' = f from hstep) ▸ hf
  | height h => exact (show f' = f from hstep) ▸ hf
  | append now b =>
    rcases hstep with rfl | ⟨hfree, rfl⟩
    · exact hf
    · rcases hf with ⟨x, hx, hhash⟩ | hnone
      · refine pinnedTo_put ?_ ⟨x, hx, hhash⟩
        intro h1
        rw [h1, hx] at hfree
        cases hfree
      · -- the chain is empty, so that only the genesis block is good
        obtain ⟨s, hgood, -⟩ := h
        rcases hg.good_cases hgood with ⟨-, hgen, hor⟩ | ⟨l, hl, -⟩
        · have h1 : b.index = 1 := (of_decide_eq_true hgen).1
          refine Or.inl ⟨b, ?_, hor.resolve_left hzero⟩
          have := Ledger.put_self f b
          rwa [h1, one_toNat] at this
        · obtain ⟨x, hx, -⟩ := hg.tip l hl
          rw [hnone] at hx
          cases hx
  | replace now b =>
    have htwo := hrep now b rfl
    obtain ⟨hsome, rfl⟩ := hstep
    rcases pinnedTo_truncate htwo hf with hone | hnone
    · exact pinnedTo_put (by omega) hone
    · -- an empty ledger has no block to replace
      rcases hf with ⟨x, hx, -⟩ | hempty
      · have := hnone 1
        rw [Ledger.truncate_of_lt (by omega), hx] at this
        cases this
      · rw [hempty] at hsome
        cases hsome
  | recheck clock count =>
    rcases hstep with rfl | ⟨i, hi, -, rfl⟩
    · exact hf
    · exact pinnedTo_truncate hi hf
  | reopen =>
    rcases hstep with rfl | rfl
    · exact hf
    · exact Or.inr fun _ => rfl

end Chain

/-- A rival of the origin block, with a better hash. -/
def Sample.rivalGenesis : Block := block 1 0 2 Bytes.default (key 2) (some origin)

namespace Node

variable {P : Platform}

/-- No fork at the very start of the chain wins: the received block has a larger index, or
is no fork, or is neither better than our block nor ahead of a node that lags. -/
def NoOriginFork (P : Platform) (n : Node) (i : NodeInput) : Prop :=
  ∀ clock b, i = .block clock b → b.index ≤ 1 → ¬ Replaces P (clock 0) n.chain b

/-- **Origin pinning.**  A node that starts with a non-zero origin and the block of that
origin keeps it along every run in which no fork at index 0 or 1 wins. -/
theorem run_originPinned {n₀ n : Node} (hstart : ∃ f, n₀.chain.Grounded f)
    (hzero : ¬ n₀.chain.origin.isZero)
    (hpinned : ∃ b, n₀.chain.getBlock 1 = some b ∧ b.hash = n₀.chain.origin)
    (run : Run (Step P) (NoOriginFork P) n₀ n) :
    n.chain.origin = n₀.chain.origin ∧ n.chain.OriginPinned := by
  have hinv : ∃ f, n.chain.Grounded f ∧ n.chain.origin = n₀.chain.origin
      ∧ f.PinnedTo n₀.chain.origin := by
    refine run.invariant (I := fun n => ∃ f, n.chain.Grounded f
      ∧ n.chain.origin = n₀.chain.origin ∧ f.PinnedTo n₀.chain.origin) ?_ ?_
    · obtain ⟨f, hg⟩ := hstart
      obtain ⟨b, hb, hhash⟩ := hpinned
      rw [Chain.getBlock, hg.db.getBlock, Chain.one_toNat] at hb
      obtain ⟨a, ha, rfl⟩ := Option.map_eq_some_iff.mp hb
      exact ⟨f, hg, rfl, Or.inl ⟨a, ha, hhash⟩⟩
    · intro m i m' hm hok hstep
      refine hstep.chain_invariant (I := fun c => ∃ f, c.Grounded f
        ∧ c.origin = n₀.chain.origin ∧ f.PinnedTo n₀.chain.origin) hm ?_
      rintro c a c' ⟨f, hg, horigin, hf⟩ hallowed hact
      have hrep : ∀ now b, a = .replace now b → 2 ≤ b.index.toNat := by
        rintro now b rfl
        cases i with
        | block clock x =>
          obtain ⟨rfl, rfl, -, hwins⟩ := hallowed
          by_contra hlt
          have hle : b.index ≤ 1 := UInt64.le_iff_toNat_le.mpr (by rw [Chain.one_toNat]; omega)
          exact hok clock b rfl hle hwins
        | _ => exact hallowed.elim
      rw [← horigin] at hzero hf
      obtain ⟨f', hg', horigin', hf'⟩ := hact.pinned hg hzero hf hrep
      exact ⟨f', hg', horigin'.trans horigin, horigin ▸ hf'⟩
  obtain ⟨f, hg, horigin, hf⟩ := hinv
  rw [← horigin] at hf
  exact ⟨horigin, hg.originPinned hf⟩

/-- A run that appends a domain block to the origin block. -/
theorem run_originPinned_domain : ∃ n₀ n,
    receive (Sample.platform true) Sample.now [Sample.genesis] (fresh Sample.genesis.hash) = .ok n₀
      ∧ receive (Sample.platform true) Sample.now
        [Sample.block 2 10 5 Sample.genesis.hash (Sample.key 2) (some (Sample.domain ⟨[7]⟩))] n₀ = .ok n
      ∧ n.chain.getHeight = 2 ∧ n.chain.OriginPinned := by
  have hrun : ∃ n₀,
      receive (Sample.platform true) Sample.now [Sample.genesis] (fresh Sample.genesis.hash) = .ok n₀
        ∧ n₀.chain.origin.isZero = false
        ∧ ((n₀.chain.getBlock 1).map fun b => b.hash) = some n₀.chain.origin
        ∧ ∃ n, receive (Sample.platform true) Sample.now
          [Sample.block 2 10 5 Sample.genesis.hash (Sample.key 2) (some (Sample.domain ⟨[7]⟩))] n₀ = .ok n
          ∧ n.chain.getHeight = 2 := by
    decide +kernel
  obtain ⟨n₀, hstart, hzero, hone, n, hn, hheight⟩ := hrun
  have hreach : Reachable (Sample.platform true) n₀ :=
    ⟨Sample.genesis.hash, receive_run (fun _ _ _ => trivial) hstart⟩
  refine ⟨n₀, n, hstart, hn, hheight, ?_⟩
  refine (run_originPinned hreach.grounded (by simp [hzero]) ?_ (receive_run ?_ hn)).2
  · exact Option.map_eq_some_iff.mp hone
  · intro m b hb clock x hx hle
    rw [List.mem_singleton] at hb
    cases hx
    rw [hb] at hle
    exact absurd hle (by decide)

/-- The node holds its origin block, receives the rival, and takes it over. -/
theorem originPinned_fails_at_rivalGenesis : ∃ n₁,
    receive (Sample.platform true) Sample.now [Sample.genesis] (fresh Sample.genesis.hash) = .ok n₁
      ∧ n₁.chain.origin.isZero = false ∧ n₁.chain.getHeight = 1 ∧ n₁.chain.OriginPinned
      ∧ ∃ n₂, receive (Sample.platform true) Sample.now [Sample.rivalGenesis] n₁ = .ok n₂
        ∧ ¬ n₂.chain.OriginPinned := by
  decide +kernel

end Node
