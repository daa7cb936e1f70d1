/-
# One hash, one history

A block names the block before it by its hash, and its hash is a digest of what the block
says.  Two nodes that store blocks with one hash at a position therefore store blocks that say
the same at every position below, whatever they have received and in whatever order.

The exception is a broken digest: two texts with one digest, or a text with the all-zero
digest, which a block that follows it leaves out of its own bytes.
-/
import Ruvname.StoreInvariant
import Ruvname.Transparency
import Ruvname.Preimage

open Exec

/-! ## Linked sequences

A library: sequences of texts each of which names the digest of the text before it. -/

namespace HashChain

variable {β δ : Type} (digest : β → δ) (proper : δ → Prop) (names : β → δ → Prop)

/-- From position `k` on the texts have no gap, and each names the digest of the one before it
if that is a proper one. -/
structure Linked (k : ℕ) (f : ℕ → Option β) : Prop where
  closed : ∀ m, k ≤ m → (f (m + 1)).isSome → (f m).isSome
  named : ∀ m p q, f m = some p → f (m + 1) = some q → proper (digest p) → names q (digest p)

/-- Two texts with one digest, or a digest that cannot be named. -/
def Broken (p q : β) : Prop :=
  (digest p = digest q ∧ p ≠ q) ∨ ¬ proper (digest p) ∨ ¬ proper (digest q)

variable {digest proper names} {k : ℕ} {f g : ℕ → Option β}

/-- **From one digest to all the texts below.**  Downwards from the position where the digests
agree: equal digests give equal texts, and equal texts name equal digests. -/
theorem Linked.agree_or_broken (hunique : ∀ q h h', names q h → names q h' → h = h')
    (hf : Linked digest proper names k f) (hg : Linked digest proper names k g) (n : ℕ) :
    ∀ p q, f (k + n) = some p → g (k + n) = some q → digest p = digest q →
      (∃ j p q, k ≤ j ∧ j ≤ k + n ∧ f j = some p ∧ g j = some q ∧ Broken digest proper p q)
        ∨ ∀ j, k ≤ j → j ≤ k + n → f j = g j := by
  induction n with
  | zero =>
    intro p q hp hq hdigest
    by_cases hpq : p = q
    · right
      intro j hk hj
      have hjk : j = k + 0 := by omega
      rw [hjk, hp, hq, hpq]
    · left
      exact ⟨k + 0, p, q, by omega, le_rfl, hp, hq, Or.inl ⟨hdigest, hpq⟩⟩
  | succ n ih =>
    intro p q hp hq hdigest
    by_cases hpq : p = q
    · subst hpq
      obtain ⟨p', hp'⟩ := Option.isSome_iff_exists.mp
        (hf.closed (k + n) (by omega) (by rw [Nat.add_assoc, hp]; rfl))
      obtain ⟨q', hq'⟩ := Option.isSome_iff_exists.mp
        (hg.closed (k + n) (by omega) (by rw [Nat.add_assoc, hq]; rfl))
      by_cases hproper : proper (digest p') ∧ proper (digest q')
      · have hbelow : digest p' = digest q' := by
          apply hunique p
          · exact hf.named _ p' p hp' hp hproper.1
          · exact hg.named _ q' p hq' hq hproper.2
        rcases ih p' q' hp' hq' hbelow with ⟨j, x, y, hkj, hj, hx, hy, hbroken⟩ | hagree
        · left
          exact ⟨j, x, y, hkj, by omega, hx, hy, hbroken⟩
        · right
          intro j hkj hj
          by_cases htop : j = k + (n + 1)
          · rw [htop, hp, hq]
          · exact hagree j hkj (by omega)
      · left
        rw [not_and_or] at hproper
        exact ⟨k + n, p', q', by omega, by omega, hp', hq', Or.inr hproper⟩
    · left
      exact ⟨k + (n + 1), p, q, by omega, le_rfl, hp, hq, Or.inl ⟨hdigest, hpq⟩⟩

end HashChain

/-! ## What a block says -/

namespace Block

/-- The bytes of a block that its hash is the digest of. -/
def hashed (b : Block) : List UInt8 := b.cleared.asBytesCompact

theorem hashed_collapse (b : Block) : b.collapse.hashed = b.hashed :=
  b.cleared.asBytesCompact_collapse

/-- The bytes are those of a block that follows a block with this hash. -/
def HashedNames (data : List UInt8) (hash : Bytes) : Prop :=
  hash.length = 32 ∧ ¬ hash.isZero ∧ ∃ b : Block, b.hashed = data ∧ b.prevBlockHash = hash

/-- A hash that is not all zero is written behind the numbers. -/
theorem hashed_eq {b : Block} (hzero : ¬ b.prevBlockHash.isZero) :
    ∃ rest, b.hashed = (leBytes 8 b.index.toNat ++ leBytes 8 b.timestamp.toUInt64.toNat
      ++ leBytes 4 b.version.toNat ++ leBytes 4 b.difficulty.toNat ++ leBytes 4 b.random.toNat
      ++ leBytes 8 b.nonce.toNat) ++ (bincodeStr (toHex b.prevBlockHash.data) ++ rest) := by
  have htext : b.prevBlockHash.text = some (toHex b.prevBlockHash.data) := by
    rw [Bytes.text, Bytes.unlessZero, if_neg hzero, Option.map_some]
  refine ⟨written [b.pubKey.text] ++ transactionBytes b.transaction, ?_⟩
  rw [hashed, asBytesCompact_cleared, texts, written_cons, htext]
  simp only [Option.map_some, Option.getD_some, List.append_assoc]

/-- **The bytes name one hash at most.** -/
theorem HashedNames.unique (data : List UInt8) (h h' : Bytes) (hn : HashedNames data h)
    (hn' : HashedNames data h') : h = h' := by
  obtain ⟨hlength, hzero, b, rfl, rfl⟩ := hn
  obtain ⟨hlength', hzero', b', hb', rfl⟩ := hn'
  obtain ⟨rest, hrest⟩ := hashed_eq hzero
  obtain ⟨rest', hrest'⟩ := hashed_eq hzero'
  rw [hrest, hrest'] at hb'
  -- the numbers have a fixed width
  obtain ⟨-, htexts⟩ := List.append_inj hb' (by simp only [List.length_append, length_leBytes])
  have hrepresentable : ∀ x : Bytes, x.length = 32 → Representable (toHex x.data) := by
    intro x hx
    have hsize : x.data.length = 32 := hx
    rw [Representable, utf8ByteSize_toHex, hsize]
    norm_num
  obtain ⟨htext, -⟩ := selfDelimiting_bincodeStr _ _ (hrepresentable _ hlength')
    (hrepresentable _ hlength) _ _ htexts
  exact (congrArg Bytes.mk (toHex_injective htext)).symm

end Block

/-! ## Every stored block has its hash -/

/-- Every block of the ledger has the digest of its bytes as its hash. -/
def Ledger.Hashed (P : Platform) (f : Ledger) : Prop :=
  ∀ n x, f n = some x → P.blakeout x.hashed = x.hash

namespace Ledger.Hashed

variable {P : Platform} {f f' : Ledger} {b : Block} {a : ChainAction}

theorem truncate (hf : f.Hashed P) (n : ℕ) : (f.truncate n).Hashed P :=
  fun m x hx => hf m x (truncate_eq_some hx).2

theorem put (hf : f.Hashed P) (hb : P.blakeout b.hashed = b.hash) : (f.put b).Hashed P := by
  intro m x hx
  rcases put_eq_some hx with hold | rfl
  · exact hf m x hold
  · exact hb

/-- **The step lemma.**  A block is only put into the ledger after `check_block_hash`. -/
theorem step {c c' : Chain} (hf : f.Hashed P) (h : c.Step P a c') (hstep : f.Step a f') :
    f'.Hashed P := by
  cases a with
  | judge now b =>
    cases hstep
    exact hf
  | height h' =>
    cases hstep
    exact hf
  | append now b =>
    obtain ⟨s, hgood, -⟩ := h
    have hpassed := ((Chain.checkBlock_accepting Chain.accepting_good).mp hgood).1
    rcases hstep with rfl | ⟨-, rfl⟩
    · exact hf
    · exact hf.put (of_decide_eq_true hpassed.checkBlockHash)
  | replace now b =>
    obtain ⟨s, hfork, -⟩ := h
    have hpassed := ((Chain.checkBlock_accepting Chain.accepting_fork).mp hfork).1
    obtain ⟨-, rfl⟩ := hstep
    exact (hf.truncate _).put (of_decide_eq_true hpassed.checkBlockHash)
  | recheck clock count =>
    rcases hstep with rfl | ⟨i, -, -, rfl⟩
    · exact hf
    · exact hf.truncate i
  | reopen =>
    rcases hstep with rfl | rfl
    · exact hf
    · intro m x hx
      cases hx

end Ledger.Hashed

namespace Node

variable {P : Platform} {n : Node}

/-- The blocks a reachable node reads from its store have their hashes. -/
theorem Reachable.getBlock_hashed (h : n.Reachable P) {i : UInt64} {b : Block}
    (hb : n.chain.getBlock i = some b) : P.blakeout b.hashed = b.hash := by
  obtain ⟨origin, run⟩ := h
  have hstart : ∃ f, (fresh origin).chain.Grounded f ∧ f.Hashed P := by
    obtain ⟨f, hg, hf⟩ := Chain.new_ledger Db.represents_empty origin
    refine ⟨f, hg, ?_⟩
    rcases hf with rfl | rfl <;>
      · intro m x hx
        cases hx
  obtain ⟨f, hg, hf⟩ := (chain_run run).invariant
    (I := fun c => ∃ f, c.Grounded f ∧ f.Hashed P) hstart (by
      rintro c a c' ⟨f, hg, hf⟩ - hstep
      obtain ⟨f', hg', hledger, -⟩ := hstep.ledger hg
      exact ⟨f', hg', hf.step hstep hledger⟩)
  rw [Chain.getBlock, hg.db.getBlock] at hb
  obtain ⟨x, hx, rfl⟩ := Option.map_eq_some_iff.mp hb
  rw [Block.hashed_collapse, Block.collapse_hash]
  exact hf _ x hx

/-! ## Two nodes -/

theorem wellStored_of_run {origin : Bytes}
    (run : Run (Step P) (fun _ i => i.Positive) (fresh origin) n) : n.WellStored := by
  have hstart : (fresh origin).WellStored :=
    ⟨⟨_, (storeInvariant_fresh origin).stored⟩, fun e he => by cases he⟩
  exact run.invariant hstart fun _ _ _ hm hi hstep => hstep.wellStored hm hi

/-- The blocks of a node whose blocks had positive indices are linked by what they say. -/
theorem linked_hashed {f : Ledger} (hreach : n.Reachable P) (hs : n.chain.Stored f) :
    HashChain.Linked P.blakeout (fun h => ¬ h.isZero) Block.HashedNames 1
      (fun m => (f m).map Block.hashed) where
  closed m hm hsome := by
    rw [Option.isSome_map] at hsome ⊢
    exact hs.db.closed (m + 1) hsome m hm (by omega)
  named m p q hp hq hproper := by
    obtain ⟨x, hx, rfl⟩ := Option.map_eq_some_iff.mp hp
    obtain ⟨y, hy, rfl⟩ := Option.map_eq_some_iff.mp hq
    have hhash : P.blakeout x.hashed = x.hash := by
      have hsmall : m < 2 ^ 64 := by
        have := hs.db.le_maxRows (by rw [hx]; rfl)
        have := Chain.maxRows_lt
        omega
      have hget : n.chain.getBlock (UInt64.ofNat m) = some x.collapse := by
        rw [Chain.getBlock, hs.db.getBlock, UInt64.toNat_ofNat_of_lt' hsmall, hx, Option.map_some]
      have := hreach.getBlock_hashed hget
      rwa [Block.hashed_collapse, Block.collapse_hash] at this
    exact ⟨P.blakeout_length _, hproper, y, rfl, by rw [hs.linked m x y hx hy, hhash]⟩

/-- The stored blocks at a position say the same in both nodes, and have the same hash. -/
def SameAt (n₁ n₂ : Node) (j : UInt64) : Prop :=
  ∃ x y, n₁.chain.getBlock j = some x ∧ n₂.chain.getBlock j = some y ∧ x.hashed = y.hashed
    ∧ x.hash = y.hash

/-- The stored blocks at a position show that the digest is broken. -/
def BrokenAt (P : Platform) (n₁ n₂ : Node) (j : UInt64) : Prop :=
  ∃ x y, n₁.chain.getBlock j = some x ∧ n₂.chain.getBlock j = some y
    ∧ HashChain.Broken P.blakeout (fun h => ¬ h.isZero) x.hashed y.hashed

/-- **One hash, one history.**  Two nodes that have received and mined blocks of positive index
only, in whatever order, and that store blocks with one hash at a position, store blocks that
say the same at every position up to there, or blocks that break the digest at one of them. -/
theorem run_commonHistory {n₁ n₂ : Node} {origin₁ origin₂ : Bytes}
    (run₁ : Run (Step P) (fun _ i => i.Positive) (fresh origin₁) n₁)
    (run₂ : Run (Step P) (fun _ i => i.Positive) (fresh origin₂) n₂) {i : UInt64} {b₁ b₂ : Block}
    (h₁ : n₁.chain.getBlock i = some b₁) (h₂ : n₂.chain.getBlock i = some b₂)
    (hhash : b₁.hash = b₂.hash) :
    (∃ j, 1 ≤ j ∧ j ≤ i ∧ BrokenAt P n₁ n₂ j) ∨ ∀ j, 1 ≤ j → j ≤ i → SameAt n₁ n₂ j := by
  have hreach₁ : n₁.Reachable P := ⟨origin₁, run₁.mono fun _ _ _ => trivial⟩
  have hreach₂ : n₂.Reachable P := ⟨origin₂, run₂.mono fun _ _ _ => trivial⟩
  obtain ⟨f₁, hs₁⟩ := (wellStored_of_run run₁).chain
  obtain ⟨f₂, hs₂⟩ := (wellStored_of_run run₂).chain
  have hread₁ : ∀ j, n₁.chain.getBlock j = (f₁ j.toNat).map Block.collapse :=
    fun j => hs₁.db.getBlock j
  have hread₂ : ∀ j, n₂.chain.getBlock j = (f₂ j.toNat).map Block.collapse :=
    fun j => hs₂.db.getBlock j
  have hdigest := (hreach₁.getBlock_hashed h₁).trans
    (hhash.trans (hreach₂.getBlock_hashed h₂).symm)
  rw [hread₁] at h₁
  rw [hread₂] at h₂
  obtain ⟨x₁, hx₁, rfl⟩ := Option.map_eq_some_iff.mp h₁
  obtain ⟨x₂, hx₂, rfl⟩ := Option.map_eq_some_iff.mp h₂
  rw [Block.hashed_collapse, Block.hashed_collapse] at hdigest
  have hpos := ((hs₁.isSome_iff _).mp (by rw [hx₁]; rfl)).1
  have hindex : 1 + (i.toNat - 1) = i.toNat := by omega
  have htop₁ : (f₁ (1 + (i.toNat - 1))).map Block.hashed = some x₁.hashed := by
    rw [hindex, hx₁, Option.map_some]
  have htop₂ : (f₂ (1 + (i.toNat - 1))).map Block.hashed = some x₂.hashed := by
    rw [hindex, hx₂, Option.map_some]
  have hlinked₁ := linked_hashed hreach₁ hs₁
  have hlinked₂ := linked_hashed hreach₂ hs₂
  rcases hlinked₁.agree_or_broken Block.HashedNames.unique hlinked₂ (i.toNat - 1) _ _
      htop₁ htop₂ hdigest
    with ⟨j, p, q, hj, hji, hp, hq, hbroken⟩ | hagree
  · obtain ⟨y₁, hy₁, rfl⟩ := Option.map_eq_some_iff.mp hp
    obtain ⟨y₂, hy₂, rfl⟩ := Option.map_eq_some_iff.mp hq
    have hjn : (UInt64.ofNat j).toNat = j :=
      UInt64.toNat_ofNat_of_lt' (lt_of_le_of_lt (by omega) i.toNat_lt)
    left
    refine ⟨UInt64.ofNat j, ?_, ?_, y₁.collapse, y₂.collapse, ?_, ?_, ?_⟩
    · rw [UInt64.le_iff_toNat_le, hjn]
      exact hj
    · rw [UInt64.le_iff_toNat_le, hjn]
      omega
    · rw [hread₁, hjn, hy₁, Option.map_some]
    · rw [hread₂, hjn, hy₂, Option.map_some]
    · rw [Block.hashed_collapse, Block.hashed_collapse]
      exact hbroken
  · right
    intro j hj hji
    have hj' : 1 ≤ j.toNat := UInt64.le_iff_toNat_le.mp hj
    have hji' := UInt64.le_iff_toNat_le.mp hji
    obtain ⟨y₁, hy₁⟩ := Option.isSome_iff_exists.mp
      (hs₁.db.closed i.toNat (by rw [hx₁]; rfl) j.toNat hj' hji')
    obtain ⟨y₂, hy₂⟩ := Option.isSome_iff_exists.mp
      (hs₂.db.closed i.toNat (by rw [hx₂]; rfl) j.toNat hj' hji')
    have hget₁ : n₁.chain.getBlock j = some y₁.collapse := by rw [hread₁, hy₁, Option.map_some]
    have hget₂ : n₂.chain.getBlock j = some y₂.collapse := by rw [hread₂, hy₂, Option.map_some]
    have hsame : y₁.collapse.hashed = y₂.collapse.hashed := by
      have := hagree j.toNat hj' (by omega)
      rw [hy₁, hy₂, Option.map_some, Option.map_some, Option.some.injEq] at this
      rw [Block.hashed_collapse, Block.hashed_collapse, this]
    refine ⟨_, _, hget₁, hget₂, hsame, ?_⟩
    rw [← hreach₁.getBlock_hashed hget₁, ← hreach₂.getBlock_hashed hget₂, hsame]

end Node

namespace Sample

/-- Two blocks and a domain on top of them. -/
def branch (nonce : UInt64) (identity : Bytes) : List Block :=
  [genesis, block 2 10 5 genesis.hash (key 2) (some (domain ⟨[7]⟩)),
    block 3 20 nonce (hash (leBytes 8 5)) (key 3) (some (domain identity))]

end Sample

/-- Two nodes that have gone apart after the second block. -/
theorem Node.run_commonHistory_branches : ∃ n₁ n₂,
    receive (Sample.platform true) Sample.now (Sample.branch 6 ⟨[8]⟩)
        (fresh Sample.genesis.hash) = .ok n₁
      ∧ receive (Sample.platform true) Sample.now (Sample.branch 7 ⟨[9]⟩)
        (fresh Bytes.default) = .ok n₂
      ∧ n₁.chain.lastBlock ≠ n₂.chain.lastBlock
      ∧ ((∃ j, 1 ≤ j ∧ j ≤ 2 ∧ BrokenAt (Sample.platform true) n₁ n₂ j)
        ∨ ∀ j, 1 ≤ j → j ≤ 2 → SameAt n₁ n₂ j) := by
  have hrun : ∃ n₁, receive (Sample.platform true) Sample.now (Sample.branch 6 ⟨[8]⟩)
        (fresh Sample.genesis.hash) = .ok n₁
      ∧ ∃ n₂, receive (Sample.platform true) Sample.now (Sample.branch 7 ⟨[9]⟩)
        (fresh Bytes.default) = .ok n₂
      ∧ n₁.chain.lastBlock ≠ n₂.chain.lastBlock
      ∧ (n₁.chain.getBlock 2).map (fun b => b.hash) = some (Sample.hash (leBytes 8 5))
      ∧ (n₂.chain.getBlock 2).map (fun b => b.hash) = some (Sample.hash (leBytes 8 5)) := by
    decide +kernel
  obtain ⟨n₁, hn₁, n₂, hn₂, hlast, hsecond₁, hsecond₂⟩ := hrun
  obtain ⟨b₁, hb₁, hhash₁⟩ := Option.map_eq_some_iff.mp hsecond₁
  obtain ⟨b₂, hb₂, hhash₂⟩ := Option.map_eq_some_iff.mp hsecond₂
  have hpositive : ∀ nonce identity, ∀ b ∈ Sample.branch nonce identity, 1 ≤ b.index := by
    intro nonce identity b hb
    simp only [Sample.branch, List.mem_cons, List.not_mem_nil, or_false] at hb
    rcases hb with rfl | rfl | rfl
    · show (1 : UInt64) ≤ 1
      decide
    · show (1 : UInt64) ≤ 2
      decide
    · show (1 : UInt64) ≤ 3
      decide
  refine ⟨n₁, n₂, hn₁, hn₂, hlast, ?_⟩
  apply run_commonHistory (receive_run ?_ hn₁) (receive_run ?_ hn₂) hb₁ hb₂
    (hhash₁.trans hhash₂.symm)
  · intro m b hb
    exact hpositive _ _ b hb
  · intro m b hb
    exact hpositive _ _ b hb
