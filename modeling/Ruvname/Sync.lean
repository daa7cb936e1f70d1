/-
# Synchronizing a chain

The blocks of a valid chain arrive in any order, each at least once, between announcements of
heights.  A block whose hash has been seen is never looked at again, so everything depends on
the bucket of future blocks: a block that has arrived and is not yet appended has to wait there.
The bucket is cleared when the height reaches the last announced one.  If this height is behind
the blocks that wait, they are lost; in every run without such a step all blocks end up stored.
-/
import Ruvname.Protocol
import Ruvname.History

open Exec

/-! ## The announced height -/

namespace Chain

variable {P : Platform} {now : UtcTime} {c c' : Chain} {b : Block} {f : Ledger} {s : SignersCache}

/-- The announced height has no part in judging a block. -/
theorem checkNewBlock_updateMaxHeight (h : UInt64) :
    (c.updateMaxHeight h).checkNewBlock P now b = c.checkNewBlock P now b := by
  have hsigners : ∀ full, (c.updateMaxHeight h).getBlockSigners P full = c.getBlockSigners P full := by
    intro full
    have hselect : (c.updateMaxHeight h).selectSigners P full = c.selectSigners P full := by
      apply selectSigners_of_db
      rfl
    rw [getBlockSigners_eq, getBlockSigners_eq, hselect]
    rfl
  have hsigned : ∀ key n i,
      (c.updateMaxHeight h).alreadySigned key n i = c.alreadySigned key n i := by
    intro key n
    induction n with
    | zero =>
      intro i
      rfl
    | succ n ih =>
      intro i
      unfold alreadySigned
      simp only [ih]
      rfl
  have hsigner : ∀ full,
      (c.updateMaxHeight h).isGoodSignerForBlock P b full = c.isGoodSignerForBlock P b full := by
    intro full
    unfold isGoodSignerForBlock
    simp only [hsigners, hsigned]
  have hsign : ∀ full, (c.updateMaxHeight h).isGoodSignBlock P b full = c.isGoodSignBlock P b full := by
    intro full
    unfold isGoodSignBlock
    simp only [hsigner]
    rfl
  unfold checkNewBlock checkBlock checkPosition signStage
  simp only [hsign]
  rfl

theorem addBlock_updateMaxHeight (h : UInt64) (hadd : c.addBlock b = .ok c') :
    (c.updateMaxHeight h).addBlock b = .ok (c'.updateMaxHeight h) := by
  unfold addBlock at hadd ⊢
  rw [show (c.updateMaxHeight h).db = c.db from rfl]
  cases hdb : c.db.addBlockToTable b with
  | none =>
    rw [hdb] at hadd
    cases hadd
    rfl
  | some db =>
    rw [hdb] at hadd
    dsimp only at hadd ⊢
    cases ht : b.transaction with
    | none =>
      rw [ht] at hadd
      cases hadd
      rfl
    | some t =>
      rw [ht] at hadd
      dsimp only at hadd ⊢
      cases hrow : db.addTransactionToTable b.index b.timestamp (ownedTransaction b.pubKey t) with
      | none =>
        rw [hrow] at hadd
        cases hadd
      | some db' =>
        rw [hrow] at hadd
        cases hadd
        rfl

theorem Grounded.updateMaxHeight (hg : c.Grounded f) (h : UInt64) : (c.updateMaxHeight h).Grounded f :=
  ⟨hg.db, hg.tip, hg.empty⟩

/-! ## Valid chains -/

/-- **A valid continuation.**  At every reading of the clock that occurs, each block is good
after its predecessors, and there is room for it. -/
def ValidChain (P : Platform) (T : UtcTime → Prop) : Chain → List Block → Prop
  | _, [] => True
  | c, b :: blocks => ∀ t, T t → ∃ s c', c.checkNewBlock P t b = .ok (.good, s)
    ∧ (c.db.addBlockToTable b).isSome
    ∧ { c with signers := s }.addBlock b = .ok c'
    ∧ ValidChain P T c' blocks

variable {T : UtcTime → Prop} {blocks : List Block}

theorem ValidChain.updateMaxHeight (hv : c.ValidChain P T blocks) (h : UInt64) :
    (c.updateMaxHeight h).ValidChain P T blocks := by
  induction blocks generalizing c with
  | nil => trivial
  | cons b blocks ih =>
    intro t ht
    obtain ⟨s, c', hcheck, hroom, hadd, hrest⟩ := hv t ht
    refine ⟨s, c'.updateMaxHeight h, ?_, hroom, addBlock_updateMaxHeight h hadd, ih hrest⟩
    rw [checkNewBlock_updateMaxHeight, hcheck]

/-- Every block of a valid continuation is good somewhere. -/
theorem ValidChain.exists_good (hv : c.ValidChain P T blocks) (hb : b ∈ blocks) {t : UtcTime}
    (ht : T t) : ∃ c' s, checkNewBlock P t c' b = .ok (.good, s) := by
  induction blocks generalizing c with
  | nil => cases hb
  | cons x blocks ih =>
    obtain ⟨s, c', hcheck, -, -, hrest⟩ := hv t ht
    rcases List.mem_cons.mp hb with rfl | hb
    · exact ⟨c, s, hcheck⟩
    · exact ih hrest hb

/-- A block that is good somewhere waits where it is ahead of the tip. -/
theorem checkNewBlock_ahead {c₀ : Chain} {l : Block} (hg : c.Grounded f) (hl : c.lastBlock = some l)
    (hgood : c₀.checkNewBlock P now b = .ok (.good, s)) (hahead : l.index.toNat + 1 < b.index.toNat) :
    c.checkNewBlock P now b = .ok (.future, c.signers) := by
  obtain ⟨hpassed, -⟩ := (checkBlock_accepting accepting_good).mp hgood
  obtain ⟨hnext, hnextNat⟩ := hg.addU64_tip (P := P) hl
  have hfuture : checkAhead P b c.lastBlock = .ok (some .future) := by
    rw [hl, checkAhead, hnext, ok_bind, Except.ok.injEq, verdictIf_eq_some]
    refine ⟨?_, rfl⟩
    rw [gt_iff_lt, UInt64.lt_iff_toNat_lt, hnextNat]
    exact hahead
  unfold checkNewBlock checkBlock checks
  rw [hpassed.version, hpassed.wrongHash, hpassed.clock, hfuture]
  rfl

/-- What appending the next block of a valid continuation leads to. -/
structure Appended (P : Platform) (T : UtcTime → Prop) (c : Chain) (b : Block) (blocks : List Block)
    (c' : Chain) : Prop where
  grounded : ∃ f, c'.Grounded f
  lastBlock : c'.lastBlock = some b
  maxHeight : c'.maxHeight = c.maxHeight
  valid : c'.ValidChain P T blocks
  stores : c'.Stores b
  others : ∀ x : Block, x.index ≠ b.index → c.Stores x → c'.Stores x

theorem ValidChain.append (hg : c.Grounded f) (hv : c.ValidChain P T (b :: blocks)) {t : UtcTime}
    (ht : T t) : ∃ s c', c.checkNewBlock P t b = .ok (.good, s)
      ∧ { c with signers := s }.addBlock b = .ok c' ∧ c.Appended P T b blocks c' := by
  obtain ⟨s, c', hcheck, hroom, hadd, hrest⟩ := hv t ht
  obtain ⟨-, hnone⟩ | ⟨-, hg', hadded⟩ := append_ledger hg hcheck hadd
  · rw [hnone] at hroom
    cases hroom
  · refine ⟨s, c', hcheck, hadd, ⟨_, hg'⟩, hadded.lastBlock, hadded.maxHeight, hrest, ?_, ?_⟩
    · rw [Stores, getBlock, hg'.db.getBlock, Ledger.put_self, Option.map_some]
    · intro x hx hstores
      rw [Stores, getBlock, hg.db.getBlock] at hstores
      rw [Stores, getBlock, hg'.db.getBlock, Ledger.put_of_ne fun h => hx (UInt64.toNat_inj.mp h)]
      exact hstores

end Chain

namespace Node

variable {P : Platform} {T : UtcTime → Prop} {g : Block} {blocks : List Block} {n : Node}
  {clock : ℕ → UtcTime}

/-! ## Inputs -/

/-- The input is a `Block` message that carries the block. -/
def Input.Delivers (P : Platform) (i : Input) (b : Block) : Prop :=
  ∃ data, i.message = .block b.index data ∧ Block.fromBytes P.checks data = .ok (some b)

/-- The input announces a height. -/
inductive Input.Announces (i : Input) : Prop where
  | shake {appVersion origin version isPublic randId height}
    (h : i.message = .shake appVersion origin version isPublic randId height)
  | ping {height hash} (h : i.message = .ping height hash)
  | pong {height hash} (h : i.message = .pong height hash)

/-- Such a message comes down to the block. -/
theorem handleMessage_of_delivers {i : Input} {b : Block} (h : i.Delivers P b) :
    n.handleMessage P i.session i.clock i.message = n.hearBlock P i.clock b := by
  obtain ⟨data, hmessage, hdata⟩ := h
  have hreceive : P2p.receiveBlock P.checks b.index data = .ok (some b) := by
    unfold P2p.receiveBlock
    rw [hdata, ok_bind]
    simp
  rw [hmessage, handleMessage, hreceive]
  rfl

/-- A message carries one block. -/
theorem Input.Delivers.unique {i : Input} {b b' : Block} (h : i.Delivers P b)
    (h' : i.Delivers P b') : b' = b := by
  obtain ⟨data, hmessage, hdata⟩ := h
  obtain ⟨data', hmessage', hdata'⟩ := h'
  have heq := hmessage.symm.trans hmessage'
  rw [P2p.Message.block.injEq] at heq
  rw [← heq.2, hdata, Except.ok.injEq, Option.some.injEq] at hdata'
  exact hdata'.symm

/-- A block of this index waits in the bucket. -/
def Waits (n : Node) (j : UInt64) : Prop := ∃ b, (j, b) ∈ n.futureBlocks

/-- **A block whose arrival loses others.**  It is the next block; the blocks from it up to the
announced height are there, the one after that is not, and a later one waits. -/
structure Loses (n : Node) (b : Block) : Prop where
  unseen : b.hash ∉ n.seenBlocks
  next : b.index.toNat = n.chain.getHeight.toNat + 1
  reached : b.index ≤ n.chain.maxHeight
  filled : ∀ j, b.index < j → j ≤ n.chain.maxHeight → n.Waits j
  stops : ∀ j : UInt64, j.toNat = n.chain.maxHeight.toNat + 1 → ¬ n.Waits j
  beyond : ∃ j, n.chain.maxHeight < j ∧ n.Waits j

/-- No input of the list loses a block when it is handled. -/
def Safe (P : Platform) : List Input → Node → Prop
  | [], _ => True
  | i :: inputs, n => (∀ b, i.Delivers P b → ¬ n.Loses b)
    ∧ ∀ n' state, n.handleMessage P i.session i.clock i.message = .ok (n', state) →
      Safe P inputs n'

/-! ## The bucket -/

/-- The blocks from index 2 on. -/
def Indexed (blocks : List Block) : Prop := ∀ j b, blocks[j]? = some b → b.index.toNat = j + 2

/-- Blakeout does not collide on the blocks of the list. -/
def CollisionFree (P : Platform) (blocks : List Block) : Prop := ∀ b ∈ blocks, ∀ b' ∈ blocks,
  P.blakeout b.cleared.asBytesCompact = P.blakeout b'.cleared.asBytesCompact →
    b.cleared.asBytesCompact = b'.cleared.asBytesCompact

/-- The hashed bytes begin with the index, so the hashes tell the blocks apart. -/
theorem CollisionFree.nodup (hcoll : CollisionFree P blocks) (hix : Indexed blocks)
    (hgood : ∀ b ∈ blocks, Chain.checkHash P b = .ok none) : (blocks.map Block.hash).Nodup := by
  have hdigest : ∀ b ∈ blocks, P.blakeout b.cleared.asBytesCompact = b.hash := by
    intro b hb
    have hcheck := hgood b hb
    rw [Chain.checkHash, Except.ok.injEq, verdictIf_eq_none, not_not] at hcheck
    exact of_decide_eq_true hcheck
  rw [List.Nodup, List.pairwise_map, List.pairwise_iff_getElem]
  intro i j hi hj hlt heq
  have hi' : blocks[i] ∈ blocks := List.getElem_mem hi
  have hj' : blocks[j] ∈ blocks := List.getElem_mem hj
  have hbytes := hcoll _ hi' _ hj' (by rw [hdigest _ hi', hdigest _ hj', heq])
  have hindex : blocks[i].index.toNat = blocks[j].index.toNat := by
    simp only [Block.asBytesCompact, List.append_assoc] at hbytes
    exact (leBytes_append_inj (UInt64.toNat_lt _) (UInt64.toNat_lt _) hbytes).1
  rw [hix i _ (List.getElem?_eq_getElem hi), hix j _ (List.getElem?_eq_getElem hj)] at hindex
  omega

/-- The entries of the bucket are blocks of the list from a position on. -/
def Holds (blocks : List Block) (k : ℕ) (future : FutureBlocks) : Prop :=
  ∀ e ∈ future, ∃ j b, k ≤ j ∧ blocks[j]? = some b ∧ e = (b.index, b)

/-- Where the loop over the bucket ends. -/
structure Drained (P : Platform) (T : UtcTime → Prop) (blocks : List Block) (c : Chain)
    (future : FutureBlocks) (k : ℕ) (c' : Chain) (future' : FutureBlocks) (m : ℕ) : Prop where
  le : k ≤ m
  bound : k ≤ blocks.length → m ≤ blocks.length
  grounded : ∃ f, c'.Grounded f
  tip : ∃ l, c'.lastBlock = some l ∧ l.index.toNat = m + 1
  maxHeight : c'.maxHeight = c.maxHeight
  valid : c'.ValidChain P T (blocks.drop m)
  stores : ∀ j b, k ≤ j → j < m → blocks[j]? = some b → c'.Stores b
  others : ∀ x : Block, x.index.toNat < k + 2 → c.Stores x → c'.Stores x
  holds : Holds blocks (m + 1) future'
  sub : ∀ e ∈ future', e ∈ future
  kept : ∀ e ∈ future, m + 2 < e.1.toNat → e ∈ future'
  filled : ∀ j : UInt64, k + 2 ≤ j.toNat → j.toNat < m + 2 → ∃ b, (j, b) ∈ future
  stops : ∀ e ∈ future, e.1.toNat ≠ m + 2

/-- Nothing to take out. -/
theorem Drained.refl {c : Chain} {future : FutureBlocks} {k : ℕ} {l : Block} (hix : Indexed blocks)
    (hg : ∃ f, c.Grounded f) (hl : c.lastBlock = some l) (hlk : l.index.toNat = k + 1)
    (hv : c.ValidChain P T (blocks.drop k)) (hold : Holds blocks k future)
    (hstops : ∀ e ∈ future, e.1.toNat ≠ k + 2) : Drained P T blocks c future k c future k where
  le := le_refl k
  bound h := h
  grounded := hg
  tip := ⟨l, hl, hlk⟩
  maxHeight := rfl
  valid := hv
  stores j b hk hj := by omega
  others x _ h := h
  holds e he := by
    obtain ⟨j, b, hk, hb, rfl⟩ := hold e he
    have hindex := hix j b hb
    have hne : b.index.toNat ≠ k + 2 := hstops _ he
    exact ⟨j, b, by omega, hb, rfl⟩
  sub e he := he
  kept e he _ := he
  filled j h₁ h₂ := by omega
  stops := hstops

/-- One block taken out, and then the rest. -/
theorem Drained.step {c c₁ c' : Chain} {future future' : FutureBlocks} {k m : ℕ} {b : Block}
    (hix : Indexed blocks) (hb : blocks[k]? = some b) (hmem : (b.index, b) ∈ future)
    (happ : c.Appended P T b (blocks.drop (k + 1)) c₁) (hrest : Drained P T blocks c₁
      (future.remove b.index) (k + 1) c' future' m) : Drained P T blocks c future k c' future' m where
  le := (Nat.le_succ k).trans hrest.le
  bound _ := hrest.bound (List.getElem?_eq_some_iff.mp hb).1
  grounded := hrest.grounded
  tip := hrest.tip
  maxHeight := hrest.maxHeight.trans happ.maxHeight
  valid := hrest.valid
  stores j x hk hj hx := by
    rcases Nat.eq_or_lt_of_le hk with rfl | hlt
    · rw [hb, Option.some.injEq] at hx
      subst hx
      exact hrest.others b (by rw [hix k b hb]; omega) happ.stores
    · exact hrest.stores j x hlt hj hx
  others x hx hstores := by
    have hne : x.index ≠ b.index := by
      intro h
      rw [h, hix k b hb] at hx
      omega
    exact hrest.others x (by omega) (happ.others x hne hstores)
  holds := hrest.holds
  sub e he := List.mem_of_mem_filter (hrest.sub e he)
  kept e he hlt := by
    apply hrest.kept e _ hlt
    have hindex := hix k b hb
    have hle := hrest.le
    refine List.mem_filter.mpr ⟨he, decide_eq_true ?_⟩
    intro h
    rw [h, hindex] at hlt
    omega
  filled j h₁ h₂ := by
    by_cases hj : j.toNat = k + 2
    · have hindex : j = b.index := UInt64.toNat_inj.mp (by rw [hj, hix k b hb])
      exact ⟨b, hindex ▸ hmem⟩
    · obtain ⟨x, hx⟩ := hrest.filled j (by omega) h₂
      exact ⟨x, List.mem_of_mem_filter hx⟩
  stops e he := by
    have hindex := hix k b hb
    have hle := hrest.le
    by_cases heq : e.1 = b.index
    · rw [heq, hindex]
      omega
    · exact hrest.stops e (List.mem_filter.mpr ⟨he, decide_eq_true heq⟩)

/-- **The loop over the bucket** appends the blocks that wait for their turn. -/
theorem drainFuture_valid (hix : Indexed blocks) {fuel : ℕ} {c : Chain} {future : FutureBlocks}
    {next : UInt64} {k : ℕ} {l : Block} (hclock : ∀ i, T (clock i)) (hg : ∃ f, c.Grounded f)
    (hl : c.lastBlock = some l) (hlk : l.index.toNat = k + 1)
    (hv : c.ValidChain P T (blocks.drop k)) (hnext : next.toNat = k + 2)
    (hold : Holds blocks k future) (hfuel : future.length ≤ fuel) :
    ∃ c' future' m, drainFuture P fuel clock c future next = .ok (c', future')
      ∧ Drained P T blocks c future k c' future' m := by
  induction fuel generalizing clock c future next k l with
  | zero =>
    have hempty : future = [] := List.eq_nil_of_length_eq_zero (by omega)
    subst hempty
    exact ⟨c, [], k, rfl, Drained.refl hix hg hl hlk hv hold (by simp)⟩
  | succ fuel ih =>
    rw [drainFuture]
    cases hlookup : future.lookup next with
    | none =>
      rw [List.lookup_eq_none_iff] at hlookup
      refine ⟨c, future, k, rfl, Drained.refl hix hg hl hlk hv hold ?_⟩
      intro e he h
      have hne := hlookup e he
      have heq : next = e.1 := UInt64.toNat_inj.mp (by rw [hnext, h])
      simp [heq] at hne
    | some x =>
      obtain ⟨l₁, l₂, heq, -⟩ := List.lookup_eq_some_iff.mp hlookup
      have hmem : (next, x) ∈ future := by simp [heq]
      -- the entry is the block at position `k`
      obtain ⟨j, b, -, hb, hentry⟩ := hold _ hmem
      rw [Prod.mk.injEq] at hentry
      obtain ⟨rfl, rfl⟩ := hentry
      have hjk : j = k := by
        have := hix j x hb
        omega
      subst hjk
      obtain ⟨f, hg⟩ := hg
      have hdrop : blocks.drop j = x :: blocks.drop (j + 1) := by
        obtain ⟨hlt, rfl⟩ := List.getElem?_eq_some_iff.mp hb
        exact List.drop_eq_getElem_cons hlt
      rw [hdrop] at hv
      obtain ⟨s, c₁, hcheck, hadd, happ⟩ := hv.append hg (hclock 0)
      obtain ⟨f₁, hg₁⟩ := happ.grounded
      obtain ⟨hsucc, hsuccNat⟩ := hg₁.addU64_tip (P := P) happ.lastBlock
      have hlength : (future.remove x.index).length < future.length := by
        apply List.length_filter_lt_length_iff_exists.mpr
        exact ⟨_, hmem, by simp⟩
      have hold' : Holds blocks (j + 1) (future.remove x.index) := by
        intro e he
        obtain ⟨hin, hne⟩ := List.mem_filter.mp he
        obtain ⟨i, b, hi, hb', rfl⟩ := hold e hin
        have hne : b.index ≠ x.index := of_decide_eq_true hne
        refine ⟨i, b, ?_, hb', rfl⟩
        rcases Nat.eq_or_lt_of_le hi with rfl | hlt
        · rw [hb, Option.some.injEq] at hb'
          exact absurd (by rw [hb']) hne
        · exact hlt
      obtain ⟨c', future', m, hloop, hdrained⟩ := ih
        (fun i => hclock (i + 1)) ⟨f₁, hg₁⟩ happ.lastBlock (by rw [hnext]) happ.valid
        (by rw [hsuccNat, hnext]) hold' (by omega)
      refine ⟨c', future', m, ?_, Drained.step hix hb hmem happ hdrained⟩
      simp only [hcheck, ok_bind, if_true, hadd, hsucc]
      exact hloop

/-! ## The node while it synchronizes -/

/-- **No block is lost.**  The blocks below position `k` are stored; one from `k` on that has
been seen waits in the bucket, and nothing else does. -/
structure Syncing (P : Platform) (T : UtcTime → Prop) (g : Block) (blocks : List Block) (n : Node)
    (k : ℕ) : Prop where
  bound : k ≤ blocks.length
  grounded : ∃ f, n.chain.Grounded f
  tip : ∃ l, n.chain.lastBlock = some l ∧ l.index.toNat = k + 1
  valid : n.chain.ValidChain P T (blocks.drop k)
  first : n.chain.Stores g
  stores : ∀ j b, j < k → blocks[j]? = some b → n.chain.Stores b
  seen : ∀ j b, j < k → blocks[j]? = some b → b.hash ∈ n.seenBlocks
  holds : Holds blocks (k + 1) n.futureBlocks
  heard : ∀ e ∈ n.futureBlocks, e.2.hash ∈ n.seenBlocks
  kept : ∀ j b, k ≤ j → blocks[j]? = some b → b.hash ∈ n.seenBlocks →
    (b.index, b) ∈ n.futureBlocks

/-- Blocks at different positions have different hashes. -/
theorem hash_ne_of_ne (hhash : (blocks.map Block.hash).Nodup) {i j : ℕ} {x b : Block}
    (hx : blocks[i]? = some x) (hb : blocks[j]? = some b) (hij : i ≠ j) : x.hash ≠ b.hash := by
  intro heq
  apply hij
  have hx' : (blocks.map Block.hash)[i]? = some x.hash := by
    rw [List.getElem?_map, hx]
    rfl
  have hb' : (blocks.map Block.hash)[j]? = some x.hash := by
    rw [List.getElem?_map, hb, heq]
    rfl
  exact (List.getElem?_inj (List.getElem?_eq_some_iff.mp hx').1 hhash).mp (hx'.trans hb'.symm)

namespace Syncing

variable {k : ℕ} (hs : Syncing P T g blocks n k)
include hs

theorem getHeight : n.chain.getHeight.toNat = k + 1 := by
  obtain ⟨l, hl, hlk⟩ := hs.tip
  rw [Chain.getHeight_of_some hl, hlk]

omit hs in
theorem seenBlocks_noteHeight (height : UInt64) : (n.noteHeight height).seenBlocks = n.seenBlocks := by
  unfold Node.noteHeight
  split <;> rfl

/-- The announced height does not matter. -/
theorem noteHeight (height : UInt64) : Syncing P T g blocks (n.noteHeight height) k := by
  unfold Node.noteHeight
  split
  · obtain ⟨f, hf⟩ := hs.grounded
    exact ⟨hs.bound, ⟨f, hf.updateMaxHeight height⟩, hs.tip, hs.valid.updateMaxHeight height, hs.first,
      hs.stores, hs.seen, hs.holds, hs.heard, hs.kept⟩
  · exact hs

/-- An announcement is answered, and at most raises the announced height. -/
theorem announce {i : Input} (hi : i.Announces) :
    ∃ n' state, n.handleMessage P i.session i.clock i.message = .ok (n', state)
      ∧ Syncing P T g blocks n' k ∧ n'.seenBlocks = n.seenBlocks := by
  have hheight : ∀ height hash otherwise, ∃ n' state,
      n.handleHeight P height hash otherwise = .ok (n', state)
        ∧ Syncing P T g blocks n' k ∧ n'.seenBlocks = n.seenBlocks := by
    intro height hash otherwise
    obtain ⟨f, hf⟩ := hs.grounded
    obtain ⟨l, hl, -⟩ := hs.tip
    unfold handleHeight
    split
    · rw [Chain.getHeight_of_some hl, (hf.addU64_tip hl).1, ok_bind]
      exact ⟨_, _, rfl, hs.noteHeight height, seenBlocks_noteHeight height⟩
    · split
      · exact ⟨_, _, rfl, hs, rfl⟩
      · exact ⟨_, _, rfl, hs, rfl⟩
  cases hi with
  | shake h =>
    rw [h, handleMessage, handleShake]
    split_ifs
    all_goals first
      | exact ⟨_, _, rfl, hs, rfl⟩
      | exact ⟨_, _, rfl, hs.noteHeight _, seenBlocks_noteHeight _⟩
  | ping h =>
    rw [h, handleMessage]
    split
    · exact ⟨_, _, rfl, hs, rfl⟩
    · exact hheight _ _ _
  | pong h =>
    rw [h, handleMessage]
    split
    · exact ⟨_, _, rfl, hs, rfl⟩
    · exact hheight _ _ _

/-- A block that is further up waits. -/
theorem hearBlock_ahead (hix : Indexed blocks) (hhash : (blocks.map Block.hash).Nodup)
    (hclock : ∀ i, T (clock i)) {j : ℕ} {b : Block} (hb : blocks[j]? = some b) (hj : k < j)
    (hunseen : b.hash ∉ n.seenBlocks) :
    ∃ n' state, n.hearBlock P clock b = .ok (n', state)
      ∧ Syncing P T g blocks n' k ∧ n'.seenBlocks = b.hash :: n.seenBlocks := by
  obtain ⟨f, hf⟩ := hs.grounded
  obtain ⟨l, hl, hlk⟩ := hs.tip
  have hindex := hix j b hb
  have hmem : b ∈ blocks.drop k := by
    rw [List.mem_iff_getElem?]
    exact ⟨j - k, by rw [List.getElem?_drop, show k + (j - k) = j from by omega, hb]⟩
  obtain ⟨c₀, s, hgood⟩ := hs.valid.exists_good hmem (hclock 0)
  have hcheck := Chain.checkNewBlock_ahead hf hl hgood (by omega)
  refine ⟨⟨n.chain, n.futureBlocks.insert b.index b, b.hash :: n.seenBlocks⟩, .idle, ?_, ?_, rfl⟩
  · unfold hearBlock handleBlock
    dsimp only
    rw [if_neg hunseen, hcheck]
    rfl
  · refine ⟨hs.bound, ⟨f, hf⟩, ⟨l, hl, hlk⟩, hs.valid, hs.first, hs.stores, ?_, ?_, ?_, ?_⟩
    · intro i x hi hx
      exact List.mem_cons_of_mem _ (hs.seen i x hi hx)
    · intro e he
      rcases List.mem_cons.mp he with rfl | he
      · exact ⟨j, b, hj, hb, rfl⟩
      · exact hs.holds e (List.mem_of_mem_filter he)
    · intro e he
      rcases List.mem_cons.mp he with rfl | he
      · exact List.mem_cons_self
      · exact List.mem_cons_of_mem _ (hs.heard e (List.mem_of_mem_filter he))
    · intro i x hi hx hseen
      by_cases hij : i = j
      · subst hij
        rw [hb, Option.some.injEq] at hx
        subst hx
        exact List.mem_cons_self
      · -- another block has another hash and another index
        have hne := hash_ne_of_ne hhash hx hb hij
        have hold := hs.kept i x hi hx ((List.mem_cons.mp hseen).resolve_left hne)
        refine List.mem_cons_of_mem _ (List.mem_filter.mpr ⟨hold, decide_eq_true ?_⟩)
        intro h
        have hsame : x.index = b.index := h
        have := hix i x hx
        rw [hsame, hindex] at this
        omega

/-! What the loop over the bucket makes of the next block, which has been appended. -/

section

variable {b : Block} {c₁ c' : Chain} {future' : FutureBlocks} {m : ℕ}

/-- The blocks below the position where the loop ends are stored: those that were, the new one,
and those from the bucket. -/
theorem stores_drained (hix : Indexed blocks) (hb : blocks[k]? = some b)
    (happ : n.chain.Appended P T b (blocks.drop (k + 1)) c₁)
    (hd : Drained P T blocks c₁ n.futureBlocks (k + 1) c' future' m) {j : ℕ} {x : Block} (hj : j < m)
    (hx : blocks[j]? = some x) : c'.Stores x := by
  have hxindex := hix j x hx
  rcases lt_trichotomy j k with hjk | rfl | hkj
  · refine hd.others x (by omega) (happ.others x ?_ (hs.stores j x hjk hx))
    intro h
    rw [h, hix k b hb] at hxindex
    omega
  · rw [hb, Option.some.injEq] at hx
    subst hx
    exact hd.others b (by omega) happ.stores
  · exact hd.stores j x (by omega) hj hx

/-- They have been seen: what comes out of the bucket was heard before. -/
theorem seen_drained (hix : Indexed blocks) (hb : blocks[k]? = some b)
    (hd : Drained P T blocks c₁ n.futureBlocks (k + 1) c' future' m) {j : ℕ} {x : Block} (hj : j < m)
    (hx : blocks[j]? = some x) : x.hash ∈ b.hash :: n.seenBlocks := by
  rcases lt_trichotomy j k with hjk | rfl | hkj
  · exact List.mem_cons_of_mem _ (hs.seen j x hjk hx)
  · rw [hb, Option.some.injEq] at hx
    subst hx
    exact List.mem_cons_self
  · have hxindex := hix j x hx
    obtain ⟨y, hy⟩ := hd.filled x.index (by omega) (by omega)
    obtain ⟨i, z, -, hz, hentry⟩ := hs.holds _ hy
    rw [Prod.mk.injEq] at hentry
    have hij : i = j := by
      have := hix i z hz
      rw [← hentry.1] at this
      omega
    rw [hij, hx, Option.some.injEq] at hz
    rw [hz, ← hentry.2]
    exact List.mem_cons_of_mem _ (hs.heard _ hy)

/-- The node goes on from where the loop ends. -/
theorem drained (hix : Indexed blocks) (hg : g.index.toNat = 1)
    (hhash : (blocks.map Block.hash).Nodup) (hb : blocks[k]? = some b)
    (happ : n.chain.Appended P T b (blocks.drop (k + 1)) c₁)
    (hd : Drained P T blocks c₁ n.futureBlocks (k + 1) c' future' m) :
    Syncing P T g blocks ⟨c', future', b.hash :: n.seenBlocks⟩ m := by
  have hindex := hix k b hb
  have hle := hd.le
  refine ⟨hd.bound (List.getElem?_eq_some_iff.mp hb).1, hd.grounded, hd.tip, hd.valid, ?_,
    fun j x hj hx => hs.stores_drained hix hb happ hd hj hx,
    fun j x hj hx => hs.seen_drained hix hb hd hj hx, hd.holds, ?_, ?_⟩
  · refine hd.others g (by omega) (happ.others g ?_ hs.first)
    intro h
    rw [h, hindex] at hg
    omega
  · intro e he
    exact List.mem_cons_of_mem _ (hs.heard e (hd.sub e he))
  · intro j x hj hx hseen
    have hxindex := hix j x hx
    have hne := hash_ne_of_ne hhash hx hb (by omega)
    have hold := hs.kept j x (by omega) hx ((List.mem_cons.mp hseen).resolve_left hne)
    have hstops : x.index.toNat ≠ m + 2 := hd.stops _ hold
    exact hd.kept _ hold (show m + 2 < x.index.toNat from by omega)

/-- If the loop ends at the announced height, then what is left in the bucket is lost. -/
theorem loses_of_left (hix : Indexed blocks) (hb : blocks[k]? = some b)
    (hunseen : b.hash ∉ n.seenBlocks)
    (hd : Drained P T blocks c₁ n.futureBlocks (k + 1) c' future' m)
    (hreached : c'.getHeight = n.chain.maxHeight) {e : UInt64 × Block} (he : e ∈ future') :
    n.Loses b := by
  have hindex := hix k b hb
  have hle := hd.le
  have hmax : n.chain.maxHeight.toNat = m + 1 := by
    obtain ⟨l, hl, hlm⟩ := hd.tip
    rw [← hreached, Chain.getHeight_of_some hl, hlm]
  obtain ⟨j, x, hj, hx, rfl⟩ := hd.holds e he
  have hxindex := hix j x hx
  refine ⟨hunseen, by rw [hs.getHeight, hindex], ?_, ?_, ?_, x.index, ?_, x, hd.sub _ he⟩
  · rw [UInt64.le_iff_toNat_le, hmax, hindex]
    omega
  · intro i h₁ h₂
    rw [UInt64.lt_iff_toNat_lt, hindex] at h₁
    rw [UInt64.le_iff_toNat_le, hmax] at h₂
    exact hd.filled i (by omega) (by omega)
  · rintro i hi ⟨y, hy⟩
    rw [hmax] at hi
    exact hd.stops _ hy hi
  · rw [UInt64.lt_iff_toNat_lt, hmax, hxindex]
    omega

end

/-- The next block is appended, with those that waited for it. -/
theorem hearBlock_next (hix : Indexed blocks) (hg : g.index.toNat = 1)
    (hhash : (blocks.map Block.hash).Nodup) (hclock : ∀ i, T (clock i)) {b : Block}
    (hb : blocks[k]? = some b) (hunseen : b.hash ∉ n.seenBlocks) (hsafe : ¬ n.Loses b) :
    ∃ n' state m, n.hearBlock P clock b = .ok (n', state)
      ∧ Syncing P T g blocks n' m ∧ n'.seenBlocks = b.hash :: n.seenBlocks := by
  obtain ⟨f, hf⟩ := hs.grounded
  have hindex := hix k b hb
  have hdrop : blocks.drop k = b :: blocks.drop (k + 1) := by
    obtain ⟨hlt, rfl⟩ := List.getElem?_eq_some_iff.mp hb
    exact List.drop_eq_getElem_cons hlt
  have hvalid := hs.valid
  rw [hdrop] at hvalid
  obtain ⟨s, c₁, hcheck, hadd, happ⟩ := hvalid.append hf (hclock 0)
  obtain ⟨f₁, hf₁⟩ := happ.grounded
  obtain ⟨hnext, hnextNat⟩ := hf₁.addU64_tip (P := P) happ.lastBlock
  have hnextIndex : (b.index + 1).toNat = k + 1 + 2 := by omega
  obtain ⟨c', future', m, hloop, hd⟩ := drainFuture_valid hix (fun i => hclock (i + 1))
    happ.grounded happ.lastBlock (by omega) happ.valid hnextIndex hs.holds
    (le_refl n.futureBlocks.length)
  -- if the bucket is cleared there is nothing left in it
  have hclear : (if c'.getHeight = n.chain.maxHeight then [] else future') = future' := by
    split
    · rename_i hreached
      by_contra hne
      obtain ⟨e, he⟩ := List.exists_mem_of_ne_nil future' (Ne.symm hne)
      exact hsafe (hs.loses_of_left hix hb hunseen hd hreached he)
    · rfl
  refine ⟨_, .idle, m, ?_, hs.drained hix hg hhash hb happ hd, rfl⟩
  unfold hearBlock
  rw [if_neg hunseen, handleBlock_good hcheck hnext hadd, hloop, ok_bind, ok_bind]
  dsimp only
  rw [hclear]
  rfl

/-- **One message.**  Whatever is announced or delivered, no block is lost unless the step is
one that loses blocks. -/
theorem handleMessage (hix : Indexed blocks) (hg : g.index.toNat = 1)
    (hhash : (blocks.map Block.hash).Nodup) {i : Input} (hclock : ∀ j, T (i.clock j))
    (hi : i.Announces ∨ ∃ b ∈ blocks, i.Delivers P b) (hsafe : ∀ b, i.Delivers P b → ¬ n.Loses b) :
    ∃ n' state m, n.handleMessage P i.session i.clock i.message = .ok (n', state)
      ∧ Syncing P T g blocks n' m ∧ (∀ x ∈ n.seenBlocks, x ∈ n'.seenBlocks)
      ∧ ∀ b, i.Delivers P b → b.hash ∈ n'.seenBlocks := by
  rcases hi with hi | ⟨b, hmem, hdelivers⟩
  · obtain ⟨n', state, h, hs', hseen⟩ := hs.announce hi
    refine ⟨n', state, k, h, hs', fun x hx => hseen ▸ hx, ?_⟩
    rintro b ⟨data, hmessage, -⟩
    cases hi with
    | shake h => cases h.symm.trans hmessage
    | ping h => cases h.symm.trans hmessage
    | pong h => cases h.symm.trans hmessage
  · obtain ⟨j, hb⟩ := List.mem_iff_getElem?.mp hmem
    rw [handleMessage_of_delivers hdelivers]
    by_cases hunseen : b.hash ∈ n.seenBlocks
    · refine ⟨n, .idle, k, if_pos hunseen, hs, fun x hx => hx, fun b' h => ?_⟩
      rw [hdelivers.unique h]
      exact hunseen
    · have hstep : ∃ n' state m, n.hearBlock P i.clock b = .ok (n', state)
          ∧ Syncing P T g blocks n' m ∧ n'.seenBlocks = b.hash :: n.seenBlocks := by
        rcases Nat.lt_trichotomy j k with hlt | rfl | hgt
        · exact absurd (hs.seen j b hlt hb) hunseen
        · exact hs.hearBlock_next hix hg hhash hclock hb hunseen (hsafe b hdelivers)
        · obtain ⟨n', state, h, hs'⟩ := hs.hearBlock_ahead hix hhash hclock hb hgt hunseen
          exact ⟨n', state, k, h, hs'⟩
      obtain ⟨n', state, m, h, hs', hseen⟩ := hstep
      refine ⟨n', state, m, h, hs', fun x hx => ?_, fun b' hb' => ?_⟩
      · rw [hseen]
        exact List.mem_cons_of_mem _ hx
      · rw [hdelivers.unique hb', hseen]
        exact List.mem_cons_self

end Syncing

/-! ## Whole runs -/

/-- **A run of messages**: no block is lost along the way, and every message is handled. -/
theorem hearAll_syncing (hix : Indexed blocks) (hg : g.index.toNat = 1)
    (hhash : (blocks.map Block.hash).Nodup) {inputs : List Input} {k : ℕ}
    (hs : Syncing P T g blocks n k) (hclock : ∀ i ∈ inputs, ∀ j, T (i.clock j))
    (hinputs : ∀ i ∈ inputs, i.Announces ∨ ∃ b ∈ blocks, i.Delivers P b) (hsafe : Safe P inputs n) :
    ∃ n' m, hearAll P inputs n = .ok n' ∧ Syncing P T g blocks n' m
      ∧ (∀ x ∈ n.seenBlocks, x ∈ n'.seenBlocks)
      ∧ ∀ i ∈ inputs, ∀ b, i.Delivers P b → b.hash ∈ n'.seenBlocks := by
  induction inputs generalizing n k with
  | nil => exact ⟨n, k, rfl, hs, fun x hx => hx, by simp⟩
  | cons i inputs ih =>
    obtain ⟨n₁, state, k₁, hstep, hs₁, hmono, hdelivered⟩ := hs.handleMessage hix hg hhash
      (hclock i List.mem_cons_self) (hinputs i List.mem_cons_self) hsafe.1
    obtain ⟨n', m, hrest, hs', hmono', hdelivered'⟩ := ih hs₁
      (fun i' hi' => hclock i' (List.mem_cons_of_mem i hi'))
      (fun i' hi' => hinputs i' (List.mem_cons_of_mem i hi')) (hsafe.2 n₁ state hstep)
    refine ⟨n', m, ?_, hs', fun x hx => hmono' x (hmono x hx), ?_⟩
    · rw [hearAll, hstep, ok_bind]
      exact hrest
    · intro i' hi' b hb
      rcases List.mem_cons.mp hi' with rfl | hi'
      · exact hmono' _ (hdelivered b hb)
      · exact hdelivered' i' hi' b hb

/-- **No lost blocks.**  A node that holds the origin block hears the blocks of a valid chain in
any order, each at least once, between announcements of heights.  If no step loses blocks, the
node ends with all of them stored. -/
theorem hearAll_stores (hn : n.Reachable P) (hheight : n.chain.getHeight = 1)
    (hfirst : n.chain.Stores g) (hg : g.index.toNat = 1) (hfuture : n.futureBlocks = [])
    (hunseen : ∀ b ∈ blocks, b.hash ∉ n.seenBlocks) (hix : Indexed blocks)
    (hcoll : CollisionFree P blocks) (hvalid : n.chain.ValidChain P T blocks)
    {inputs : List Input} (hclock : ∀ i ∈ inputs, ∀ j, T (i.clock j))
    (hinputs : ∀ i ∈ inputs, i.Announces ∨ ∃ b ∈ blocks, i.Delivers P b)
    (hall : ∀ b ∈ blocks, ∃ i ∈ inputs, i.Delivers P b) (hsafe : Safe P inputs n) :
    ∃ n', hearAll P inputs n = .ok n' ∧ n'.chain.getHeight.toNat = blocks.length + 1
      ∧ ∀ b ∈ g :: blocks, n'.chain.Stores b := by
  have htip : ∃ l, n.chain.lastBlock = some l ∧ l.index.toNat = 0 + 1 := by
    rcases Option.eq_none_or_eq_some n.chain.lastBlock with hnone | ⟨l, hl⟩
    · rw [Chain.getHeight_of_none hnone] at hheight
      cases hheight
    · rw [Chain.getHeight_of_some hl] at hheight
      exact ⟨l, hl, by rw [hheight]; rfl⟩
  have hstart : Syncing P T g blocks n 0 := by
    refine ⟨Nat.zero_le _, hn.grounded, htip, hvalid, hfirst, ?_, ?_, ?_, ?_, ?_⟩
    · intro j b hj
      omega
    · intro j b hj
      omega
    · rw [hfuture]
      intro e he
      cases he
    · rw [hfuture]
      intro e he
      cases he
    · intro j b _ hb hseen
      exact absurd hseen (hunseen b (List.mem_of_getElem? hb))
  have hhash : (blocks.map Block.hash).Nodup := by
    apply hcoll.nodup hix
    intro b hb
    obtain ⟨i, hi, -⟩ := hall b hb
    obtain ⟨c, s, hgood⟩ := hvalid.exists_good hb (hclock i hi 0)
    exact ((Chain.checkBlock_accepting Chain.accepting_good).mp hgood).1.hash
  obtain ⟨n', m, hrun, hs, -, hdelivered⟩ :=
    hearAll_syncing hix hg hhash hstart hclock hinputs hsafe
  -- a block at the next position would wait, but only later ones do
  have hdone : blocks.length ≤ m := by
    by_contra hlt
    obtain ⟨b, hb⟩ : ∃ b, blocks[m]? = some b := ⟨_, List.getElem?_eq_getElem (by omega)⟩
    obtain ⟨i, hi, hdelivers⟩ := hall b (List.mem_of_getElem? hb)
    have hwaits := hs.kept m b (le_refl m) hb (hdelivered i hi b hdelivers)
    obtain ⟨j, x, hj, hx, hentry⟩ := hs.holds _ hwaits
    rw [Prod.mk.injEq] at hentry
    have h₁ := hix m b hb
    have h₂ := hix j x hx
    rw [← hentry.1] at h₂
    omega
  have hm : m = blocks.length := le_antisymm hs.bound hdone
  refine ⟨n', hrun, by rw [hs.getHeight, hm], fun b hb => ?_⟩
  rcases List.mem_cons.mp hb with rfl | hb
  · exact hs.first
  · obtain ⟨j, hj⟩ := List.mem_iff_getElem?.mp hb
    have hlt := (List.getElem?_eq_some_iff.mp hj).1
    exact hs.stores j b (by omega) hj

end Node

namespace Sample

open P2p (Session)

/-- Signing blocks after the origin block. -/
def sign2 : Block := block 2 10 3 genesis.hash (key 2) none
def sign3 : Block := block 3 20 4 (hash [3]) (key 2) none
def sign4 : Block := block 4 30 5 (hash [4]) (key 2) none

def session : Session where
  origin := ""
  isPublic := true
  appVersion := ""
  myId := ""
  versionCompatible _ := true
  isTweenConnect _ := false
  wantsPeers := false
  peersForExchange := []

/-- An announced height, and a delivered block. -/
def announce (height : UInt64) : Node.Input := ⟨session, fun _ => now, .ping height Bytes.default⟩
def deliver (b : Block) : Node.Input := ⟨session, fun _ => now, .block b.index b.asBytes⟩

theorem delivers_deliver {b : Block} (hfits : b.asBytes.length < 2 ^ 64) (hsame : b.emptied = b) :
    (deliver b).Delivers (platform true) b := by
  refine ⟨b.asBytes, rfl, ?_⟩
  have hwire := Block.fromBytes_asBytes true hfits
  rw [hsame] at hwire
  exact hwire

theorem indexed_signs : Node.Indexed [sign2, sign3, sign4] := by
  intro j b hb
  match j with
  | 0 | 1 | 2 =>
    cases hb
    rfl
  | j + 3 => cases hb

/-- A valid continuation at one reading of the clock, decided. -/
def validAt (P : Platform) (now : UtcTime) : Chain → List Block → Bool
  | _, [] => true
  | c, b :: blocks =>
    match c.checkNewBlock P now b with
    | .ok (.good, s) =>
      match { c with signers := s }.addBlock b with
      | .ok c' => (c.db.addBlockToTable b).isSome && validAt P now c' blocks
      | .error _ => false
    | _ => false

theorem validChain_of_validAt {P : Platform} {now : UtcTime} {c : Chain} {blocks : List Block}
    (h : validAt P now c blocks) : c.ValidChain P (· = now) blocks := by
  induction blocks generalizing c with
  | nil => trivial
  | cons b blocks ih =>
    rintro t rfl
    unfold validAt at h
    split at h
    · rename_i s hcheck
      split at h
      · rename_i c' hadd
        rw [Bool.and_eq_true] at h
        exact ⟨s, c', hcheck, h.1, hadd, ih h.2⟩
      · cases h
    · cases h

/-- Blocks heard one after the other. -/
def hears : List Block → Node → Exec Node
  | [], n => .ok n
  | b :: blocks, n => do
    let (n, _) ← n.hearBlock (platform true) (fun _ => now) b
    hears blocks n

/-- No block waits beyond the announced height before any of the steps. -/
def quiet : List Block → Node → Bool
  | [], _ => true
  | b :: blocks, n => n.futureBlocks.all (fun e => decide (e.1 ≤ n.chain.maxHeight)) &&
    match n.hearBlock (platform true) (fun _ => now) b with
    | .ok r => quiet blocks r.1
    | .error _ => true

theorem hearAll_deliver {blocks : List Block} {n : Node}
    (h : ∀ b ∈ blocks, (deliver b).Delivers (platform true) b) :
    Node.hearAll (platform true) (blocks.map deliver) n = hears blocks n := by
  induction blocks generalizing n with
  | nil => rfl
  | cons b blocks ih =>
    rw [List.map_cons, Node.hearAll, Node.handleMessage_of_delivers (h b List.mem_cons_self), hears]
    congr 1
    funext r
    exact ih fun x hx => h x (List.mem_cons_of_mem b hx)

theorem safe_of_quiet {blocks : List Block} {n : Node}
    (h : ∀ b ∈ blocks, (deliver b).Delivers (platform true) b) (hquiet : quiet blocks n) :
    Node.Safe (platform true) (blocks.map deliver) n := by
  induction blocks generalizing n with
  | nil => trivial
  | cons b blocks ih =>
    unfold quiet at hquiet
    rw [Bool.and_eq_true] at hquiet
    refine ⟨fun x _ hloses => ?_, fun n' state hstep => ?_⟩
    · obtain ⟨j, hj, y, hy⟩ := hloses.beyond
      have hle : j ≤ n.chain.maxHeight := of_decide_eq_true (List.all_eq_true.mp hquiet.1 _ hy)
      exact absurd hj (UInt64.not_lt.mpr hle)
    · rw [Node.handleMessage_of_delivers (h b List.mem_cons_self)] at hstep
      have hrest := hquiet.2
      rw [show n.hearBlock (platform true) (fun _ => now) b = .ok (n', state) from hstep] at hrest
      exact ih (fun x hx => h x (List.mem_cons_of_mem b hx)) hrest

theorem delivers_signs : ∀ b ∈ [sign2, sign3, sign4], (deliver b).Delivers (platform true) b := by
  have hall : ∀ b ∈ [sign2, sign3, sign4], b.asBytes.length < 2 ^ 64 ∧ b.emptied = b := by
    decide +kernel
  exact fun b hb => delivers_deliver (hall b hb).1 (hall b hb).2

theorem collisionFree_signs : Node.CollisionFree (platform true) [sign2, sign3, sign4] := by
  unfold Node.CollisionFree
  decide +kernel

/-- What such runs are made of. -/
theorem clock_inputs {height : UInt64} {blocks : List Block} :
    ∀ i ∈ announce height :: blocks.map deliver, ∀ j, i.clock j = now := by
  intro i hi j
  rcases List.mem_cons.mp hi with rfl | hi
  · rfl
  · obtain ⟨b, -, rfl⟩ := List.mem_map.mp hi
    rfl

theorem announces_or_delivers {height : UInt64} {blocks chain : List Block}
    (hsub : ∀ b ∈ blocks, b ∈ chain)
    (hdelivers : ∀ b ∈ chain, (deliver b).Delivers (platform true) b) :
    ∀ i ∈ announce height :: blocks.map deliver,
      i.Announces ∨ ∃ b ∈ chain, i.Delivers (platform true) b := by
  intro i hi
  rcases List.mem_cons.mp hi with rfl | hi
  · exact Or.inl (.ping rfl)
  · obtain ⟨b, hb, rfl⟩ := List.mem_map.mp hi
    exact Or.inr ⟨b, hsub b hb, hdelivers b (hsub b hb)⟩

theorem exists_delivers {height : UInt64} {blocks chain : List Block}
    (hsub : ∀ b ∈ chain, b ∈ blocks)
    (hdelivers : ∀ b ∈ chain, (deliver b).Delivers (platform true) b) :
    ∀ b ∈ chain, ∃ i ∈ announce height :: blocks.map deliver, i.Delivers (platform true) b := by
  intro b hb
  exact ⟨deliver b, List.mem_cons_of_mem _ (List.mem_map_of_mem (hsub b hb)), hdelivers b hb⟩

/-- A node that holds the origin block, at the beginning of two runs: one after the announcement
of all four blocks, one after that of two. -/
structure HoldsOrigin (n : Node) : Prop where
  reachable : n.Reachable (platform true)
  height : n.chain.getHeight = 1
  stores : n.chain.Stores genesis
  futureBlocks : n.futureBlocks = []
  unseen : ∀ b ∈ [sign2, sign3, sign4], b.hash ∉ n.seenBlocks
  valid : n.chain.ValidChain (platform true) (· = now) [sign2, sign3, sign4]
  announced : ∃ r, n.handleMessage (platform true) session (fun _ => now) (announce 4).message = .ok r
    ∧ quiet [sign4, sign2, sign3] r.1
  stale : ∃ r, n.handleMessage (platform true) session (fun _ => now) (announce 2).message = .ok r
    ∧ ∃ n', hears [sign4, sign2, sign3, sign4] r.1 = .ok n' ∧ n'.chain.getBlock 4 = none

theorem exists_holdsOrigin : ∃ n, HoldsOrigin n := by
  have hrun : ∃ n, Node.receive (platform true) now [genesis] (Node.fresh genesis.hash) = .ok n
      ∧ n.chain.getHeight = 1 ∧ n.chain.getBlock 1 = some genesis.collapse ∧ n.futureBlocks = []
      ∧ (∀ b ∈ [sign2, sign3, sign4], b.hash ∉ n.seenBlocks)
      ∧ validAt (platform true) now n.chain [sign2, sign3, sign4]
      ∧ (∃ r, n.handleMessage (platform true) session (fun _ => now) (announce 4).message = .ok r
        ∧ quiet [sign4, sign2, sign3] r.1)
      ∧ (∃ r, n.handleMessage (platform true) session (fun _ => now) (announce 2).message = .ok r
        ∧ ∃ n', hears [sign4, sign2, sign3, sign4] r.1 = .ok n' ∧ n'.chain.getBlock 4 = none) := by
    decide +kernel
  obtain ⟨n, hn, hheight, hget, hfuture, hunseen, hvalid, hannounced, hstale⟩ := hrun
  exact ⟨n, ⟨_, Node.receive_run (fun _ _ _ => trivial) hn⟩, hheight, hget, hfuture, hunseen,
    validChain_of_validAt hvalid, hannounced, hstale⟩

end Sample

namespace Node

/-- Four blocks announced, three delivered, the last one first. -/
theorem hearAll_stores_signs : ∃ n n', n.Reachable (Sample.platform true)
    ∧ hearAll (Sample.platform true)
      (Sample.announce 4 :: [Sample.sign4, Sample.sign2, Sample.sign3].map Sample.deliver) n = .ok n'
    ∧ ∀ b ∈ [Sample.genesis, Sample.sign2, Sample.sign3, Sample.sign4], n'.chain.Stores b := by
  obtain ⟨n, hn⟩ := Sample.exists_holdsOrigin
  obtain ⟨r, hstep, hquiet⟩ := hn.announced
  have hsub : ∀ b ∈ [Sample.sign4, Sample.sign2, Sample.sign3],
      b ∈ [Sample.sign2, Sample.sign3, Sample.sign4] := by
    intro b hb
    simp only [List.mem_cons, List.not_mem_nil, or_false] at hb ⊢
    tauto
  have hsub' : ∀ b ∈ [Sample.sign2, Sample.sign3, Sample.sign4],
      b ∈ [Sample.sign4, Sample.sign2, Sample.sign3] := by
    intro b hb
    simp only [List.mem_cons, List.not_mem_nil, or_false] at hb ⊢
    tauto
  have hsafe : Safe (Sample.platform true)
      (Sample.announce 4 :: [Sample.sign4, Sample.sign2, Sample.sign3].map Sample.deliver) n := by
    refine ⟨?_, fun n' state h => ?_⟩
    · rintro b ⟨data, hmessage, -⟩
      cases hmessage
    · rw [show n.handleMessage _ (Sample.announce 4).session (Sample.announce 4).clock
        (Sample.announce 4).message = .ok r from hstep, Except.ok.injEq] at h
      rw [h] at hquiet
      exact Sample.safe_of_quiet (fun b hb => Sample.delivers_signs b (hsub b hb)) hquiet
  obtain ⟨n', hrun, -, hstores⟩ := hearAll_stores hn.reachable hn.height hn.stores rfl
    hn.futureBlocks hn.unseen Sample.indexed_signs Sample.collisionFree_signs hn.valid
    Sample.clock_inputs (Sample.announces_or_delivers hsub Sample.delivers_signs)
    (Sample.exists_delivers hsub' Sample.delivers_signs) hsafe
  exact ⟨n, n', hn.reachable, hrun, hstores⟩

/-- Height 2 is announced, and block 4 comes before blocks 2 and 3: the second block reaches the
announced height and empties the bucket, and the fourth block, delivered again, has been seen. -/
theorem not_hearAll_stores_signs : ∃ n n', n.Reachable (Sample.platform true)
    ∧ n.chain.getHeight = 1 ∧ n.chain.Stores Sample.genesis ∧ n.futureBlocks = []
    ∧ (∀ b ∈ [Sample.sign2, Sample.sign3, Sample.sign4], b.hash ∉ n.seenBlocks)
    ∧ Indexed [Sample.sign2, Sample.sign3, Sample.sign4]
    ∧ CollisionFree (Sample.platform true) [Sample.sign2, Sample.sign3, Sample.sign4]
    ∧ n.chain.ValidChain (Sample.platform true) (· = Sample.now)
      [Sample.sign2, Sample.sign3, Sample.sign4]
    ∧ (∀ i ∈ Sample.announce 2 ::
        [Sample.sign4, Sample.sign2, Sample.sign3, Sample.sign4].map Sample.deliver,
      i.Announces ∨ ∃ b ∈ [Sample.sign2, Sample.sign3, Sample.sign4],
        i.Delivers (Sample.platform true) b)
    ∧ (∀ b ∈ [Sample.sign2, Sample.sign3, Sample.sign4], ∃ i ∈ Sample.announce 2 ::
        [Sample.sign4, Sample.sign2, Sample.sign3, Sample.sign4].map Sample.deliver,
      i.Delivers (Sample.platform true) b)
    ∧ hearAll (Sample.platform true) (Sample.announce 2 ::
      [Sample.sign4, Sample.sign2, Sample.sign3, Sample.sign4].map Sample.deliver) n = .ok n'
    ∧ ¬ n'.chain.Stores Sample.sign4 := by
  obtain ⟨n, hn⟩ := Sample.exists_holdsOrigin
  obtain ⟨⟨m, state⟩, hstep, n', hhears, hnone⟩ := hn.stale
  have hsub : ∀ b ∈ [Sample.sign4, Sample.sign2, Sample.sign3, Sample.sign4],
      b ∈ [Sample.sign2, Sample.sign3, Sample.sign4] := by
    intro b hb
    simp only [List.mem_cons, List.not_mem_nil, or_false] at hb ⊢
    tauto
  have hsub' : ∀ b ∈ [Sample.sign2, Sample.sign3, Sample.sign4],
      b ∈ [Sample.sign4, Sample.sign2, Sample.sign3, Sample.sign4] := by
    intro b hb
    simp only [List.mem_cons, List.not_mem_nil, or_false] at hb ⊢
    tauto
  refine ⟨n, n', hn.reachable, hn.height, hn.stores, hn.futureBlocks, hn.unseen,
    Sample.indexed_signs, Sample.collisionFree_signs, hn.valid,
    Sample.announces_or_delivers hsub Sample.delivers_signs,
    Sample.exists_delivers hsub' Sample.delivers_signs, ?_, ?_⟩
  · rw [hearAll, show n.handleMessage _ (Sample.announce 2).session (Sample.announce 2).clock
      (Sample.announce 2).message = .ok (m, state) from hstep, ok_bind]
    dsimp only
    rw [Sample.hearAll_deliver fun b hb => Sample.delivers_signs b (hsub b hb)]
    exact hhears
  · intro hstores
    rw [Chain.Stores, show Sample.sign4.index = 4 from rfl, hnone] at hstores
    cases hstores

end Node
