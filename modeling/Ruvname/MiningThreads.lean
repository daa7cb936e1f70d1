/-
# The threads that mine one job

The second half of `mine_internal` of `miner.rs`, with the loops of `find_hash`.  Several threads look
for a hash of the same job; they share a flag, a counter, and the chain behind its lock, to which the
network appends blocks meanwhile.

A thread that finds a hash adds its block and clears the flag before it gives the lock back.  The
others look at the flag after every nonce, and after they have taken a new place on the chain: so a
job puts at most one block on the chain, in whatever order the threads take their steps, as long as
the flag stays down.  The miner does not wait for them before it raises the flag for its next job; each
time it does, the threads that go on may put one more block on the chain.  The counter is for the case
that nobody finds one: the last thread reports that mining has stopped.
-/
import Ruvname.OwnBlocks

open Exec

namespace MiningThreads

/-- Where a thread is. -/
inductive Phase where
  | ready
  /-- At the head of the outer loop of `find_hash`. -/
  | outer (b : Block)
  /-- The block has its place; are we waiting for signers? -/
  | drawn (b : Block) (waiting : Bool)
  /-- At the head of the loop over nonces. -/
  | hashing (b : Block)
  /-- The hash of a nonce was not good enough. -/
  | tried (b : Block)
  /-- `find_hash` has returned a block, or none. -/
  | found (b : Block)
  | failed
  /-- `fetch_sub` has returned this count. -/
  | counted (count : ℕ)
  /-- The thread has ended, after a block or after none. -/
  | finished
  | reported
  deriving DecidableEq

/-- What a thread meets in one step. -/
structure Move where
  now : UtcTime
  random : UInt32
  nonce : UInt64
  /-- Whether this was the last nonce. -/
  exhausted : Bool
  /-- Whether a second has elapsed, and whether `try_lock` gets the chain then. -/
  elapsed : Bool
  locked : Bool

/-- What the threads of a job share, and what they have done. -/
structure World (k : ℕ) where
  chain : Chain
  mining : Bool
  live : ℕ
  /-- `miner_state.mining` of the context. -/
  shown : Bool
  /-- The events `MinerStopped`, with their `success`. -/
  stopped : List Bool
  /-- The blocks of the job that have got into the table. -/
  added : List Block
  /-- How often the flag has been raised for another job. -/
  raised : ℕ
  threads : Fin k → Phase

namespace World

variable {k : ℕ}

/-- The threads are spawned. -/
def start (c : Chain) : World k := ⟨c, true, 0, true, [], [], 0, fun _ => .ready⟩

/-- Thread `i` goes on. -/
def goto (w : World k) (i : Fin k) (p : Phase) : World k :=
  { w with threads := Function.update w.threads i p }

end World

variable (P : Platform)

/-- The first part of the outer loop of `find_hash`: a place on the chain, and whether full blocks are
allowed there. -/
def draw (now : UtcTime) (random : UInt32) (c : Chain) (b : Block) : Exec (Block × Bool) := do
  let b ← c.placed P { b with random := random, timestamp := now.secs }
  let waitingSigners ← c.isWaitingSigners P
  .ok (b, waitingSigners)

/-- One nonce. -/
def attempt (nonce : UInt64) (b : Block) : Exec (Block × Bool) := do
  let b := { b with nonce := nonce }
  let hash := P.blakeout b.asBytesCompact
  let difficulty ← hashDifficulty hash
  .ok (if b.difficulty.toNat ≤ difficulty then ({ b with hash := hash }, true) else (b, false))

/-- After a nonce: the time is refreshed, and if the chain has grown, a signing block is given up and a
full one gets a new place. -/
def refresh {k : ℕ} (m : Move) (w : World k) (i : Fin k) (b : Block) : World k :=
  if m.elapsed then
    let b := { b with timestamp := m.now.secs }
    if b.index > 1 ∧ m.locked ∧ w.chain.getHeight ≥ b.index then
      if b.transaction.isNone then { w.goto i .failed with mining := false }
      else w.goto i (.outer b)
    else if m.exhausted then w.goto i (.outer b)
    else w.goto i (.hashing b)
  else if m.exhausted then w.goto i (.outer b)
  else w.goto i (.hashing b)

/-- The end of a thread that has found a block. -/
def finish {k : ℕ} (keystore : Keystore P) (now : UtcTime) (w : World k) (i : Fin k) (b : Block) :
    Exec (World k) := do
  let b := b.signed keystore
  let (quality, cache) ← w.chain.checkNewBlock P now b
  let c := { w.chain with signers := cache }
  if quality = .good then do
    let c' ← c.addBlock b
    .ok { w.goto i .finished with
      chain := c'
      mining := false
      shown := false
      stopped := w.stopped ++ [true]
      added := if (c.db.addBlockToTable b).isSome then w.added ++ [b] else w.added }
  else
    .ok { w.goto i .finished with
      chain := c
      mining := false
      shown := false
      stopped := w.stopped ++ [false] }

/-- One step of a thread. -/
def advance {k : ℕ} (keystore : Keystore P) (job : Block) (m : Move) (w : World k) (i : Fin k) :
    Exec (World k) :=
  match w.threads i with
  | .ready => .ok { w.goto i (.outer job) with live := w.live + 1 }
  | .outer b => do
    let (b, waiting) ← draw P m.now m.random w.chain b
    .ok (w.goto i (.drawn b waiting))
  | .drawn b waiting =>
    if ¬ w.mining then .ok (w.goto i .failed)
    -- We can't mine now, as we need to wait for block to be signed
    else if b.transaction.isSome ∧ waiting then .ok (w.goto i (.outer b))
    else .ok (w.goto i (.hashing b))
  | .hashing b =>
    if ¬ w.mining then .ok (w.goto i .failed)
    else do
      let (b, good) ← attempt P m.nonce b
      .ok (w.goto i (if good then .found b else .tried b))
  | .tried b => .ok (refresh m w i b)
  | .found b => finish P keystore m.now w i b
  | .failed => .ok { w.goto i (.counted w.live) with live := w.live - 1 }
  | .counted count =>
    -- If this is the last thread, but mining was not stopped by another thread
    if count = 1 then .ok { w.goto i .reported with shown := false, stopped := w.stopped ++ [false] }
    else .ok (w.goto i .reported)
  | .finished => .ok w
  | .reported => .ok w

/-- What can happen while a job is mined. -/
inductive Act (k : ℕ) where
  | thread (i : Fin k) (m : Move)
  /-- The network does something to the chain. -/
  | chain (a : ChainAction)
  /-- The flag is cleared: by the event `ActionStopMining`, or by `run_main_loop` or the threads of
  another job. -/
  | stop
  /-- `run_main_loop` raises the flag for another job. -/
  | raise
  /-- The other job sets `miner_state.mining`. -/
  | shows

/-- The transitions. -/
def Step {k : ℕ} (keystore : Keystore P) (job : Block) (w : World k) (a : Act k) (w' : World k) :
    Prop :=
  match a with
  | .thread i m => advance P keystore job m w i = .ok w'
  | .chain a => ∃ c, w.chain.Step P a c ∧ w' = { w with chain := c }
  | .stop => w' = { w with mining := false }
  | .raise => w' = { w with mining := true, raised := w.raised + 1 }
  | .shows => 0 < w.raised ∧ w' = { w with shown := true }

/-- The network judges and appends blocks, and none of them replaces another. -/
def Grows {k : ℕ} (_ : World k) : Act k → Prop
  | .chain (.judge _ _) => True
  | .chain (.height _) => True
  | .chain (.append _ b) => b.index ≠ 0
  | .chain _ => False
  | _ => True

/-- All threads have ended. -/
def World.Over {k : ℕ} (w : World k) : Prop :=
  ∀ i, w.threads i = .finished ∨ w.threads i = .reported

/-- A thread that nobody disturbs computes `findHash`. -/
theorem findHash_eq (now : UtcTime) (random : UInt32) (nonce : UInt64) (c : Chain) (b : Block) :
    c.findHash P now random nonce b = draw P now random c b >>= fun r =>
      if r.1.transaction.isSome ∧ r.2 then .ok none
      else attempt P nonce r.1 >>= fun r => .ok (if r.2 then some r.1 else none) := by
  unfold Chain.findHash draw attempt
  simp only [bind_assoc, ok_bind]
  congr 1
  funext b
  congr 1
  funext waiting
  split
  · rfl
  · congr 1
    funext difficulty
    split
    · rfl
    · rfl

/-! ## Growing chains -/

variable {P} {k : ℕ} {w w' : World k} {i : Fin k} {m : Move} {b job : Block} {keystore : Keystore P}
  {c c' : Chain} {a : ChainAction}

/-- What the network may do to the chain. -/
def GrowsChain : ChainAction → Prop
  | .judge _ _ => True
  | .height _ => True
  | .append _ b => b.index ≠ 0
  | _ => False

/-- A block that is appended becomes the tip, one above the last one. -/
theorem append_height {f : Ledger} {now : UtcTime} {s : SignersCache} (hg : c.Grounded f)
    (hb : b.index ≠ 0) (hgood : c.checkNewBlock P now b = .ok (.good, s))
    (hadd : { c with signers := s }.addBlock b = .ok c') :
    (∃ f', c'.Grounded f') ∧ ((c.db.addBlockToTable b = none ∧ c'.getHeight = c.getHeight)
      ∨ b.index.toNat = c.getHeight.toNat + 1 ∧ c'.getHeight = b.index) := by
  rcases Chain.append_ledger hg hgood hadd with ⟨rfl, hnone⟩ | ⟨-, hg', hadded⟩
  · exact ⟨⟨f, hg.congr rfl rfl⟩, Or.inl ⟨hnone, rfl⟩⟩
  · exact ⟨⟨_, hg'⟩, Or.inr ⟨hg.index_eq_succ hb hgood, Chain.getHeight_of_some hadded.lastBlock⟩⟩

/-- The network does not lower the chain. -/
theorem chain_grows {f : Ledger} (hg : c.Grounded f) (h : c.Step P a c') (ha : GrowsChain a) :
    (∃ f', c'.Grounded f') ∧ c.getHeight.toNat ≤ c'.getHeight.toNat := by
  obtain ⟨f', hg', -⟩ := h.ledger hg
  refine ⟨⟨f', hg'⟩, ?_⟩
  cases a with
  | judge now b =>
    obtain ⟨q, s, -, rfl⟩ := h
    exact le_refl _
  | height h' =>
    cases h
    exact le_refl _
  | append now b =>
    obtain ⟨s, hgood, hadd⟩ := h
    obtain ⟨-, ⟨-, heq⟩ | ⟨hindex, heq⟩⟩ := append_height hg ha hgood hadd
    · rw [heq]
    · rw [heq]
      omega
  | _ => exact ha.elim

/-! ## At most one block -/

namespace Phase

/-- The block a thread works on. -/
def block? : Phase → Option Block
  | outer b | drawn b _ | hashing b | tried b | found b => some b
  | _ => none

/-- Whether the counter counts the thread. -/
def weight : Phase → ℕ
  | ready | counted _ | reported => 0
  | _ => 1

/-- The thread has seen the cleared flag, or has cleared it. -/
def Ending : Phase → Prop
  | failed | counted _ | finished | reported => True
  | _ => False

end Phase

@[simp] theorem threads_goto (w : World k) (i : Fin k) (p : Phase) :
    (w.goto i p).threads = Function.update w.threads i p := rfl

/-- **The job has put at most one block on the chain**, and one more for each time the flag was raised.
When it has put all these there, nobody may find another one, and what has been found does not fit on
top of the chain. -/
structure Sound (w : World k) : Prop where
  grounded : ∃ f, w.chain.Grounded f
  held : ∀ i b, (w.threads i).block? = some b →
    b.index ≠ 0 ∧ b.index.toNat ≤ w.chain.getHeight.toNat + 1
  few : w.added.length ≤ w.raised + 1
  full : w.added.length = w.raised + 1 → w.mining = false
    ∧ ∀ i b, w.threads i = .found b → b.index.toNat ≤ w.chain.getHeight.toNat

/-- A place on the chain is the one above the tip. -/
theorem index_draw {f : Ledger} {now : UtcTime} {random : UInt32} {r : Block × Bool}
    (hg : c.Grounded f) (hb : b.index ≠ 0 ∧ b.index.toNat ≤ c.getHeight.toNat + 1)
    (h : draw P now random c b = .ok r) :
    r.1.index ≠ 0 ∧ r.1.index.toNat ≤ c.getHeight.toNat + 1 := by
  obtain ⟨x, hplaced, h⟩ := bind_eq_ok.mp h
  obtain ⟨waiting, -, h⟩ := bind_eq_ok.mp h
  cases h
  unfold Chain.placed at hplaced
  cases hl : c.lastBlock with
  | none =>
    rw [hl] at hplaced
    cases hplaced
    exact hb
  | some l =>
    rw [hl] at hplaced
    obtain ⟨index, hindex, hplaced⟩ := bind_eq_ok.mp hplaced
    cases hplaced
    obtain ⟨hnext, htoNat⟩ := hg.addU64_tip (P := P) hl
    rw [hnext] at hindex
    cases hindex
    show l.index + 1 ≠ 0 ∧ (l.index + 1).toNat ≤ _
    rw [Chain.getHeight_of_some hl, htoNat]
    refine ⟨fun h0 => ?_, le_refl _⟩
    rw [h0] at htoNat
    exact absurd htoNat.symm (Nat.succ_ne_zero _)

theorem index_attempt {nonce : UInt64} {r : Block × Bool} (h : attempt P nonce b = .ok r) :
    r.1.index = b.index := by
  obtain ⟨difficulty, -, h⟩ := bind_eq_ok.mp h
  cases h
  split
  · rfl
  · rfl

namespace Sound

/-- A thread goes on with a block that fits as well; only a raised flag lets it find one. -/
theorem goto {p : Phase} (hw : Sound w)
    (hp : ∀ b, p.block? = some b → b.index ≠ 0 ∧ b.index.toNat ≤ w.chain.getHeight.toNat + 1)
    (hfound : ∀ b, p = .found b → w.mining = true) : Sound (w.goto i p) where
  grounded := hw.grounded
  held j b hb := by
    rw [threads_goto, Function.update_apply] at hb
    split at hb
    · exact hp b hb
    · exact hw.held j b hb
  few := hw.few
  full hfull := by
    obtain ⟨hmining, hlow⟩ := hw.full hfull
    refine ⟨hmining, fun j b hb => ?_⟩
    rw [threads_goto, Function.update_apply] at hb
    split at hb
    · rw [hfound b hb] at hmining
      cases hmining
    · exact hlow j b hb

/-- The flag, the counter and the reports do not matter, as long as the flag is not raised. -/
theorem congr (hw : Sound w) (hchain : w'.chain = w.chain) (hthreads : w'.threads = w.threads)
    (hadded : w'.added = w.added) (hraised : w'.raised = w.raised)
    (hmining : w.mining = false → w'.mining = false) : Sound w' where
  grounded := hchain ▸ hw.grounded
  held := by
    rw [hthreads, hchain]
    exact hw.held
  few := by
    rw [hadded, hraised]
    exact hw.few
  full := by
    rw [hadded, hthreads, hchain, hraised]
    exact fun hfull => ⟨hmining (hw.full hfull).1, (hw.full hfull).2⟩

/-- The flag is raised: there is room for one more block. -/
theorem raise (hw : Sound w) : Sound { w with mining := true, raised := w.raised + 1 } where
  grounded := hw.grounded
  held := hw.held
  few := hw.few.trans (Nat.le_succ _)
  full hfull := absurd hw.few (by show ¬ w.added.length ≤ _; dsimp only at hfull; omega)

/-- The chain grows under the threads. -/
theorem grow (hw : Sound w) (hg : ∃ f, c.Grounded f)
    (hle : w.chain.getHeight.toNat ≤ c.getHeight.toNat) : Sound { w with chain := c } where
  grounded := hg
  held i b hb := by
    have hheld := hw.held i b hb
    exact ⟨hheld.1, by show _ ≤ c.getHeight.toNat + 1; omega⟩
  few := hw.few
  full hfull := ⟨(hw.full hfull).1, fun i b hb => ((hw.full hfull).2 i b hb).trans hle⟩

/-- **A thread that has found a block** adds it, or finds that it comes too late. -/
theorem finish {now : UtcTime} (hw : Sound w) (hi : w.threads i = .found b)
    (h : finish P keystore now w i b = .ok w') : Sound w' := by
  obtain ⟨f, hg⟩ := hw.grounded
  have hheld : b.index ≠ 0 ∧ b.index.toNat ≤ w.chain.getHeight.toNat + 1 := by
    apply hw.held i
    rw [hi]
    rfl
  obtain ⟨⟨quality, cache⟩, hcheck, h⟩ := bind_eq_ok.mp h
  dsimp only at h
  split at h
  · rename_i hgood
    subst hgood
    obtain ⟨c', hadd, h⟩ := bind_eq_ok.mp h
    cases h
    have hindex : (b.signed keystore).index = b.index := rfl
    obtain ⟨hg', ⟨hnone, hheight⟩ | ⟨hsucc, hheight⟩⟩ := append_height (b := b.signed keystore) hg hheld.1 hcheck hadd
    · -- the table takes no more blocks
      have hgrown : Sound { w.goto i .finished with chain := c' } :=
        (hw.goto (fun _ hb => by cases hb) (fun _ hb => by cases hb)).grow hg' (by rw [hheight]; rfl)
      have hfull : w.chain.db.addBlockToTable (b.signed keystore) = none := hnone
      refine hgrown.congr rfl rfl ?_ rfl fun _ => rfl
      show (if (w.chain.db.addBlockToTable (b.signed keystore)).isSome then
        w.added ++ [b.signed keystore] else w.added) = w.added
      rw [hfull]
      rfl
    · -- it is the new tip; a block that was added before would stand at least as high
      have hle : w.chain.getHeight.toNat ≤ c'.getHeight.toNat := by rw [hheight, hsucc]; omega
      have hgrown : Sound { w.goto i .finished with chain := c' } :=
        (hw.goto (fun _ hb => by cases hb) (fun _ hb => by cases hb)).grow hg' hle
      have hroom : w.added.length ≠ w.raised + 1 := by
        intro hfull
        have hlate := (hw.full hfull).2 i b hi
        rw [hindex] at hsucc
        omega
      have hlow : ∀ j x, (w.goto i .finished).threads j = .found x →
          x.index.toNat ≤ c'.getHeight.toNat := by
        intro j x hx
        rw [threads_goto, Function.update_apply] at hx
        split at hx
        · cases hx
        · have hother := hw.held j x (by rw [hx]; rfl)
          rw [hheight, hsucc]
          exact hother.2
      refine ⟨hg', hgrown.held, ?_, fun _ => ⟨rfl, hlow⟩⟩
      have hfew := hw.few
      show (if (w.chain.db.addBlockToTable (b.signed keystore)).isSome then
        w.added ++ [b.signed keystore] else w.added).length ≤ w.raised + 1
      split
      · rw [List.length_append, List.length_singleton]
        omega
      · exact hfew
  · cases h
    have hgrown : Sound { w.goto i .finished with chain := { w.chain with signers := cache } } :=
      (hw.goto (fun _ hb => by cases hb) (fun _ hb => by cases hb)).grow ⟨f, hg.congr rfl rfl⟩ (le_refl _)
    exact hgrown.congr rfl rfl rfl rfl fun _ => rfl

theorem refresh (hw : Sound w) (hi : w.threads i = .tried b) : Sound (refresh m w i b) := by
  have hheld : b.index ≠ 0 ∧ b.index.toNat ≤ w.chain.getHeight.toNat + 1 := by
    apply hw.held i
    rw [hi]
    rfl
  have hgo : ∀ x : Block, x.index = b.index → ∀ p : Phase, p = .outer x ∨ p = .hashing x →
      Sound (w.goto i p) := by
    intro x hx p hp
    refine hw.goto (fun y hy => ?_) fun y hy => ?_
    · have hyx : y = x := by
        rcases hp with rfl | rfl
        · exact (Option.some.inj hy).symm
        · exact (Option.some.inj hy).symm
      rw [hyx, hx]
      exact hheld
    · rcases hp with rfl | rfl <;> cases hy
  unfold MiningThreads.refresh
  dsimp only
  split
  · split
    · split
      · exact (hw.goto (i := i) (p := .failed) (fun _ hb => by cases hb)
          (fun _ hb => by cases hb)).congr rfl rfl rfl rfl fun _ => rfl
      · exact hgo { b with timestamp := m.now.secs } rfl _ (Or.inl rfl)
    · split
      · exact hgo { b with timestamp := m.now.secs } rfl _ (Or.inl rfl)
      · exact hgo { b with timestamp := m.now.secs } rfl _ (Or.inr rfl)
  · split
    · exact hgo b rfl _ (Or.inl rfl)
    · exact hgo b rfl _ (Or.inr rfl)

/-- A thread lets its block go. -/
theorem goto_quiet (hw : Sound w) (p : Phase) (hp : p.block? = none) : Sound (w.goto i p) := by
  refine hw.goto (fun b hb => ?_) fun b hb => ?_
  · rw [hp] at hb
    cases hb
  · rw [hb] at hp
    cases hp

/-- **One step of a thread.** -/
theorem advance (hw : Sound w) (hjob : job.index ≠ 0 ∧ job.index.toNat ≤ w.chain.getHeight.toNat + 1)
    (h : advance P keystore job m w i = .ok w') : Sound w' := by
  unfold MiningThreads.advance at h
  cases hi : w.threads i with
  | ready =>
    rw [hi] at h
    have hgo : Sound (w.goto i (.outer job)) :=
      hw.goto (fun b hb => Option.some.inj hb ▸ hjob) (fun b hb => by cases hb)
    exact Except.ok.inj h ▸ hgo.congr rfl rfl rfl rfl id
  | outer b =>
    rw [hi] at h
    obtain ⟨f, hg⟩ := hw.grounded
    obtain ⟨r, hdraw, h⟩ := bind_eq_ok.mp h
    have hr := index_draw hg (hw.held i b (by rw [hi]; rfl)) hdraw
    exact Except.ok.inj h ▸ hw.goto (fun b hb => Option.some.inj hb ▸ hr) (fun b hb => by cases hb)
  | drawn b waiting =>
    rw [hi] at h
    dsimp only at h
    have hheld := hw.held i b (by rw [hi]; rfl)
    split at h
    · exact Except.ok.inj h ▸ hw.goto_quiet .failed rfl
    · split at h
      · exact Except.ok.inj h ▸ hw.goto (fun x hx => Option.some.inj hx ▸ hheld) (fun x hx => by cases hx)
      · exact Except.ok.inj h ▸ hw.goto (fun x hx => Option.some.inj hx ▸ hheld) (fun x hx => by cases hx)
  | hashing b =>
    rw [hi] at h
    dsimp only at h
    split at h
    · exact Except.ok.inj h ▸ hw.goto_quiet .failed rfl
    · rename_i hmining
      obtain ⟨r, hattempt, h⟩ := bind_eq_ok.mp h
      have hheld := hw.held i b (by rw [hi]; rfl)
      rw [← index_attempt hattempt] at hheld
      refine Except.ok.inj h ▸ hw.goto (fun x hx => ?_) fun _ _ => not_not.mp hmining
      split at hx
      · exact Option.some.inj hx ▸ hheld
      · exact Option.some.inj hx ▸ hheld
  | tried b =>
    rw [hi] at h
    exact Except.ok.inj h ▸ hw.refresh hi
  | found b =>
    rw [hi] at h
    exact hw.finish hi h
  | failed =>
    rw [hi] at h
    exact Except.ok.inj h ▸ (hw.goto_quiet (.counted w.live) rfl).congr rfl rfl rfl rfl id
  | counted count =>
    rw [hi] at h
    dsimp only at h
    split at h
    · exact Except.ok.inj h ▸ (hw.goto_quiet .reported rfl).congr rfl rfl rfl rfl id
    · exact Except.ok.inj h ▸ hw.goto_quiet .reported rfl
  | finished =>
    rw [hi] at h
    exact Except.ok.inj h ▸ hw
  | reported =>
    rw [hi] at h
    exact Except.ok.inj h ▸ hw

end Sound

/-! ## The end is reported -/

/-- **What is reported**: the counter counts the threads, and as long as nothing has been reported,
somebody is still there to do so. -/
structure Reporting (w : World k) : Prop where
  live : w.live = ∑ i, (w.threads i).weight
  last : w.stopped = [] →
    (∃ i, w.threads i = .counted 1) ∨ 1 ≤ w.live ∨ ∀ i, w.threads i = .ready
  shown : w.raised = 0 → w.stopped ≠ [] → w.shown = false
  lowered : w.raised = 0 → ∀ i, (w.threads i).Ending → w.mining = false
  told : ∀ i, w.threads i = .finished → w.stopped ≠ []

/-- Where the other threads are, the sum is the same. -/
theorem sum_update (threads : Fin k → Phase) (i : Fin k) (p : Phase) :
    ∑ j, (Function.update threads i p j).weight + (threads i).weight
      = ∑ j, (threads j).weight + p.weight := by
  have hsum : ∀ q : Phase, ∑ j, (Function.update threads i q j).weight
      = q.weight + ∑ j ∈ Finset.univ.erase i, (threads j).weight := by
    intro q
    rw [← Finset.add_sum_erase _ _ (Finset.mem_univ i), Function.update_self]
    congr 1
    apply Finset.sum_congr rfl
    intro j hj
    rw [Function.update_of_ne (Finset.ne_of_mem_erase hj)]
  have hself := hsum (threads i)
  rw [Function.update_eq_self] at hself
  rw [hsum p, hself]
  omega

namespace Reporting

theorem start (c : Chain) : Reporting (World.start (k := k) c) where
  live := by simp [World.start, Phase.weight]
  last _ := Or.inr (Or.inr fun _ => rfl)
  shown _ h := absurd rfl h
  lowered _ _ h := h.elim
  told _ h := by cases h

/-- A thread that is counted is there. -/
theorem live_pos (hw : Reporting w) (hi : (w.threads i).weight = 1) : 1 ≤ w.live := by
  rw [hw.live, ← hi]
  exact Finset.single_le_sum (f := fun j => (w.threads j).weight) (fun _ _ => Nat.zero_le _)
    (Finset.mem_univ i)

/-- The sum after a step of one thread. -/
theorem sum_goto (hw : Reporting w) (i : Fin k) (p : Phase) :
    ∑ j, ((w.goto i p).threads j).weight + (w.threads i).weight = w.live + p.weight := by
  rw [hw.live]
  exact sum_update w.threads i p

theorem lowered_goto {p : Phase} (hw : Reporting w) (hraised : w.raised = 0)
    (hend : p.Ending → w.mining = false) : ∀ j, ((w.goto i p).threads j).Ending → w.mining = false := by
  intro j hj
  rw [threads_goto, Function.update_apply] at hj
  split at hj
  · exact hend hj
  · exact hw.lowered hraised j hj

theorem told_goto {p : Phase} (hw : Reporting w) (hp : p ≠ .finished) :
    ∀ j, (w.goto i p).threads j = .finished → w.stopped ≠ [] := by
  intro j hj
  rw [threads_goto, Function.update_apply] at hj
  split at hj
  · exact absurd hj hp
  · exact hw.told j hj

/-- A thread goes on that was counted and is. -/
theorem goto {p : Phase} (hw : Reporting w) (hi : (w.threads i).weight = 1) (hp : p.weight = 1)
    (hne : p ≠ .finished) (hend : p.Ending → w.mining = false) : Reporting (w.goto i p) where
  live := by
    have hsum := hw.sum_goto i p
    show w.live = _
    omega
  last _ := Or.inr (Or.inl (hw.live_pos hi))
  shown := hw.shown
  lowered hraised := hw.lowered_goto hraised hend
  told := hw.told_goto hne

theorem lower (hw : Reporting w) : Reporting { w with mining := false } :=
  ⟨hw.live, hw.last, hw.shown, fun _ _ _ => rfl, hw.told⟩

/-- Another job is started. -/
theorem raise (hw : Reporting w) : Reporting { w with mining := true, raised := w.raised + 1 } :=
  ⟨hw.live, hw.last, fun h => absurd h (Nat.succ_ne_zero _), fun h => absurd h (Nat.succ_ne_zero _),
    hw.told⟩

theorem shows (hw : Reporting w) (hraised : 0 < w.raised) : Reporting { w with shown := true } :=
  ⟨hw.live, hw.last, fun h => absurd h hraised.ne', hw.lowered, hw.told⟩

theorem refresh (hw : Reporting w) (hi : w.threads i = .tried b) : Reporting (refresh m w i b) := by
  have hone : (w.threads i).weight = 1 := by rw [hi]; rfl
  unfold MiningThreads.refresh
  dsimp only
  split
  · split
    · split
      · exact hw.lower.goto (p := .failed) hone rfl (by simp) fun _ => rfl
      · exact hw.goto hone rfl (by simp) False.elim
    · split
      · exact hw.goto hone rfl (by simp) False.elim
      · exact hw.goto hone rfl (by simp) False.elim
  · split
    · exact hw.goto hone rfl (by simp) False.elim
    · exact hw.goto hone rfl (by simp) False.elim

theorem finish {now : UtcTime} (hw : Reporting w) (hi : w.threads i = .found b)
    (h : finish P keystore now w i b = .ok w') : Reporting w' := by
  have hsum := hw.sum_goto i .finished
  have hone : (w.threads i).weight = 1 := by rw [hi]; rfl
  have hlive : w.live = ∑ j, ((w.goto i .finished).threads j).weight := by
    rw [hone] at hsum
    exact (Nat.succ_injective hsum).symm
  obtain ⟨⟨quality, cache⟩, -, h⟩ := bind_eq_ok.mp h
  dsimp only at h
  split at h
  · obtain ⟨c', -, h⟩ := bind_eq_ok.mp h
    cases h
    exact ⟨hlive, fun hnil => absurd hnil (by simp), fun _ _ => rfl, fun _ _ _ => rfl,
      fun _ _ => by simp⟩
  · cases h
    exact ⟨hlive, fun hnil => absurd hnil (by simp), fun _ _ => rfl, fun _ _ _ => rfl,
      fun _ _ => by simp⟩

/-- **The last thread reports.** -/
theorem count (hw : Reporting w) (hi : w.threads i = .failed) :
    Reporting { w.goto i (.counted w.live) with live := w.live - 1 } := by
  have hone : (w.threads i).weight = 1 := by rw [hi]; rfl
  have hpos := hw.live_pos hone
  have hsum := hw.sum_goto i (.counted w.live)
  have hweight : (Phase.counted w.live).weight = 0 := rfl
  refine ⟨?_, fun _ => ?_, hw.shown, fun hraised => hw.lowered_goto hraised fun _ =>
    hw.lowered hraised i (by rw [hi]; trivial), hw.told_goto (by simp)⟩
  · show w.live - 1 = ∑ j, ((w.goto i (.counted w.live)).threads j).weight
    omega
  · by_cases hlast : w.live = 1
    · refine Or.inl ⟨i, ?_⟩
      show Function.update w.threads i (.counted w.live) i = _
      rw [Function.update_self, hlast]
    · exact Or.inr (Or.inl (by show 1 ≤ w.live - 1; omega))

theorem report {count : ℕ} (hw : Reporting w) (hi : w.threads i = .counted count) :
    Reporting (if count = 1 then
      { w.goto i .reported with shown := false, stopped := w.stopped ++ [false] }
      else w.goto i .reported) := by
  have hsum := hw.sum_goto i .reported
  have hzero : (w.threads i).weight = 0 := by rw [hi]; rfl
  have hlive : w.live = ∑ j, ((w.goto i .reported).threads j).weight := by
    rw [hzero] at hsum
    exact hsum.symm
  have hlowered := fun hraised => hw.lowered_goto (i := i) (p := .reported) hraised
    fun _ => hw.lowered hraised i (by rw [hi]; trivial)
  split
  · exact ⟨hlive, fun hnil => absurd hnil (by simp), fun _ _ => rfl, hlowered, fun _ _ => by simp⟩
  · rename_i hne
    refine ⟨hlive, fun hnil => ?_, hw.shown, hlowered, hw.told_goto (by simp)⟩
    rcases hw.last hnil with ⟨j, hj⟩ | hpos | hready
    · -- another thread has counted to one
      refine Or.inl ⟨j, ?_⟩
      have hji : j ≠ i := by
        rintro rfl
        rw [hi] at hj
        exact hne (Phase.counted.inj hj)
      show Function.update w.threads i .reported j = _
      rw [Function.update_of_ne hji, hj]
    · exact Or.inr (Or.inl hpos)
    · rw [hready i] at hi
      cases hi

theorem advance (hw : Reporting w) (h : advance P keystore job m w i = .ok w') : Reporting w' := by
  unfold MiningThreads.advance at h
  cases hi : w.threads i with
  | ready =>
    rw [hi] at h
    have hsum := hw.sum_goto i (.outer job)
    have hzero : (w.threads i).weight = 0 := by rw [hi]; rfl
    have hlive : w.live + 1 = ∑ j, ((w.goto i (.outer job)).threads j).weight := by
      rw [hzero] at hsum
      exact hsum.symm
    exact Except.ok.inj h ▸ ⟨hlive, fun _ => Or.inr (Or.inl (Nat.le_add_left 1 _)), hw.shown,
      fun hraised => hw.lowered_goto hraised False.elim, hw.told_goto (by simp)⟩
  | outer b =>
    rw [hi] at h
    obtain ⟨r, -, h⟩ := bind_eq_ok.mp h
    exact Except.ok.inj h ▸ hw.goto (by rw [hi]; rfl) rfl (by simp) False.elim
  | drawn b waiting =>
    rw [hi] at h
    dsimp only at h
    split at h
    · rename_i hmining
      exact Except.ok.inj h ▸ hw.goto (by rw [hi]; rfl) rfl (by simp) fun _ => Bool.eq_false_iff.mpr hmining
    · split at h
      · exact Except.ok.inj h ▸ hw.goto (by rw [hi]; rfl) rfl (by simp) False.elim
      · exact Except.ok.inj h ▸ hw.goto (by rw [hi]; rfl) rfl (by simp) False.elim
  | hashing b =>
    rw [hi] at h
    dsimp only at h
    split at h
    · rename_i hmining
      exact Except.ok.inj h ▸ hw.goto (by rw [hi]; rfl) rfl (by simp) fun _ => Bool.eq_false_iff.mpr hmining
    · obtain ⟨r, -, h⟩ := bind_eq_ok.mp h
      refine Except.ok.inj h ▸ hw.goto (by rw [hi]; rfl) ?_ ?_ fun hend => ?_
      · split
        · rfl
        · rfl
      · split
        · simp
        · simp
      · split at hend
        · exact hend.elim
        · exact hend.elim
  | tried b =>
    rw [hi] at h
    exact Except.ok.inj h ▸ hw.refresh hi
  | found b =>
    rw [hi] at h
    exact hw.finish hi h
  | failed =>
    rw [hi] at h
    exact Except.ok.inj h ▸ hw.count hi
  | counted count =>
    rw [hi] at h
    have hreport := hw.report hi
    dsimp only at h
    split at h
    · rename_i hone
      rw [if_pos hone] at hreport
      exact Except.ok.inj h ▸ hreport
    · rename_i hne
      rw [if_neg hne] at hreport
      exact Except.ok.inj h ▸ hreport
  | finished =>
    rw [hi] at h
    exact Except.ok.inj h ▸ hw
  | reported =>
    rw [hi] at h
    exact Except.ok.inj h ▸ hw

/-- When all threads have ended, the end has been reported, and the flag is down unless it was raised
for another job. -/
theorem of_over [NeZero k] (hw : Reporting w) (hover : w.Over) :
    w.stopped ≠ [] ∧ (w.raised = 0 → w.mining = false ∧ w.shown = false) := by
  have hmining : w.raised = 0 → w.mining = false := by
    refine fun hraised => hw.lowered hraised 0 ?_
    rcases hover 0 with h | h <;> rw [h] <;> trivial
  have hstopped : w.stopped ≠ [] := by
    intro hnil
    rcases hw.last hnil with ⟨j, hj⟩ | hpos | hready
    · rcases hover j with h | h <;> rw [h] at hj <;> cases hj
    · -- the counter counts those that have found a block, and they have reported it
      rw [hw.live] at hpos
      obtain ⟨j, -, hj⟩ := Finset.exists_ne_zero_of_sum_ne_zero (Nat.ne_of_gt hpos)
      rcases hover j with h | h
      · exact hw.told j h hnil
      · rw [h] at hj
        exact hj rfl
    · rcases hover 0 with h | h <;> rw [hready 0] at h <;> cases h
  exact ⟨hstopped, fun hraised => ⟨hmining hraised, hw.shown hraised hstopped⟩⟩

end Reporting

/-! ## A job -/

/-- The job that is handed to the threads stands on top of the chain. -/
theorem index_prepareJob {f : Ledger} (hg : c.Grounded f)
    (h : c.prepareJob P b keystore = .ok (some job)) :
    job.index ≠ 0 ∧ job.index.toNat ≤ c.getHeight.toNat + 1 := by
  have hheight : addU64 P.checks c.getHeight 1 = .ok (c.getHeight + 1)
      ∧ (c.getHeight + 1).toNat = c.getHeight.toNat + 1 := by
    have hle := hg.height_le
    have hmax := Chain.maxRows_lt
    have hlt : c.getHeight.toNat + 1 < 2 ^ 64 := by omega
    exact ⟨addU64_one hlt, toNat_add_one hlt⟩
  have hsucc : c.getHeight + 1 ≠ 0 ∧ (c.getHeight + 1).toNat ≤ c.getHeight.toNat + 1 := by
    refine ⟨fun h0 => ?_, le_of_eq hheight.2⟩
    rw [h0] at hheight
    exact absurd hheight.2.symm (Nat.succ_ne_zero _)
  unfold Chain.prepareJob at h
  dsimp only at h
  split at h
  · obtain ⟨strong, -, h⟩ := bind_eq_ok.mp h
    split at h
    · cases h
    · unfold Chain.updateSignBlockForMining at h
      split at h
      · cases h
      · obtain ⟨count, -, h⟩ := bind_eq_ok.mp h
        split at h
        · cases h
        · split at h
          · cases h
          · rename_i last hlast
            obtain ⟨index, hindex, h⟩ := bind_eq_ok.mp h
            rw [Chain.getHeight_of_some hlast] at hheight hsucc
            rw [hheight.1] at hindex
            cases hindex
            cases h
            rw [Chain.getHeight_of_some hlast]
            exact hsucc
  · obtain ⟨index, hindex, h⟩ := bind_eq_ok.mp h
    rw [hheight.1] at hindex
    cases hindex
    cases h
    exact hsucc

theorem sound_start {f : Ledger} (hg : c.Grounded f) : Sound (World.start (k := k) c) where
  grounded := ⟨f, hg⟩
  held _ _ h := by cases h
  few := Nat.zero_le 1
  full h := by cases h

theorem chain_refresh : (refresh m w i b).chain = w.chain := by
  unfold refresh
  dsimp only
  split
  · split
    · split
      · rfl
      · rfl
    · split
      · rfl
      · rfl
  · split
    · rfl
    · rfl

/-- No thread lowers the chain. -/
theorem height_advance (hw : Sound w) (h : advance P keystore job m w i = .ok w') :
    w.chain.getHeight.toNat ≤ w'.chain.getHeight.toNat := by
  have hsame : w'.chain = w.chain → w.chain.getHeight.toNat ≤ w'.chain.getHeight.toNat :=
    fun heq => by rw [heq]
  unfold advance at h
  cases hi : w.threads i with
  | found b =>
    -- the only step that touches the chain
    rw [hi] at h
    obtain ⟨f, hg⟩ := hw.grounded
    have hheld := hw.held i b (by rw [hi]; rfl)
    obtain ⟨⟨quality, cache⟩, hcheck, h⟩ := bind_eq_ok.mp h
    dsimp only at h
    split at h
    · rename_i hgood
      subst hgood
      obtain ⟨c', hadd, h⟩ := bind_eq_ok.mp h
      cases h
      obtain ⟨-, ⟨-, hheight⟩ | ⟨hsucc, hheight⟩⟩ :=
        append_height (b := b.signed keystore) hg hheld.1 hcheck hadd
      · exact le_of_eq (congrArg UInt64.toNat hheight.symm)
      · show _ ≤ c'.getHeight.toNat
        rw [hheight, hsucc]
        exact Nat.le_succ _
    · cases h
      exact le_refl _
  | outer b =>
    rw [hi] at h
    obtain ⟨r, -, h⟩ := bind_eq_ok.mp h
    exact hsame (Except.ok.inj h ▸ rfl)
  | drawn b waiting =>
    rw [hi] at h
    dsimp only at h
    split at h
    · exact hsame (Except.ok.inj h ▸ rfl)
    · split at h
      · exact hsame (Except.ok.inj h ▸ rfl)
      · exact hsame (Except.ok.inj h ▸ rfl)
  | hashing b =>
    rw [hi] at h
    dsimp only at h
    split at h
    · exact hsame (Except.ok.inj h ▸ rfl)
    · obtain ⟨r, -, h⟩ := bind_eq_ok.mp h
      exact hsame (Except.ok.inj h ▸ rfl)
  | tried b =>
    rw [hi] at h
    exact hsame (Except.ok.inj h ▸ chain_refresh)
  | counted count =>
    rw [hi] at h
    dsimp only at h
    split at h
    · exact hsame (Except.ok.inj h ▸ rfl)
    · exact hsame (Except.ok.inj h ▸ rfl)
  | _ =>
    rw [hi] at h
    exact hsame (Except.ok.inj h ▸ rfl)

/-- The chain of the job does not shrink, and everything said about it stays true. -/
theorem Step.keep {a : Act k} {height : ℕ} (hstep : Step P keystore job w a w') (ha : Grows w a)
    (hjob : job.index ≠ 0 ∧ job.index.toNat ≤ height + 1)
    (hw : Sound w ∧ Reporting w ∧ height ≤ w.chain.getHeight.toNat) :
    Sound w' ∧ Reporting w' ∧ height ≤ w'.chain.getHeight.toNat := by
  obtain ⟨hsound, hreporting, hheight⟩ := hw
  cases a with
  | thread i m =>
    have hjob' : job.index ≠ 0 ∧ job.index.toNat ≤ w.chain.getHeight.toNat + 1 := ⟨hjob.1, by omega⟩
    exact ⟨hsound.advance hjob' hstep, hreporting.advance hstep,
      hheight.trans (height_advance hsound hstep)⟩
  | chain a =>
    obtain ⟨c, hchain, rfl⟩ := hstep
    obtain ⟨f, hg⟩ := hsound.grounded
    have hgrows : GrowsChain a := by cases a <;> exact ha
    obtain ⟨hg', hle⟩ := chain_grows hg hchain hgrows
    exact ⟨hsound.grow hg' hle, ⟨hreporting.live, hreporting.last, hreporting.shown,
      hreporting.lowered, hreporting.told⟩, hheight.trans hle⟩
  | stop =>
    cases hstep
    exact ⟨hsound.congr rfl rfl rfl rfl fun _ => rfl, hreporting.lower, hheight⟩
  | raise =>
    cases hstep
    exact ⟨hsound.raise, hreporting.raise, hheight⟩
  | shows =>
    obtain ⟨hraised, rfl⟩ := hstep
    exact ⟨hsound.congr rfl rfl rfl rfl id, hreporting.shows hraised, hheight⟩

/-- **A job puts at most one block on the chain, and its end is reported**: in whatever order any number
of threads take their steps, and whatever the network appends to the chain meanwhile.  Each time the
flag is raised for another job while threads of this one go on, they may put one more block there. -/
theorem job_ends [NeZero k] {n : Node} {block : Block} (hn : n.Reachable P)
    (hjob : n.chain.prepareJob P block keystore = .ok (some job))
    (run : Run (Step P keystore job) Grows (World.start (k := k) n.chain) w) :
    w.added.length ≤ w.raised + 1
      ∧ (w.Over → w.stopped ≠ [] ∧ (w.raised = 0 → w.mining = false ∧ w.shown = false)) := by
  obtain ⟨f, hg⟩ := hn.grounded
  have hindex := index_prepareJob hg hjob
  have hinvariant : Sound w ∧ Reporting w ∧ n.chain.getHeight.toNat ≤ w.chain.getHeight.toNat :=
    run.invariant ⟨sound_start hg, Reporting.start n.chain, le_refl _⟩
      fun _ _ _ hw ha hstep => hstep.keep ha hindex hw
  exact ⟨hinvariant.1.few, hinvariant.2.1.of_over⟩

/-! ### Two threads that both find a hash -/

/-- The threads take their steps in this order. -/
def play (keystore : Keystore P) (job : Block) : List (Fin k × Move) → World k → Exec (World k)
  | [], w => .ok w
  | (i, m) :: moves, w => do
    let w ← advance P keystore job m w i
    play keystore job moves w

theorem play_run {moves : List (Fin k × Move)} (h : play keystore job moves w = .ok w') :
    Run (Step P keystore job) Grows w w' := by
  induction moves generalizing w with
  | nil =>
    cases h
    exact .refl _
  | cons e moves ih =>
    obtain ⟨w₁, hstep, hplay⟩ := bind_eq_ok.mp h
    exact (Run.single (a := .thread e.1 e.2) trivial hstep).trans (ih hplay)

/-- A step with the nonce that is given. -/
def quickMove (nonce : UInt64) : Move := ⟨Sample.now, 0, nonce, false, false, false⟩

/-- Both threads find a hash, then the second one is faster. -/
def race : List (Fin 2 × Move) :=
  [(0, quickMove 2), (1, quickMove 3), (0, quickMove 2), (1, quickMove 3), (0, quickMove 2),
    (1, quickMove 3), (0, quickMove 2), (1, quickMove 3), (1, quickMove 3), (0, quickMove 2)]

/-- A domain block that is ready to be mined. -/
def raceBlock : Block :=
  Block.new (some (Sample.domain ⟨[1]⟩)) Sample.keystore.getPublic Bytes.default 24

theorem job_ends_race : ∃ (n : Node) (job : Block) (w : World 2),
    n.Reachable (Sample.platform true)
    ∧ n.chain.prepareJob (Sample.platform true) raceBlock Sample.keystore = .ok (some job)
    ∧ Run (Step (Sample.platform true) Sample.keystore job) Grows (World.start n.chain) w
    ∧ w.added.length = 1 ∧ w.stopped = [true, false] ∧ w.Over
    ∧ (w.added.length ≤ w.raised + 1
      ∧ (w.Over → w.stopped ≠ [] ∧ (w.raised = 0 → w.mining = false ∧ w.shown = false))) := by
  have hrun : ∃ n, Node.receive (Sample.platform true) Sample.now [Sample.genesis]
        (Node.fresh Sample.genesis.hash) = .ok n
      ∧ ∃ job, n.chain.prepareJob (Sample.platform true) raceBlock Sample.keystore = .ok job
      ∧ job.isSome ∧ ∃ w, play Sample.keystore (job.getD Sample.genesis) race (World.start n.chain) = .ok w
      ∧ w.added.length = 1 ∧ w.stopped = [true, false]
      ∧ ∀ i, w.threads i = .finished ∨ w.threads i = .reported := by
    decide +kernel
  obtain ⟨n, hn, x, hjob, hsome, w, hplay, hadded, hstopped, hover⟩ := hrun
  obtain ⟨job, rfl⟩ := Option.isSome_iff_exists.mp hsome
  have hreach : n.Reachable (Sample.platform true) := ⟨_, Node.receive_run (fun _ _ _ => trivial) hn⟩
  exact ⟨n, job, w, hreach, hjob, play_run hplay, hadded, hstopped, hover,
    job_ends hreach hjob (play_run hplay)⟩

end MiningThreads
