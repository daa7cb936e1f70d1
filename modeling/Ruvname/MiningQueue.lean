/-
# The queue of mining jobs

`Miner` of `miner.rs` and the loop of its main thread.  A domain that is being mined gives way to a
signing block that is due, goes back to the head of the queue, and is resumed.  What is shared with
the threads that mine is one flag: they only clear it, and only the main thread raises it.

However the user, the loop and the threads take turns, no domain block that was queued gets lost or is
queued twice, and the blocks are mined in the order in which they were queued.
-/
import Ruvname.OwnBlocks

open Exec

variable (P : Platform)

/-- `MineJob`. -/
structure MineJob where
  start : Int64
  block : Block
  keystore : Keystore P

variable {P} in
/-- `is_full`. -/
def MineJob.isFull (job : MineJob P) : Bool := job.block.transaction.isSome

variable {P} in
/-- `is_signing`. -/
def MineJob.isSigning (job : MineJob P) : Bool := job.block.transaction.isNone

variable {P} in
/-- `is_due`. -/
def MineJob.isDue (now : UtcTime) (job : MineJob P) : Bool := job.start = 0 ∨ job.start < now.secs

/-- `Miner`, with the local variable of `run_main_loop`. -/
structure Miner where
  jobs : List (MineJob P)
  running : Bool
  mining : Bool
  currentJob : Option (MineJob P)

/-- What the main thread meets in one turn of its loop. -/
structure Miner.Turn where
  now : UtcTime
  /-- Whether somebody has cleared `mining` before it is read, the first, second and last time. -/
  cleared : Fin 3 → Bool
  /-- The chain and the keys behind the lock of the context. -/
  chain : Chain
  keystores : List (Keystore P)
  /-- The random numbers of `get_sign_block` and of the delay. -/
  choice : ℕ
  delay : Int64

namespace Miner

variable {P}

/-- `Miner::new`, after `run_main_loop` has started. -/
def new : Miner P := ⟨[], true, false, none⟩

/-- `add_block`: a signing block takes the place of all others in the queue. -/
def addBlock (m : Miner P) (block : Block) (keystore : Keystore P) : Miner P :=
  let jobs := if block.transaction.isNone then m.jobs.filter MineJob.isFull else m.jobs
  { m with jobs := jobs ++ [⟨0, block, keystore⟩] }

/-- `stop`. -/
def stop (m : Miner P) : Miner P := { m with mining := false, running := false }

/-- A thread, or the event `ActionStopMining`, clears the flag. -/
def clear (m : Miner P) (cleared : Bool) : Miner P := { m with mining := m.mining && !cleared }

/-- `BLOCK_SIGNERS_START_RANDOM`. -/
def blockSignersStartRandom : Int64 := 90

/-- Asks the blockchain whether we have to sign something. -/
def askForSignBlock (t : Turn P) (m : Miner P) : Exec (Miner P) := do
  let (found, _) ← t.chain.getSignBlock P t.now t.choice t.keystores
  match found with
  | none => .ok m
  | some (block, keystore) =>
    -- We start mining sign block after some time, not everyone in the same time
    let start := t.now.secs + t.delay % blockSignersStartRandom
    .ok { m with jobs := m.jobs ++ [⟨start, block, keystore⟩] }

/-- The end of a turn.  The job that is over is dropped. -/
def endTurn (t : Turn P) (m : Miner P) : Miner P × Option (MineJob P) :=
  let m := m.clear (t.cleared 2)
  if m.mining then (m, none) else ({ m with currentJob := none }, m.currentJob)

/-- A turn while something of ours is mined. -/
def turnFull (t : Turn P) (current : MineJob P) (m : Miner P) : Exec (Miner P × Option (MineJob P)) :=
  match m.jobs with
  | [] => do
    let m ← askForSignBlock t m
    .ok (endTurn t m)
  | job :: jobs =>
    -- If we have some signing job
    if job.isSigning ∧ job.isDue t.now then
      -- Return current job to queue
      .ok ({ m with jobs := current :: jobs, mining := true, currentJob := some job }, none)
    else if job.isSigning then .ok (endTurn t m)
    else do
      let m ← askForSignBlock t m
      .ok (endTurn t m)

/-- A turn while nothing is mined. -/
def turnIdle (t : Turn P) (m : Miner P) : Exec (Miner P × Option (MineJob P)) :=
  match m.jobs with
  | [] => do
    let m ← askForSignBlock t m
    .ok (endTurn t m)
  | job :: jobs =>
    if job.isDue t.now then
      .ok (endTurn t { m with jobs := jobs, mining := true, currentJob := some job })
    else .ok (endTurn t m)

/-- One turn of `run_main_loop`, and the job that it finds to be over. -/
def turn (t : Turn P) (m : Miner P) : Exec (Miner P × Option (MineJob P)) :=
  if ¬ m.running then .ok (m, none)
  else
    match m.currentJob with
    | none => m.turnIdle t
    | some current =>
      let m := m.clear (t.cleared 0)
      -- If we are mining signing block
      if m.mining ∧ current.isSigning then .ok (m, none)
      else
        let m := m.clear (t.cleared 1)
        -- If we are mining something ours
        if m.mining ∧ current.isFull then m.turnFull t current else .ok (endTurn t m)

/-! ## Runs -/

variable (P) in
/-- What happens to a miner. -/
inductive Event where
  | addBlock (block : Block) (keystore : Keystore P)
  /-- The flag is cleared between two turns. -/
  | clear
  | stop
  | turn (t : Turn P)

variable (P) in
/-- A miner, with the jobs that were queued by `add_block` and those that have ended. -/
structure Account where
  miner : Miner P
  queued : List (MineJob P)
  ended : List (MineJob P)

def step (a : Account P) : Event P → Exec (Account P)
  | .addBlock block keystore =>
    .ok { a with miner := a.miner.addBlock block keystore, queued := a.queued ++ [⟨0, block, keystore⟩] }
  | .clear => .ok { a with miner := a.miner.clear true }
  | .stop => .ok { a with miner := a.miner.stop }
  | .turn t => do
    let (m, job) ← a.miner.turn t
    .ok { a with miner := m, ended := a.ended ++ job.toList }

/-- The miner after some events. -/
def after : List (Event P) → Account P → Exec (Account P)
  | [], a => .ok a
  | e :: events, a => do
    let a ← step a e
    after events a

/-! ## Domain blocks stay in order -/

/-- The domain blocks among some jobs. -/
def fullJobs (jobs : List (MineJob P)) : List (MineJob P) := jobs.filter MineJob.isFull

/-- The domain blocks that are mined or wait. -/
def unfinished (m : Miner P) : List (MineJob P) := fullJobs (m.currentJob.toList ++ m.jobs)

/-- The full jobs of two lists in a row. -/
@[simp] theorem fullJobs_append (l l' : List (MineJob P)) :
    fullJobs (l ++ l') = fullJobs l ++ fullJobs l' := List.filter_append ..

theorem fullJobs_cons (job : MineJob P) (l : List (MineJob P)) :
    fullJobs (job :: l) = fullJobs [job] ++ fullJobs l := fullJobs_append [job] l

/-- Clearing the queue of signing blocks leaves the domain blocks. -/
theorem fullJobs_filter (l : List (MineJob P)) : fullJobs (l.filter MineJob.isFull) = fullJobs l := by
  rw [fullJobs, fullJobs, List.filter_filter]
  simp

/-- A signing job is none of them. -/
theorem fullJobs_of_signing {job : MineJob P} (h : job.isSigning) : fullJobs [job] = [] := by
  have hnone : job.block.transaction = none := Option.isNone_iff_eq_none.mp h
  simp [fullJobs, MineJob.isFull, hnone]

/-- A block that `get_sign_block` offers is not a domain block. -/
theorem transaction_getSignBlock {c : Chain} {now : UtcTime} {rng : ℕ} {keys : List (Keystore P)}
    {block : Block} {keystore : Keystore P} {cache : SignersCache}
    (h : c.getSignBlock P now rng keys = .ok (some (block, keystore), cache)) :
    block.transaction = none := by
  obtain ⟨_, _, _, _, _, _, rfl⟩ := Chain.getSignBlock_eq_some h
  rfl

variable {m m' : Miner P} {t : Turn P} {job : Option (MineJob P)}

/-- What is asked for is not a domain block. -/
theorem askForSignBlock_spec (h : askForSignBlock t m = .ok m') :
    unfinished m' = unfinished m ∧ m'.currentJob = m.currentJob := by
  obtain ⟨⟨found, cache⟩, hfound, h⟩ := bind_eq_ok.mp h
  cases found with
  | none =>
    cases h
    exact ⟨rfl, rfl⟩
  | some r =>
    obtain ⟨block, keystore⟩ := r
    have hsigning : ∀ start, fullJobs [(⟨start, block, keystore⟩ : MineJob P)] = [] := by
      intro start
      apply fullJobs_of_signing
      rw [MineJob.isSigning, transaction_getSignBlock hfound]
      rfl
    cases h
    refine ⟨?_, rfl⟩
    unfold unfinished
    rw [fullJobs_append, fullJobs_append, fullJobs_append, hsigning, List.append_nil]

/-- The end of a turn only takes out the job that it reports. -/
theorem endTurn_spec (t : Turn P) (m : Miner P) :
    fullJobs (endTurn t m).2.toList ++ unfinished (endTurn t m).1 = unfinished m := by
  unfold endTurn
  dsimp only
  split
  · rfl
  · show fullJobs m.currentJob.toList ++ fullJobs ([] ++ m.jobs) = _
    rw [List.nil_append, unfinished, fullJobs_append]

/-- A turn that ends with what it has. -/
theorem unfinished_of_endTurn {m₀ : Miner P} (hm₀ : unfinished m₀ = unfinished m)
    (h : endTurn t m₀ = (m', job)) : fullJobs job.toList ++ unfinished m' = unfinished m := by
  have hspec := endTurn_spec t m₀
  rw [h, hm₀] at hspec
  exact hspec

/-- A turn that asks the chain for something to sign before it ends. -/
theorem unfinished_of_ask {m₀ : Miner P} (hm₀ : unfinished m₀ = unfinished m)
    (h : (askForSignBlock t m₀ >>= fun m => .ok (endTurn t m)) = .ok (m', job)) :
    fullJobs job.toList ++ unfinished m' = unfinished m := by
  obtain ⟨m₁, hm₁, hend⟩ := bind_eq_ok.mp h
  exact unfinished_of_endTurn ((askForSignBlock_spec hm₁).1.trans hm₀) (Except.ok.inj hend)

/-- Without a current job the head of the queue is mined, if it is due. -/
theorem turnIdle_spec (hcurrent : m.currentJob = none) (h : turnIdle t m = .ok (m', job)) :
    fullJobs job.toList ++ unfinished m' = unfinished m := by
  unfold turnIdle at h
  cases hjobs : m.jobs with
  | nil =>
    rw [hjobs] at h
    exact unfinished_of_ask rfl h
  | cons head jobs =>
    rw [hjobs] at h
    dsimp only at h
    split at h
    · refine unfinished_of_endTurn ?_ (Except.ok.inj h)
      unfold unfinished
      rw [hcurrent, hjobs]
      rfl
    · exact unfinished_of_endTurn rfl (Except.ok.inj h)

/-- A domain block gives way to a signing block only, and goes back to the head of the queue. -/
theorem turnFull_spec {current : MineJob P} (hcurrent : m.currentJob = some current)
    (h : turnFull t current m = .ok (m', job)) :
    fullJobs job.toList ++ unfinished m' = unfinished m := by
  unfold turnFull at h
  cases hjobs : m.jobs with
  | nil =>
    rw [hjobs] at h
    exact unfinished_of_ask rfl h
  | cons head jobs =>
    rw [hjobs] at h
    dsimp only at h
    split at h
    · rename_i hsigning
      cases h
      have hjobs₁ : fullJobs (head :: jobs) = fullJobs jobs := by
        rw [fullJobs_cons, fullJobs_of_signing hsigning.1, List.nil_append]
      have hjobs₂ : fullJobs (head :: current :: jobs) = fullJobs (current :: jobs) := by
        rw [fullJobs_cons, fullJobs_of_signing hsigning.1, List.nil_append]
      show fullJobs (head :: current :: jobs) = unfinished m
      rw [unfinished, hcurrent, hjobs, hjobs₂, fullJobs_cons, ← hjobs₁]
      exact (fullJobs_append [current] (head :: jobs)).symm
    · split at h
      · exact unfinished_of_endTurn rfl (Except.ok.inj h)
      · exact unfinished_of_ask rfl h

/-- **One turn**: a domain block is unfinished as long as the turn does not report its end. -/
theorem turn_spec (h : m.turn t = .ok (m', job)) :
    fullJobs job.toList ++ unfinished m' = unfinished m := by
  unfold turn at h
  split at h
  · cases h
    rfl
  · cases hcurrent : m.currentJob with
    | none =>
      rw [hcurrent] at h
      exact turnIdle_spec hcurrent h
    | some current =>
      rw [hcurrent] at h
      dsimp only at h
      have hsame : unfinished ((m.clear (t.cleared 0)).clear (t.cleared 1)) = unfinished m := rfl
      split at h
      · cases h
        rfl
      · split at h
        · rw [← hsame]
          exact turnFull_spec hcurrent h
        · exact unfinished_of_endTurn hsame (Except.ok.inj h)

/-- **Nothing is lost, repeated or overtaken**: those that have ended and those that are unfinished are
the domain blocks that were queued, in order. -/
def InOrder (a : Account P) : Prop := fullJobs a.ended ++ unfinished a.miner = fullJobs a.queued

/-- A block that is added comes after all that is unfinished. -/
theorem unfinished_addBlock (m : Miner P) (block : Block) (keystore : Keystore P) :
    unfinished (m.addBlock block keystore) = unfinished m ++ fullJobs [⟨0, block, keystore⟩] := by
  unfold unfinished addBlock
  dsimp only
  rw [fullJobs_append, fullJobs_append, fullJobs_append, ← List.append_assoc]
  congr 2
  split
  · exact fullJobs_filter m.jobs
  · rfl

/-- Each turn keeps the order. -/
theorem InOrder.step {a a' : Account P} {e : Event P} (ha : InOrder a) (h : Miner.step a e = .ok a') :
    InOrder a' := by
  unfold InOrder at ha
  cases e with
  | addBlock block keystore =>
    cases h
    show fullJobs a.ended ++ unfinished (a.miner.addBlock block keystore)
      = fullJobs (a.queued ++ [⟨0, block, keystore⟩])
    rw [unfinished_addBlock, ← List.append_assoc, ha, fullJobs_append]
  | clear => exact Except.ok.inj h ▸ ha
  | stop => exact Except.ok.inj h ▸ ha
  | turn t =>
    obtain ⟨⟨m, job⟩, hturn, h⟩ := bind_eq_ok.mp h
    cases h
    show fullJobs (a.ended ++ job.toList) ++ unfinished m = fullJobs a.queued
    rw [fullJobs_append, List.append_assoc, turn_spec hturn, ha]

/-- **So do all turns.** -/
theorem InOrder.after {events : List (Event P)} {a a' : Account P} (ha : InOrder a)
    (h : Miner.after events a = .ok a') : InOrder a' := by
  induction events generalizing a with
  | nil => exact Except.ok.inj h ▸ ha
  | cons e events ih =>
    obtain ⟨a₁, hstep, hafter⟩ := bind_eq_ok.mp h
    exact ih (ha.step hstep) hafter

/-- **Domain blocks are mined in the order in which they were queued, and none is lost or mined twice
over**, whatever signing blocks come between and whenever somebody clears the flag. -/
theorem inOrder_after (events : List (Event P)) {a : Account P} (h : after events ⟨new, [], []⟩ = .ok a) :
    fullJobs a.ended ++ fullJobs (a.miner.currentJob.toList ++ a.miner.jobs) = fullJobs a.queued :=
  InOrder.after (a := ⟨new, [], []⟩) rfl h

/-! ### A domain block that gives way -/

/-- A turn at the head of an empty chain. -/
def quietTurn (cleared : Fin 3 → Bool) : Turn (Sample.platform true) :=
  ⟨Sample.now, cleared, Chain.new Bytes.default Db.empty, [Sample.keystore], 0, 0⟩

/-- A domain block is mined and interrupted by a signing block.  Another one is queued, the signing
block ends, and the first domain block is mined again. -/
def interruption : List (Event (Sample.platform true)) :=
  [.addBlock (Block.new (some (Sample.domain ⟨[1]⟩)) Bytes.default Bytes.default 24) Sample.keystore,
    .turn (quietTurn fun _ => false),
    .addBlock (Block.new none Bytes.default ⟨[1]⟩ 16) Sample.keystore,
    .turn (quietTurn fun _ => false),
    .addBlock (Block.new (some (Sample.domain ⟨[2]⟩)) Bytes.default Bytes.default 24) Sample.keystore,
    .turn (quietTurn fun i => i = 0),
    .turn (quietTurn fun _ => false)]

/-- A domain block is put back for a signing block, and keeps its place. -/
theorem inOrder_interruption : ∃ a : Account (Sample.platform true),
    after interruption ⟨new, [], []⟩ = .ok a ∧ a.ended.length = 1 ∧ a.queued.length = 3
      ∧ fullJobs a.ended ++ fullJobs (a.miner.currentJob.toList ++ a.miner.jobs) = fullJobs a.queued :=
  ⟨_, rfl, rfl, rfl, inOrder_after interruption rfl⟩

end Miner
