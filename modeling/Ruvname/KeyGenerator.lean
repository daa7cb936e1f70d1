/-
# The generator of keys

`create_key` of `keystore.rs`, with the loop of `generate_key`.  Several threads draw keys until one
of them is strong enough to mine domains.  They share a flag and a counter; a thread that has found a
key clears the flag, but others may have found theirs before they look at it again.

The counter tells which thread is the last.  A thread that is late counts itself when others have
already left, so the end may be announced more than once; but nothing is announced after it for good
(`KeyGenerator.run_announced`).
-/
import Ruvname.Reachable
import Ruvname.Run

open Exec

namespace KeyGenerator

/-- Where a thread is. -/
inductive Phase where
  | ready
  /-- At the head of the loop of `generate_key`. -/
  | searching
  /-- The key was not strong enough. -/
  | missed
  /-- `generate_key` has returned a key. -/
  | found (buf : List UInt8)
  /-- The key has been added, or there is none. -/
  | leaving
  /-- So many threads are left. -/
  | counted (miners : ℕ)
  | ended
  deriving DecidableEq

/-- The events of the generator.  The file of a new key is empty; its hash is computed when it is
first asked for (`get_hash`), which is here. -/
inductive Event where
  | keyGeneratorStarted
  | keyCreated (publicKey hash : Bytes)
  | keyGeneratorStopped
  deriving DecidableEq

/-- The key that an event announces. -/
def Event.key? : Event → Option Bytes
  | keyCreated publicKey _ => some publicKey
  | _ => none

/-- What the threads share, and what has been posted. -/
structure World (k : ℕ) where
  mining : Bool
  minersCount : ℕ
  /-- The public keys of the context. -/
  keystores : List Bytes
  posted : List Event
  threads : Fin k → Phase
  /-- Which thread has added which key.  No thread reads it. -/
  finders : List (Fin k × Bytes)

namespace World

variable {k : ℕ}

/-- The threads are spawned. -/
def start (keystores : List Bytes) : World k :=
  ⟨true, 0, keystores, [.keyGeneratorStarted], fun _ => .ready, []⟩

/-- Thread `i` goes on. -/
def goto (w : World k) (i : Fin k) (p : Phase) : World k :=
  { w with threads := Function.update w.threads i p }

/-- The keys that have been announced. -/
def announced (w : World k) : List Bytes := w.posted.filterMap Event.key?

end World

section

variable (P : Platform) (verifyingKey : List UInt8 → Bytes) {k : ℕ}

/-- **One step of a thread**; `buf` are the random bytes that it draws.  A key is added and announced
while the context is locked. -/
def advance (buf : List UInt8) (w : World k) (i : Fin k) : Exec (World k) :=
  match w.threads i with
  | .ready => .ok { w.goto i .searching with minersCount := w.minersCount + 1 }
  | .searching => do
    let difficulty ← keyHashDifficulty (P.blakeout (verifyingKey buf).data)
    .ok (if difficulty ≥ keystoreDifficulty.toNat then { w.goto i (.found buf) with mining := false }
      else w.goto i .missed)
  | .missed => .ok (w.goto i (if w.mining then .searching else .leaving))
  | .found buf =>
    .ok { w.goto i .leaving with
      keystores := w.keystores ++ [verifyingKey buf]
      posted := w.posted ++ [.keyCreated (verifyingKey buf) (P.blakeout (verifyingKey buf).data)]
      finders := w.finders ++ [(i, verifyingKey buf)] }
  | .leaving =>
    .ok { w.goto i (.counted (w.minersCount - 1)) with minersCount := w.minersCount - 1 }
  | .counted miners =>
    .ok { w.goto i .ended with
      posted := if miners = 0 then w.posted ++ [.keyGeneratorStopped] else w.posted }
  | .ended => .ok w

/-- What can happen. -/
inductive Act (k : ℕ) where
  | thread (i : Fin k) (buf : List UInt8)
  /-- The event `ActionStopMining`. -/
  | stop

/-- The transitions. -/
def Step (w : World k) (a : Act k) (w' : World k) : Prop :=
  match a with
  | .thread i buf => advance P verifyingKey buf w i = .ok w'
  | .stop => w' = { w with mining := false }

end

/-! ## Counting the threads -/

/-- A thread counts itself until it leaves. -/
def Phase.active : Phase → ℕ
  | searching | missed | found _ | leaving => 1
  | ready | counted _ | ended => 0

/-- A thread that has announced a key, or will announce none. -/
def Phase.Passed : Phase → Prop
  | leaving | counted _ | ended => True
  | ready | searching | missed | found _ => False

/-- While there is such a thread, the end is still to be announced. -/
def Phase.Responsible : Phase → Prop
  | counted miners => miners = 0
  | ended => False
  | ready | searching | missed | found _ | leaving => True

theorem Phase.responsible_of_active {p : Phase} (h : p.active ≠ 0) : p.Responsible := by
  cases p with
  | counted miners => exact absurd rfl h
  | ended => exact absurd rfl h
  | _ => trivial

variable {k : ℕ}

/-- The sum over all threads. -/
def total (weight : Phase → ℕ) (threads : Fin k → Phase) : ℕ := ∑ i, weight (threads i)

/-- One thread goes on. -/
theorem total_update (weight : Phase → ℕ) (threads : Fin k → Phase) (i : Fin k) (p : Phase) :
    total weight (Function.update threads i p) + weight (threads i)
      = total weight threads + weight p := by
  have hnew : total weight (Function.update threads i p)
      = weight p + ∑ j ∈ Finset.univ \ {i}, weight (threads j) := by
    have h := Finset.sum_update_of_mem (Finset.mem_univ i) (weight ∘ threads) (weight p)
    rw [← Function.comp_update] at h
    exact h
  have hold : total weight threads
      = weight (threads i) + ∑ j ∈ Finset.univ \ {i}, weight (threads j) :=
    Finset.sum_eq_add_sum_sdiff_singleton_of_mem (Finset.mem_univ i) _
  omega

/-- More is counted than this thread, so there is another one. -/
theorem exists_active {threads : Fin k → Phase} {i : Fin k}
    (h : (threads i).active < total Phase.active threads) : ∃ j, j ≠ i ∧ (threads j).active ≠ 0 := by
  by_contra hnone
  push Not at hnone
  have hsum : total Phase.active threads = (threads i).active :=
    Finset.sum_eq_single i (fun j _ hj => hnone j hj) fun hi => absurd (Finset.mem_univ i) hi
  omega

/-! ## The invariant -/

section

variable (P : Platform) (verifyingKey : List UInt8 → Bytes)

/-- The key is strong enough to mine domains. -/
def Strong (key : Bytes) : Prop := checkPublicKeyStrength P key keystoreDifficulty = .ok true

/-- **What holds at every moment**: the counter is right, what is announced is what has been added,
and either the end has been announced last or there is a thread that sees to it. -/
structure Sound (old : List Bytes) (w : World k) : Prop where
  count : w.minersCount = total Phase.active w.threads
  keystores : w.keystores = old ++ w.announced
  announced : w.announced = w.finders.map Prod.snd
  once : (w.finders.map Prod.fst).Nodup
  passed : ∀ i ∈ w.finders.map Prod.fst, (w.threads i).Passed
  strong : ∀ key ∈ w.announced, Strong P key
  mining : w.announced ≠ [] → w.mining = false
  found : ∀ i buf, w.threads i = .found buf → w.mining = false ∧ Strong P (verifyingKey buf)
  last : w.posted.getLast? = some .keyGeneratorStopped ∨ ∃ i, (w.threads i).Responsible

theorem sound_start (old : List Bytes) (hk : 0 < k) :
    Sound P verifyingKey old (World.start old : World k) where
  count := by simp [total, World.start, Phase.active]
  keystores := (List.append_nil old).symm
  announced := rfl
  once := List.nodup_nil
  passed i h := by cases h
  strong key h := by cases h
  mining h := absurd rfl h
  found i buf h := by cases h
  last := Or.inr ⟨⟨0, hk⟩, trivial⟩

end

namespace Sound

variable {P : Platform} {verifyingKey : List UInt8 → Bytes} {old : List Bytes} {w w' : World k}
  {i : Fin k} {p : Phase}

/-- The keys that threads have found, when one of them goes on. -/
theorem found_update (h : Sound P verifyingKey old w) {mining : Bool}
    (hmining : w.mining = false → mining = false)
    (hfound : ∀ buf, p = .found buf → mining = false ∧ Strong P (verifyingKey buf)) (j : Fin k)
    (buf : List UInt8) (hj : Function.update w.threads i p j = .found buf) :
    mining = false ∧ Strong P (verifyingKey buf) := by
  by_cases hji : j = i
  · rw [hji, Function.update_self] at hj
    exact hfound buf hj
  · rw [Function.update_of_ne hji] at hj
    exact (h.found j buf hj).imp_left hmining

/-- A thread that has added a key adds no other one. -/
theorem not_mem_finders (h : Sound P verifyingKey old w) {buf : List UInt8}
    (hi : w.threads i = .found buf) : i ∉ w.finders.map Prod.fst := by
  intro hmem
  have hpassed := h.passed i hmem
  rw [hi] at hpassed
  exact hpassed

/-- The threads that have added a key have passed, when one of them goes on. -/
theorem passed_update (h : Sound P verifyingKey old w)
    (hpassed : (w.threads i).Passed → p.Passed) (j : Fin k) (hj : j ∈ w.finders.map Prod.fst) :
    (Function.update w.threads i p j).Passed := by
  have hold := h.passed j hj
  by_cases hji : j = i
  · rw [hji, Function.update_self]
    exact hpassed (hji ▸ hold)
  · rwa [Function.update_of_ne hji]

/-- A thread goes on and announces nothing. -/
theorem move (h : Sound P verifyingKey old w) {mining : Bool} {count : ℕ} {q : Phase}
    (hi : w.threads i = q) (hmining : w.mining = false → mining = false)
    (hcount : count + q.active = w.minersCount + p.active) (hpassed : q.Passed → p.Passed)
    (hfound : ∀ buf, p = .found buf → mining = false ∧ Strong P (verifyingKey buf))
    (hlast : w.posted.getLast? = some .keyGeneratorStopped ∨ p.Responsible ∨
      ∃ j, j ≠ i ∧ (w.threads j).Responsible) :
    Sound P verifyingKey old { w.goto i p with mining := mining, minersCount := count } where
  count := by
    have hsum := total_update Phase.active w.threads i p
    have hold := h.count
    rw [hi] at hsum
    show count = total Phase.active (Function.update w.threads i p)
    omega
  keystores := h.keystores
  announced := h.announced
  once := h.once
  passed := h.passed_update (hi ▸ hpassed)
  strong := h.strong
  mining hne := hmining (h.mining hne)
  found := h.found_update hmining hfound
  last := by
    rcases hlast with hlast | hp | ⟨j, hj, hresponsible⟩
    · exact Or.inl hlast
    · refine Or.inr ⟨i, ?_⟩
      show (Function.update w.threads i p i).Responsible
      rwa [Function.update_self]
    · refine Or.inr ⟨j, ?_⟩
      show (Function.update w.threads i p j).Responsible
      rwa [Function.update_of_ne hj]

/-- A thread adds and announces its key. -/
theorem create (h : Sound P verifyingKey old w) {buf : List UInt8} (hi : w.threads i = .found buf) :
    Sound P verifyingKey old { w.goto i .leaving with
      keystores := w.keystores ++ [verifyingKey buf]
      posted := w.posted ++ [.keyCreated (verifyingKey buf) (P.blakeout (verifyingKey buf).data)]
      finders := w.finders ++ [(i, verifyingKey buf)] } := by
  obtain ⟨hmining, hstrong⟩ := h.found i buf hi
  have hannounced : (w.posted ++ [Event.keyCreated (verifyingKey buf)
      (P.blakeout (verifyingKey buf).data)]).filterMap Event.key?
      = w.announced ++ [verifyingKey buf] := List.filterMap_append
  have hactive := total_update Phase.active w.threads i .leaving
  rw [hi] at hactive
  refine ⟨?_, ?_, ?_, ?_, ?_, ?_, fun _ => hmining, h.found_update id (fun _ hbuf => by cases hbuf),
    ?_⟩
  · exact h.count.trans (Nat.add_right_cancel hactive).symm
  · show w.keystores ++ _ = old ++ List.filterMap _ _
    rw [hannounced, h.keystores, List.append_assoc]
  · show List.filterMap _ _ = (w.finders ++ _).map Prod.snd
    rw [hannounced, h.announced, List.map_append]
    rfl
  · show ((w.finders ++ _).map Prod.fst).Nodup
    rw [List.map_append]
    refine List.nodup_append.mpr ⟨h.once, List.nodup_singleton i, fun j hj i' hi' hji => ?_⟩
    rw [hji, List.mem_singleton.mp hi'] at hj
    exact h.not_mem_finders hi hj
  · intro j hj
    change j ∈ (w.finders ++ _).map Prod.fst at hj
    rw [List.map_append] at hj
    rcases List.mem_append.mp hj with hj | hj
    · exact h.passed_update (p := .leaving) (fun _ => trivial) j hj
    · rw [List.mem_singleton.mp hj]
      show (Function.update w.threads i .leaving i).Passed
      rw [Function.update_self]
      trivial
  · intro key hkey
    change key ∈ List.filterMap _ _ at hkey
    rw [hannounced] at hkey
    rcases List.mem_append.mp hkey with hkey | hkey
    · exact h.strong key hkey
    · rw [List.mem_singleton.mp hkey]
      exact hstrong
  · refine Or.inr ⟨i, ?_⟩
    show (Function.update w.threads i .leaving i).Responsible
    rw [Function.update_self]
    trivial

/-- The last thread announces the end. -/
theorem stop (h : Sound P verifyingKey old w) (hi : w.threads i = .counted 0) :
    Sound P verifyingKey old { w.goto i .ended with
      posted := w.posted ++ [.keyGeneratorStopped] } := by
  have hannounced : (w.posted ++ [Event.keyGeneratorStopped]).filterMap Event.key? = w.announced := by
    rw [List.filterMap_append]
    exact List.append_nil _
  have hactive := total_update Phase.active w.threads i .ended
  rw [hi] at hactive
  refine ⟨?_, ?_, ?_, h.once, h.passed_update fun _ => trivial, ?_, ?_,
    h.found_update id (fun _ hbuf => by cases hbuf), ?_⟩
  · exact h.count.trans (Nat.add_right_cancel hactive).symm
  · show w.keystores = old ++ List.filterMap _ _
    rw [hannounced]
    exact h.keystores
  · show List.filterMap _ _ = _
    rw [hannounced]
    exact h.announced
  · show ∀ key ∈ List.filterMap _ _, Strong P key
    rw [hannounced]
    exact h.strong
  · show List.filterMap _ _ ≠ [] → w.mining = false
    rw [hannounced]
    exact h.mining
  · exact Or.inl List.getLast?_concat

/-- A thread takes itself off the count: if others are counted as well, the last of them sees to the
end of the run. -/
theorem leave (h : Sound P verifyingKey old w) (hi : w.threads i = .leaving) :
    Sound P verifyingKey old
      { w.goto i (.counted (w.minersCount - 1)) with minersCount := w.minersCount - 1 } := by
  have hcount := h.count
  have hself : (w.threads i).active = 1 := by rw [hi]; rfl
  have hle : (w.threads i).active ≤ total Phase.active w.threads :=
    Finset.single_le_sum (f := fun j => (w.threads j).active) (fun _ _ => Nat.zero_le _)
      (Finset.mem_univ i)
  refine h.move hi id ?_ id (fun _ hbuf => by cases hbuf) ?_
  · show w.minersCount - 1 + 1 = w.minersCount + 0
    omega
  · by_cases hone : w.minersCount = 1
    · exact Or.inr (Or.inl (by rw [hone]; rfl))
    · have hless : (w.threads i).active < total Phase.active w.threads := by omega
      obtain ⟨j, hj, hactive⟩ := exists_active hless
      exact Or.inr (Or.inr ⟨j, hj, Phase.responsible_of_active hactive⟩)

/-- **One step of a thread**, by cases on where it is. -/
theorem advance {buf : List UInt8} (h : Sound P verifyingKey old w)
    (hstep : KeyGenerator.advance P verifyingKey buf w i = .ok w') : Sound P verifyingKey old w' := by
  unfold KeyGenerator.advance at hstep
  cases hi : w.threads i with
  | ready =>
    rw [hi] at hstep
    cases hstep
    exact h.move hi id rfl id (fun _ hbuf => by cases hbuf) (Or.inr (Or.inl trivial))
  | searching =>
    rw [hi] at hstep
    obtain ⟨difficulty, hdifficulty, hstep⟩ := bind_eq_ok.mp hstep
    split_ifs at hstep with hstrong
    · cases hstep
      -- the key passes the test that the chain puts to it
      have hpass : Strong P (verifyingKey buf) :=
        bind_eq_ok.mpr ⟨difficulty, hdifficulty, congrArg Except.ok (decide_eq_true hstrong)⟩
      refine h.move hi (fun _ => rfl) rfl id (fun buf' hbuf => ?_) (Or.inr (Or.inl trivial))
      cases hbuf
      exact ⟨rfl, hpass⟩
    · cases hstep
      exact h.move hi id rfl id (fun _ hbuf => by cases hbuf) (Or.inr (Or.inl trivial))
  | missed =>
    rw [hi] at hstep
    cases hstep
    cases hmining : w.mining with
    | true =>
      exact h.move hi id rfl id (fun _ hbuf => by cases hbuf) (Or.inr (Or.inl trivial))
    | false =>
      exact h.move hi id rfl False.elim (fun _ hbuf => by cases hbuf) (Or.inr (Or.inl trivial))
  | found buf =>
    rw [hi] at hstep
    cases hstep
    exact h.create hi
  | leaving =>
    rw [hi] at hstep
    cases hstep
    exact h.leave hi
  | counted miners =>
    rw [hi] at hstep
    cases hstep
    by_cases hzero : miners = 0
    · subst hzero
      exact h.stop hi
    · rw [if_neg hzero]
      refine h.move hi id rfl id (fun _ hbuf => by cases hbuf) ?_
      -- it is another thread that sees to it: this one has learnt that it is not the last
      refine h.last.imp_right fun ⟨j, hresponsible⟩ => Or.inr ⟨j, fun hji => ?_, hresponsible⟩
      rw [hji, hi] at hresponsible
      exact hzero hresponsible
  | ended =>
    rw [hi] at hstep
    cases hstep
    exact h

/-- **One step.** -/
theorem step {a : Act k} (h : Sound P verifyingKey old w) (hstep : Step P verifyingKey w a w') :
    Sound P verifyingKey old w' := by
  cases a with
  | thread i buf => exact h.advance hstep
  | stop =>
    cases hstep
    exact ⟨h.count, h.keystores, h.announced, h.once, h.passed, h.strong, fun _ => rfl,
      fun i buf hi => ⟨rfl, (h.found i buf hi).2⟩, h.last⟩

end Sound

section

variable {P : Platform} {verifyingKey : List UInt8 → Bytes} {old : List Bytes} {w w' : World k}

/-- **The end is announced last.**  In every run of the generator every key that is added is strong
enough and is announced; no thread adds two; once there is one the others are told to stop; and when all threads have ended, the last event is that the generator has stopped. -/
theorem run_announced (hk : 0 < k)
    (run : Run (Step P verifyingKey) (fun _ _ => True) (World.start old) w) :
    w.keystores = old ++ w.announced ∧
      (w.announced = w.finders.map Prod.snd ∧ (w.finders.map Prod.fst).Nodup) ∧
      w.announced.length ≤ k ∧ (∀ key ∈ w.announced, Strong P key) ∧
      (w.announced ≠ [] → w.mining = false) ∧
      ((∀ i, w.threads i = .ended) → w.posted.getLast? = some .keyGeneratorStopped) := by
  have hsound : Sound P verifyingKey old w :=
    run.invariant (sound_start P verifyingKey old hk) fun _ _ _ h _ hstep => h.step hstep
  have hlength : w.announced.length ≤ k := by
    have hcard := hsound.once.length_le_card
    rw [List.length_map, Fintype.card_fin] at hcard
    rwa [hsound.announced, List.length_map]
  refine ⟨hsound.keystores, ⟨hsound.announced, hsound.once⟩, hlength, hsound.strong, hsound.mining,
    fun hended => ?_⟩
  rcases hsound.last with hlast | ⟨i, hresponsible⟩
  · exact hlast
  · rw [hended i] at hresponsible
    exact hresponsible.elim

/-- The threads go on in a given order. -/
def schedule (P : Platform) (verifyingKey : List UInt8 → Bytes) (l : List (Fin k × List UInt8))
    (w : World k) : Exec (World k) :=
  l.foldlM (fun w m => advance P verifyingKey m.2 w m.1) w

theorem run_schedule {l : List (Fin k × List UInt8)} (h : schedule P verifyingKey l w = .ok w') :
    Run (Step P verifyingKey) (fun _ _ => True) w w' := by
  induction l generalizing w with
  | nil =>
    cases h
    exact .refl _
  | cons m l ih =>
    unfold schedule at h
    rw [List.foldlM_cons] at h
    obtain ⟨u, hu, hrest⟩ := bind_eq_ok.mp h
    exact (Run.single (a := Act.thread m.1 m.2) trivial hu).trans (ih hrest)

end

/-- Two threads that find a key at the same time. -/
theorem run_announced_two : ∃ w : World 2,
    (∀ i, w.threads i = .ended) ∧ w.announced = [Sample.key 2, Sample.key 3] ∧
    w.keystores = [] ++ w.announced ∧
      (w.announced = w.finders.map Prod.snd ∧ (w.finders.map Prod.fst).Nodup) ∧
      w.announced.length ≤ 2 ∧
      (∀ key ∈ w.announced, Strong (Sample.platform true) key) ∧
      (w.announced ≠ [] → w.mining = false) ∧
      ((∀ i, w.threads i = .ended) → w.posted.getLast? = some .keyGeneratorStopped) := by
  obtain ⟨w, hw, hended, hannounced⟩ : ∃ w : World 2,
      schedule (Sample.platform true) Bytes.mk
        [(0, []), (0, (Sample.key 2).data), (1, []), (1, (Sample.key 3).data), (0, []), (0, []), (0, []),
          (1, []), (1, []), (1, [])] (World.start []) = .ok w ∧
      (∀ i, w.threads i = .ended) ∧ w.announced = [Sample.key 2, Sample.key 3] := by
    decide +kernel
  exact ⟨w, hended, hannounced, run_announced (by decide) (run_schedule hw)⟩

end KeyGenerator
