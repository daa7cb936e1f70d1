/-
# Procedures

A library for methods that work on a value in place and may fail.  A procedure is given the
value as it is, and either returns a result together with the value as it is then, or fails
with an error, or stops with a `Fault`.

Loops run on fuel.  How much there is of it is not part of what a procedure means: that more
fuel changes nothing once a run has ended is a field of the structure.  What is proved about
procedures is therefore said without fuel: a procedure *yields* a result (`Yields`), it
*halts* (`Halts`), it *returns*, with a result or an error (`Returns`).
-/
import Ruvname.Exec

/-- A method on a `σ` that returns an `α` or fails with an `ε`. -/
structure Procedure (σ ε α : Type) where
  /-- The outcome with so much fuel. -/
  run : ℕ → σ → Exec (Except ε (α × σ))
  /-- More fuel changes nothing once the run has ended. -/
  stable : ∀ n s, run n s ≠ .error .unfinished → run (n + 1) s = run n s

namespace Procedure

variable {σ ε α β γ : Type}

/-- An outcome, and what follows it if it is a result. -/
def andThen (x : Exec (Except ε (α × σ))) (next : α → σ → Exec (Except ε (β × σ))) :
    Exec (Except ε (β × σ)) :=
  match x with
  | .error fault => .error fault
  | .ok (.error e) => .ok (.error e)
  | .ok (.ok (a, s)) => next a s

/-- The second part starts where the first one has ended. -/
theorem andThen_eq_ok {x : Exec (Except ε (α × σ))} {next : α → σ → Exec (Except ε (β × σ))}
    {r : β × σ} :
    andThen x next = .ok (.ok r) ↔ ∃ a s, x = .ok (.ok (a, s)) ∧ next a s = .ok (.ok r) := by
  cases x with
  | error fault => simp [andThen]
  | ok outcome =>
    cases outcome with
    | error e => simp [andThen]
    | ok p => simp [andThen, Prod.ext_iff]

/-- A sequence of outcomes has run out of fuel nowhere. -/
theorem andThen_ne_unfinished {x : Exec (Except ε (α × σ))}
    {next : α → σ → Exec (Except ε (β × σ))} :
    andThen x next ≠ .error .unfinished ↔
      x ≠ .error .unfinished ∧ ∀ a s, x = .ok (.ok (a, s)) → next a s ≠ .error .unfinished := by
  cases x with
  | error fault => simp [andThen]
  | ok outcome =>
    cases outcome with
    | error e => simp [andThen]
    | ok p => simp [andThen, Prod.ext_iff]

/-- A procedure without loops. -/
def act (f : σ → Exec (Except ε (α × σ))) : Procedure σ ε α where
  run _ := f
  stable _ _ _ := rfl

/-- One procedure after another. -/
def seq (m : Procedure σ ε α) (f : α → Procedure σ ε β) : Procedure σ ε β where
  run n s := andThen (m.run n s) fun a t => (f a).run n t
  stable n s h := by
    have hm : m.run n s ≠ .error .unfinished := fun hm => h (by simp [hm, andThen])
    rw [m.stable n s hm]
    cases hrun : m.run n s with
    | error fault => rfl
    | ok outcome =>
      cases outcome with
      | error e => rfl
      | ok p =>
        rw [hrun] at h
        exact (f p.1).stable n p.2 h

instance : Monad (Procedure σ ε) where
  pure a := act fun s => .ok (.ok (a, s))
  bind := seq

/-- `Err(e)`. -/
def fail (e : ε) : Procedure σ ε α := act fun _ => .ok (.error e)

/-- A computation that does not touch the value. -/
def exec (x : Exec α) : Procedure σ ε α := act fun s => x.map fun a => .ok (a, s)

/-- Something of the value as it is. -/
def gets (f : σ → α) : Procedure σ ε α := act fun s => .ok (.ok (f s, s))

/-- A change of the value. -/
def modify (f : σ → σ) : Procedure σ ε Unit := act fun s => .ok (.ok ((), f s))

/-- A procedure on a value of its own. -/
def on {τ : Type} (t : τ) (m : Procedure τ ε α) : Procedure σ ε α where
  run n s := (m.run n t).map fun outcome => outcome.map fun p => (p.1, s)
  stable n s h := by
    have hm : m.run n t ≠ .error .unfinished := fun hm => h (by rw [hm]; rfl)
    rw [m.stable n t hm]

/-- The rounds of a loop: each goes on with a new local state or leaves with a result. -/
def rounds (body : γ → Procedure σ ε (γ ⊕ α)) : ℕ → γ → σ → Exec (Except ε (α × σ))
  | 0, _, _ => .error .unfinished
  | n + 1, c, s => andThen ((body c).run n s) fun r t =>
    match r with
    | .inl c' => rounds body n c' t
    | .inr a => .ok (.ok (a, t))

/-- `loop`: the body is run again and again until it leaves with a result. -/
def loop (body : γ → Procedure σ ε (γ ⊕ α)) (c : γ) : Procedure σ ε α where
  run n := rounds body n c
  stable n s h := by
    induction n generalizing c s with
    | zero => exact absurd rfl h
    | succ n ih =>
      rw [rounds] at h
      have hbody : (body c).run n s ≠ .error .unfinished := fun hbody =>
        h (by simp [hbody, andThen])
      rw [rounds, (body c).stable n s hbody, rounds]
      cases hrun : (body c).run n s with
      | error fault => rfl
      | ok outcome =>
        cases outcome with
        | error e => rfl
        | ok p =>
          obtain ⟨r, t⟩ := p
          cases r with
          | inr a => rfl
          | inl c' =>
            rw [hrun] at h
            exact ih c' t h

/-- `n` times the same, with the results in a list. -/
def times (m : Procedure σ ε α) : ℕ → Procedure σ ε (List α)
  | 0 => pure []
  | n + 1 => do
    let a ← m
    let as ← times m n
    pure (a :: as)

/-- Fuel beyond what a run takes. -/
theorem run_eq_of_le (m : Procedure σ ε α) {n k : ℕ} {s : σ} (h : n ≤ k)
    (hn : m.run n s ≠ .error .unfinished) : m.run k s = m.run n s := by
  induction k, h using Nat.le_induction with
  | base => rfl
  | succ k _ ih =>
    rw [m.stable k s (ih ▸ hn), ih]

/-! ## What a procedure yields -/

/-- The procedure returns `a` and leaves the value as `t`. -/
def Yields (m : Procedure σ ε α) (s : σ) (a : α) (t : σ) : Prop :=
  ∃ n, m.run n s = .ok (.ok (a, t))

/-- The procedure comes to an end, be it with a fault. -/
def Halts (m : Procedure σ ε α) (s : σ) : Prop := ∃ n, m.run n s ≠ .error .unfinished

/-- The procedure returns, be it with an error. -/
def Returns (m : Procedure σ ε α) (s : σ) : Prop := ∃ n, Exec.Returns (m.run n s)

/-- What yields a result returns. -/
theorem Yields.returns {m : Procedure σ ε α} {s t : σ} {a : α} (h : m.Yields s a t) :
    m.Returns s := by
  obtain ⟨n, hn⟩ := h
  exact ⟨n, _, hn⟩

/-- What returns halts. -/
theorem Returns.halts {m : Procedure σ ε α} {s : σ} (h : m.Returns s) : m.Halts s := by
  obtain ⟨n, r, hr⟩ := h
  exact ⟨n, by simp [hr]⟩

/-- With enough fuel the outcome is the one there is. -/
theorem Yields.eventually {m : Procedure σ ε α} {s t : σ} {a : α} (h : m.Yields s a t) :
    ∃ n, ∀ k, n ≤ k → m.run k s = .ok (.ok (a, t)) := by
  obtain ⟨n, hn⟩ := h
  exact ⟨n, fun k hk => by rw [m.run_eq_of_le hk (by simp [hn]), hn]⟩

/-- A procedure yields one result at most. -/
theorem Yields.unique {m : Procedure σ ε α} {s t t' : σ} {a a' : α} (h : m.Yields s a t)
    (h' : m.Yields s a' t') : a = a' ∧ t = t' := by
  obtain ⟨n, hn⟩ := h.eventually
  obtain ⟨k, hk⟩ := h'.eventually
  have heq := (hn (max n k) (le_max_left n k)).symm.trans (hk (max n k) (le_max_right n k))
  simpa using heq

/-- A step yields what it computes. -/
@[simp] theorem yields_act {f : σ → Exec (Except ε (α × σ))} {s t : σ} {a : α} :
    (act f).Yields s a t ↔ f s = .ok (.ok (a, t)) := by
  simp [Yields, act]

@[simp] theorem yields_pure {s t : σ} {a b : α} :
    (pure b : Procedure σ ε α).Yields s a t ↔ a = b ∧ t = s := by
  show (act _).Yields s a t ↔ _
  rw [yields_act]
  simp [eq_comm]

@[simp] theorem not_yields_fail {e : ε} {s t : σ} {a : α} :
    ¬ (fail e : Procedure σ ε α).Yields s a t := by
  simp [fail]

@[simp] theorem yields_gets {f : σ → α} {s t : σ} {a : α} :
    (gets f : Procedure σ ε α).Yields s a t ↔ a = f s ∧ t = s := by
  simp [gets, eq_comm]

@[simp] theorem yields_modify {f : σ → σ} {s t : σ} {u : Unit} :
    (modify f : Procedure σ ε Unit).Yields s u t ↔ t = f s := by
  simp [modify, eq_comm]

@[simp] theorem yields_exec {x : Exec α} {s t : σ} {a : α} :
    (exec x : Procedure σ ε α).Yields s a t ↔ x = .ok a ∧ t = s := by
  cases x with
  | error fault => simp [exec, Except.map]
  | ok b => simp [exec, Except.map, eq_comm]

/-- A sequence yields what its second part yields after its first. -/
@[simp] theorem yields_bind {m : Procedure σ ε α} {f : α → Procedure σ ε β} {s t : σ} {b : β} :
    (m >>= f).Yields s b t ↔ ∃ a u, m.Yields s a u ∧ (f a).Yields u b t := by
  constructor
  · rintro ⟨n, hn⟩
    obtain ⟨a, u, ha, hb⟩ := andThen_eq_ok.mp hn
    exact ⟨a, u, ⟨n, ha⟩, ⟨n, hb⟩⟩
  · rintro ⟨a, u, hm, hf⟩
    obtain ⟨n, hn⟩ := hm.eventually
    obtain ⟨k, hk⟩ := hf.eventually
    refine ⟨max n k, andThen_eq_ok.mpr ⟨a, u, ?_, ?_⟩⟩
    · exact hn (max n k) (le_max_left n k)
    · exact hk (max n k) (le_max_right n k)

theorem yields_on {τ : Type} {t₀ : τ} {m : Procedure τ ε α} {s s' : σ} {a : α} :
    (on t₀ m : Procedure σ ε α).Yields s a s' ↔ (∃ t, m.Yields t₀ a t) ∧ s' = s := by
  have hrun (n : ℕ) : (on t₀ m : Procedure σ ε α).run n s = .ok (.ok (a, s')) ↔
      (∃ t, m.run n t₀ = .ok (.ok (a, t))) ∧ s' = s := by
    show (m.run n t₀).map _ = _ ↔ _
    cases m.run n t₀ with
    | error fault => simp [Except.map]
    | ok outcome =>
      cases outcome with
      | error e => simp [Except.map]
      | ok p => simp [Except.map, Prod.ext_iff, eq_comm]
  simp only [Yields, hrun]
  rw [exists_and_right, exists_comm]

/-! ## Loops -/

/-- One round of a loop that yields something. -/
theorem yields_loop {body : γ → Procedure σ ε (γ ⊕ α)} {c : γ} {s t : σ} {a : α} :
    (loop body c).Yields s a t ↔ (body c).Yields s (.inr a) t ∨
      ∃ c' u, (body c).Yields s (.inl c') u ∧ (loop body c').Yields u a t := by
  constructor
  · rintro ⟨n, hn⟩
    cases n with
    | zero => cases hn
    | succ n =>
      obtain ⟨r, u, hr, hrest⟩ := andThen_eq_ok.mp hn
      cases r with
      | inl c' => exact .inr ⟨c', u, ⟨n, hr⟩, ⟨n, hrest⟩⟩
      | inr b =>
        cases hrest
        exact .inl ⟨n, hr⟩
  · rintro (⟨n, hn⟩ | ⟨c', u, hbody, hrest⟩)
    · exact ⟨n + 1, andThen_eq_ok.mpr ⟨.inr a, t, hn, rfl⟩⟩
    · obtain ⟨n, hn⟩ := hbody.eventually
      obtain ⟨k, hk⟩ := hrest.eventually
      refine ⟨max n k + 1, andThen_eq_ok.mpr ⟨.inl c', u, ?_, ?_⟩⟩
      · exact hn (max n k) (le_max_left n k)
      · exact hk (max n k) (le_max_right n k)

/-- **Induction on the rounds of a loop** that yields something. -/
theorem loop_induction {body : γ → Procedure σ ε (γ ⊕ α)} {motive : γ → σ → α → σ → Prop}
    (leave : ∀ c s a t, (body c).Yields s (.inr a) t → motive c s a t)
    (again : ∀ c s c' u a t, (body c).Yields s (.inl c') u → motive c' u a t → motive c s a t)
    {c : γ} {s t : σ} {a : α} (h : (loop body c).Yields s a t) : motive c s a t := by
  obtain ⟨n, hn⟩ := h
  induction n generalizing c s with
  | zero => cases hn
  | succ n ih =>
    obtain ⟨r, u, hr, hrest⟩ := andThen_eq_ok.mp hn
    cases r with
    | inl c' => exact again c s c' u a t ⟨n, hr⟩ (ih hrest)
    | inr b =>
      cases hrest
      exact leave c s a t ⟨n, hr⟩

/-! ## Halting -/

/-- A step halts unless it is unfinished. -/
@[simp] theorem halts_act {f : σ → Exec (Except ε (α × σ))} {s : σ} :
    (act f).Halts s ↔ f s ≠ .error .unfinished := by
  simp [Halts, act]

/-- What a procedure yields, it returns with any fuel that lets it end. -/
theorem Yields.run_eq {m : Procedure σ ε α} {s t : σ} {a : α} (h : m.Yields s a t) {n : ℕ}
    (hn : m.run n s ≠ .error .unfinished) : m.run n s = .ok (.ok (a, t)) := by
  obtain ⟨k, hk⟩ := h.eventually
  rw [← m.run_eq_of_le (le_max_left n k) hn, hk _ (le_max_right n k)]

/-- A sequence halts when its first part does and its second part does after it. -/
theorem halts_bind {m : Procedure σ ε α} {f : α → Procedure σ ε β} {s : σ} :
    (m >>= f).Halts s ↔ m.Halts s ∧ ∀ a t, m.Yields s a t → (f a).Halts t := by
  constructor
  · rintro ⟨n, hn⟩
    obtain ⟨hm, hf⟩ := andThen_ne_unfinished.mp hn
    exact ⟨⟨n, hm⟩, fun a t hat => ⟨n, hf a t (hat.run_eq hm)⟩⟩
  · rintro ⟨⟨n, hn⟩, hf⟩
    by_cases hyields : ∃ a t, m.run n s = .ok (.ok (a, t))
    · obtain ⟨a, t, hat⟩ := hyields
      obtain ⟨k, hk⟩ := hf a t ⟨n, hat⟩
      refine ⟨max n k, andThen_ne_unfinished.mpr ⟨?_, fun a' t' hat' => ?_⟩⟩
      · rwa [m.run_eq_of_le (le_max_left n k) hn]
      · obtain ⟨rfl, rfl⟩ := Yields.unique ⟨n, hat⟩ ⟨_, hat'⟩
        rwa [(f a).run_eq_of_le (le_max_right n k) hk]
    · exact ⟨n, andThen_ne_unfinished.mpr ⟨hn, fun a t hat => absurd ⟨a, t, hat⟩ hyields⟩⟩

/-- A loop halts when its body does and it does after every round. -/
theorem halts_loop {body : γ → Procedure σ ε (γ ⊕ α)} {c : γ} {s : σ} :
    (loop body c).Halts s ↔
      (body c).Halts s ∧ ∀ c' t, (body c).Yields s (.inl c') t → (loop body c').Halts t := by
  constructor
  · rintro ⟨n, hn⟩
    cases n with
    | zero => exact absurd rfl hn
    | succ n =>
      obtain ⟨hbody, hrest⟩ := andThen_ne_unfinished.mp hn
      exact ⟨⟨n, hbody⟩, fun c' t hround => ⟨n, hrest (.inl c') t (hround.run_eq hbody)⟩⟩
  · rintro ⟨⟨n, hn⟩, hrest⟩
    by_cases hround : ∃ c' t, (body c).run n s = .ok (.ok (.inl c', t))
    · obtain ⟨c', t, hct⟩ := hround
      obtain ⟨k, hk⟩ := hrest c' t ⟨n, hct⟩
      refine ⟨max n k + 1, andThen_ne_unfinished.mpr ⟨?_, fun r t' hr => ?_⟩⟩
      · rwa [(body c).run_eq_of_le (le_max_left n k) hn]
      · obtain ⟨rfl, rfl⟩ := Yields.unique ⟨n, hct⟩ ⟨_, hr⟩
        rwa [← (loop body c').run_eq_of_le (le_max_right n k) hk] at hk
    · refine ⟨n + 1, andThen_ne_unfinished.mpr ⟨hn, fun r t hr => ?_⟩⟩
      cases r with
      | inl c' => exact absurd ⟨c', t, hr⟩ hround
      | inr a => exact fun h => by cases h

/-- A loop whose body halts comes to an end exactly when there is no endless sequence of rounds. -/
theorem halts_loop_iff_acc {body : γ → Procedure σ ε (γ ⊕ α)} (hbody : ∀ c s, (body c).Halts s)
    {c : γ} {s : σ} :
    (loop body c).Halts s ↔
      Acc (fun next here : γ × σ => (body here.1).Yields here.2 (.inl next.1) next.2) (c, s) := by
  constructor
  · rintro ⟨n, hn⟩
    induction n generalizing c s with
    | zero => exact absurd rfl hn
    | succ n ih =>
      obtain ⟨hend, hrest⟩ := andThen_ne_unfinished.mp hn
      refine ⟨_, fun next hround => ih ?_⟩
      exact hrest (.inl next.1) next.2 (hround.run_eq hend)
  · intro h
    generalize hcs : (c, s) = here at h
    induction h generalizing c s with
    | intro here _ ih =>
      subst hcs
      exact halts_loop.mpr ⟨hbody c s, fun c' t hround => ih (c', t) hround rfl⟩

/-! ## Running without faults -/

/-- Nothing but a lack of fuel stops the procedure. -/
def Safe (m : Procedure σ ε α) : Prop := ∀ n s fault, m.run n s = .error fault → fault = .unfinished

/-- Nothing but a lack of fuel stops the procedure on this value. -/
def SafeAt (m : Procedure σ ε α) (s : σ) : Prop :=
  ∀ n fault, m.run n s = .error fault → fault = .unfinished

/-- What is safe everywhere is safe here. -/
theorem Safe.safeAt {m : Procedure σ ε α} (h : m.Safe) (s : σ) : m.SafeAt s := fun n => h n s

theorem safe_of_safeAt {m : Procedure σ ε α} (h : ∀ s, m.SafeAt s) : m.Safe := fun n s => h s n

/-- What is not stopped returns if it comes to an end. -/
theorem returns_iff_safeAt {m : Procedure σ ε α} {s : σ} (hhalts : m.Halts s) :
    m.Returns s ↔ m.SafeAt s := by
  constructor
  · rintro ⟨n, r, hr⟩ k fault hk
    by_contra hne
    have hfirst := m.run_eq_of_le (s := s) (le_max_left n k) (by simp [hr])
    have hsecond := m.run_eq_of_le (s := s) (le_max_right n k) (by simp [hk, hne])
    rw [hr] at hfirst
    rw [hk, hfirst] at hsecond
    cases hsecond
  · intro h
    obtain ⟨n, hn⟩ := hhalts
    cases hrun : m.run n s with
    | error fault => exact absurd (h n fault hrun ▸ hrun) hn
    | ok outcome => exact ⟨n, outcome, hrun⟩

/-- A run with some fuel that does not run out of it shows that the procedure halts. -/
theorem halts_of_run {m : Procedure σ ε α} {s : σ} {n : ℕ}
    (hrun : Exec.fault? (m.run n s) ≠ some .unfinished) : m.Halts s :=
  ⟨n, fun h => hrun (Exec.fault?_eq_some.mpr h)⟩

/-- A run that is stopped comes to an end and does not return. -/
theorem stopped_of_run {m : Procedure σ ε α} {s : σ} {n : ℕ} {fault : Fault}
    (hrun : Exec.fault? (m.run n s) = some fault) (hne : fault ≠ .unfinished) :
    m.Halts s ∧ ¬ m.Returns s := by
  rw [Exec.fault?_eq_some] at hrun
  have hhalts : m.Halts s := ⟨n, by simp [hrun, hne]⟩
  exact ⟨hhalts, fun hreturns => hne ((returns_iff_safeAt hhalts).mp hreturns n fault hrun)⟩

/-- A safe procedure returns exactly where it halts. -/
theorem Safe.returns_iff {m : Procedure σ ε α} (h : m.Safe) {s : σ} : m.Returns s ↔ m.Halts s :=
  ⟨Returns.halts, fun hhalts => (returns_iff_safeAt hhalts).mpr (h.safeAt s)⟩

/-- A step is safe where its only fault is to be unfinished. -/
theorem safeAt_act {f : σ → Exec (Except ε (α × σ))} {s : σ} :
    (act f).SafeAt s ↔ ∀ fault, f s = .error fault → fault = .unfinished :=
  ⟨fun h fault hf => h 0 fault hf, fun h _ => h⟩

theorem safeAt_exec {x : Exec α} {s : σ} :
    (exec x : Procedure σ ε α).SafeAt s ↔ ∀ fault, x = .error fault → fault = .unfinished := by
  refine safeAt_act.trans ?_
  cases x with
  | error fault => simp [Except.map]
  | ok a => simp [Except.map]

/-- A sequence is stopped in its first part, or in its second part after it. -/
theorem safeAt_bind {m : Procedure σ ε α} {f : α → Procedure σ ε β} {s : σ} :
    (m >>= f).SafeAt s ↔ m.SafeAt s ∧ ∀ a t, m.Yields s a t → (f a).SafeAt t := by
  constructor
  · intro h
    refine ⟨fun n fault hrun => h n fault ?_, fun a t hat n fault hrun => ?_⟩
    · show andThen (m.run n s) _ = _
      rw [hrun]
      rfl
    · by_contra hne
      obtain ⟨k, hk⟩ := hat.eventually
      refine hne (h (max n k) fault ?_)
      show andThen (m.run (max n k) s) _ = _
      rw [hk _ (le_max_right n k)]
      show (f a).run (max n k) t = _
      rw [(f a).run_eq_of_le (le_max_left n k) (by simp [hrun, hne]), hrun]
  · rintro ⟨hm, hf⟩ n fault hrun
    change andThen (m.run n s) (fun a t => (f a).run n t) = _ at hrun
    cases hfirst : m.run n s with
    | error e =>
      rw [hfirst] at hrun
      cases hrun
      exact hm n _ hfirst
    | ok outcome =>
      rw [hfirst] at hrun
      cases outcome with
      | error e => cases hrun
      | ok p => exact hf p.1 p.2 ⟨n, hfirst⟩ n fault hrun

/-- The procedure returns with whatever fuel there is. -/
def Prompt (m : Procedure σ ε α) : Prop := ∀ n s, Exec.Returns (m.run n s)

/-- A step that always returns is prompt. -/
theorem prompt_act {f : σ → Exec (Except ε (α × σ))} (h : ∀ s, Exec.Returns (f s)) :
    (act f).Prompt := fun _ s => h s

theorem prompt_pure (a : α) : (pure a : Procedure σ ε α).Prompt :=
  prompt_act fun _ => Exec.returns_ok _

/-- One prompt procedure after another. -/
theorem Prompt.bind {m : Procedure σ ε α} {f : α → Procedure σ ε β} (hm : m.Prompt)
    (hf : ∀ a, (f a).Prompt) : (m >>= f).Prompt := by
  intro n s
  show Exec.Returns (andThen (m.run n s) fun a t => (f a).run n t)
  obtain ⟨outcome, ho⟩ := hm n s
  rw [ho]
  cases outcome with
  | error e => exact Exec.returns_ok _
  | ok p => exact hf p.1 n p.2

/-- A prompt procedure has no faults. -/
theorem Prompt.safe {m : Procedure σ ε α} (h : m.Prompt) : m.Safe := by
  intro n s fault hrun
  obtain ⟨r, hr⟩ := h n s
  exact absurd (hr.symm.trans hrun) (by simp)

theorem safe_pure (a : α) : (pure a : Procedure σ ε α).Safe := (prompt_pure a).safe

/-- A prompt procedure halts. -/
theorem Prompt.halts {m : Procedure σ ε α} (h : m.Prompt) (s : σ) : m.Halts s :=
  Returns.halts ⟨0, h 0 s⟩

/-- One safe procedure after another. -/
theorem Safe.bind {m : Procedure σ ε α} {f : α → Procedure σ ε β} (hm : m.Safe)
    (hf : ∀ a, (f a).Safe) : (m >>= f).Safe :=
  safe_of_safeAt fun s => safeAt_bind.mpr ⟨hm.safeAt s, fun a t _ => (hf a).safeAt t⟩

/-- A loop is as safe as its body. -/
theorem Safe.loop {body : γ → Procedure σ ε (γ ⊕ α)} (hbody : ∀ c, (body c).Safe) (c : γ) :
    (loop body c).Safe := by
  intro n s fault hrun
  change rounds body n c s = _ at hrun
  induction n generalizing c s with
  | zero =>
    cases hrun
    rfl
  | succ n ih =>
    rw [rounds] at hrun
    cases hround : (body c).run n s with
    | error e =>
      rw [hround] at hrun
      cases hrun
      exact hbody c n s _ hround
    | ok outcome =>
      rw [hround] at hrun
      cases outcome with
      | error e => cases hrun
      | ok p =>
        obtain ⟨r, t⟩ := p
        cases r with
        | inl c' => exact ih c' t hrun
        | inr a => cases hrun

/-! ## Running without errors -/

/-- The procedure does not fail with an error. -/
def Unfailing (m : Procedure σ ε α) : Prop := ∀ n s e, m.run n s ≠ .ok (.error e)

/-- A step that returns no error does not fail. -/
theorem unfailing_act {f : σ → Exec (Except ε (α × σ))} (h : ∀ s e, f s ≠ .ok (.error e)) :
    (act f).Unfailing := fun _ => h

theorem unfailing_exec (x : Exec α) : (exec x : Procedure σ ε α).Unfailing := by
  refine unfailing_act fun s e => ?_
  cases x with
  | error fault => simp [Except.map]
  | ok a => simp [Except.map]

/-- One unfailing procedure after another. -/
theorem Unfailing.bind {m : Procedure σ ε α} {f : α → Procedure σ ε β} (hm : m.Unfailing)
    (hf : ∀ a, (f a).Unfailing) : (m >>= f).Unfailing := by
  intro n s e hrun
  change andThen (m.run n s) (fun a t => (f a).run n t) = _ at hrun
  cases hfirst : m.run n s with
  | error fault =>
    rw [hfirst] at hrun
    cases hrun
  | ok outcome =>
    rw [hfirst] at hrun
    cases outcome with
    | error e => exact hm n s e hfirst
    | ok p => exact hf p.1 n p.2 e hrun

/-- A loop fails only where its body does. -/
theorem Unfailing.loop {body : γ → Procedure σ ε (γ ⊕ α)} (hbody : ∀ c, (body c).Unfailing)
    (c : γ) : (loop body c).Unfailing := by
  intro n s e hrun
  change rounds body n c s = _ at hrun
  induction n generalizing c s with
  | zero => cases hrun
  | succ n ih =>
    rw [rounds] at hrun
    cases hround : (body c).run n s with
    | error fault =>
      rw [hround] at hrun
      cases hrun
    | ok outcome =>
      rw [hround] at hrun
      cases outcome with
      | error e => exact hbody c n s e hround
      | ok p =>
        obtain ⟨r, t⟩ := p
        cases r with
        | inl c' => exact ih c' t hrun
        | inr a => cases hrun

/-- What returns without an error yields something. -/
theorem Unfailing.returns_iff {m : Procedure σ ε α} (h : m.Unfailing) {s : σ} :
    m.Returns s ↔ ∃ a t, m.Yields s a t := by
  constructor
  · rintro ⟨n, outcome, hrun⟩
    cases outcome with
    | error e => exact absurd hrun (h n s e)
    | ok p => exact ⟨p.1, p.2, n, hrun⟩
  · rintro ⟨a, t, hat⟩
    exact hat.returns

/-! ## Properties of all parts -/

/-- A property of procedures that is kept where they are put together. -/
structure Closed (σ ε : Type) where
  holds : ∀ {α : Type}, Procedure σ ε α → Prop
  pure : ∀ {α : Type} (a : α), holds (pure a)
  gets : ∀ {α : Type} (f : σ → α), holds (gets f)
  bind : ∀ {α β : Type} {m : Procedure σ ε α} {f : α → Procedure σ ε β}, holds m →
    (∀ a, holds (f a)) → holds (m >>= f)
  loop : ∀ {γ α : Type} {body : γ → Procedure σ ε (γ ⊕ α)}, (∀ c, holds (body c)) → ∀ c,
    holds (loop body c)

def safe (σ ε : Type) : Closed σ ε where
  holds := Safe
  pure := safe_pure
  gets _ := (prompt_act fun _ => Exec.returns_ok _).safe
  bind := Safe.bind
  loop := Safe.loop

def unfailing (σ ε : Type) : Closed σ ε where
  holds := Unfailing
  pure _ := unfailing_act fun _ _ => by simp
  gets _ := unfailing_act fun _ _ => by simp
  bind := Unfailing.bind
  loop := Unfailing.loop

/-- A repetition has a property that is closed if the body has it. -/
theorem Closed.times (C : Closed σ ε) {m : Procedure σ ε α} (hm : C.holds m) (n : ℕ) :
    C.holds (m.times n) := by
  induction n with
  | zero => exact C.pure _
  | succ n ih => exact C.bind hm fun _ => C.bind ih fun _ => C.pure _

/-! ## Properties of parts -/

/-- A property of what a procedure does from a value on that a sequence has if its first part has it
there, and its second part wherever the first leaves it. -/
structure Judgement (σ ε : Type) where
  holds : ∀ {α : Type}, Procedure σ ε α → σ → Prop
  holds_pure : ∀ {α : Type} (a : α) (s : σ), holds (pure a) s
  holds_bind : ∀ {α β : Type} {m : Procedure σ ε α} {f : α → Procedure σ ε β} {s : σ},
    holds (m >>= f) s ↔ holds m s ∧ ∀ a t, m.Yields s a t → holds (f a) t

/-- It comes to an end. -/
def halting (σ ε : Type) : Judgement σ ε where
  holds := Halts
  holds_pure a s := (prompt_pure a).halts s
  holds_bind := halts_bind

/-- It is not stopped. -/
def safety (σ ε : Type) : Judgement σ ε where
  holds := SafeAt
  holds_pure a s := (safe_pure a).safeAt s
  holds_bind := safeAt_bind

end Procedure

/-! ## Endless sequences -/

section

variable {γ δ : Type}

/-- What is simulated by something without endless sequences has none. -/
theorem acc_of_simulation {r : γ → γ → Prop} {r' : δ → δ → Prop} {R : γ → δ → Prop}
    (hsim : ∀ c c' d, R c d → r c' c → ∃ d', r' d' d ∧ R c' d') {c : γ} {d : δ} (hcd : R c d)
    (h : Acc r' d) : Acc r c := by
  induction h generalizing c with
  | intro d _ ih =>
    refine ⟨_, fun c' hstep => ?_⟩
    obtain ⟨d', hd', hcd'⟩ := hsim c c' d hcd hstep
    exact ih d' hd' hcd'

/-- **Endless sequences in a finite set** run into a cycle. -/
theorem acc_iff_no_cycle {r : γ → γ → Prop} (hfin : {c | ∃ d, r c d}.Finite) (c : γ) :
    Acc (fun d c => r c d) c ↔
      ¬ ∃ d, Relation.ReflTransGen r c d ∧ Relation.TransGen r d d := by
  constructor
  · intro h
    induction h with
    | intro c _ ih =>
      rintro ⟨d, hcd, hcycle⟩
      rcases hcd.cases_head with rfl | ⟨e, hce, hed⟩
      · obtain ⟨e, hce, hec⟩ := Relation.TransGen.head'_iff.mp hcycle
        exact ih e hce ⟨c, hec, hcycle⟩
      · exact ih e hce ⟨d, hed, hcycle⟩
  · intro hcycle
    by_contra hacc
    obtain ⟨f, rfl, hf⟩ := not_acc_iff_exists_descending_chain.mp hacc
    have hpath (i k : ℕ) : Relation.ReflTransGen r (f i) (f (i + k)) := by
      induction k with
      | zero => exact .refl
      | succ k ih => exact ih.tail (hf (i + k))
    -- two members of the endless sequence are the same
    have := hfin.to_subtype
    obtain ⟨i, j, hij, heq⟩ := Finite.exists_ne_map_eq_of_infinite
      fun n => (⟨f n, _, hf n⟩ : {c | ∃ d, r c d})
    wlog hlt : i < j generalizing i j
    · exact this j i hij.symm heq.symm (by omega)
    have heq : f i = f j := congrArg Subtype.val heq
    refine hcycle ⟨f i, by simpa using hpath 0 i, ?_⟩
    have hcycle := Relation.TransGen.head' (hf i) (hpath (i + 1) (j - (i + 1)))
    rwa [show i + 1 + (j - (i + 1)) = j by omega, ← heq] at hcycle

end
