/-
# Workers and what they share

A library for threads that serve requests, one after the other, and act on something shared while
they do.  What a thread has left to do is a `Program`: it is done, or it calls for something and
goes on with the reply.  The calls of different threads come in any order (`Pool.Step`), and each of
them is one indivisible step, whose effect on what is shared the user of the library says.

What is proved of one program on its own, whatever the replies are (`Program.Keeps`), holds of every
worker in every run (`Pool.run_keeps`).
-/
import Ruvname.Run

/-- What is left to do: it is done, with a result, or it makes a call and goes on with the reply. -/
inductive Program (C : Type) (R : C → Type) (α : Type) where
  | done (a : α)
  | call (c : C) (next : R c → Program C R α)

/-- A call that has been made at a time, and its reply. -/
structure Act (τ C : Type) (R : C → Type) where
  time : τ
  command : C
  reply : R command

namespace Program

variable {τ C α β : Type} {R : C → Type}

/-- One program after another. -/
def bind : Program C R α → (α → Program C R β) → Program C R β
  | done a, f => f a
  | call c next, f => call c fun r => (next r).bind f

instance : Monad (Program C R) where
  pure := done
  bind := bind

/-- A single call. -/
def ask (c : C) : Program C R (R c) := call c done

@[simp] theorem pure_eq (a : α) : (pure a : Program C R α) = done a := rfl

@[simp] theorem done_bind (a : α) (f : α → Program C R β) : (done a >>= f) = f a := rfl

@[simp] theorem call_bind (c : C) (next : R c → Program C R α) (f : α → Program C R β) :
    (call c next >>= f) = call c fun r => next r >>= f := rfl

@[simp] theorem ask_bind (c : C) (f : R c → Program C R β) : (ask c >>= f) = call c f := rfl

/-- **Every call may be made after what has been done before it, and the result may be given after
all that has been done.**  The replies can be any. -/
def Keeps (may : List (Act τ C R) → C → Prop) (result : List (Act τ C R) → α → Prop) :
    List (Act τ C R) → Program C R α → Prop
  | past, done a => result past a
  | past, call c next =>
    may past c ∧ ∀ time r, Keeps may result (past ++ [⟨time, c, r⟩]) (next r)

variable {may : List (Act τ C R) → C → Prop} {result result' : List (Act τ C R) → α → Prop}
  {past : List (Act τ C R)} {m : Program C R α}

/-- The results may be looked at more generously, and what was done before stays done. -/
theorem Keeps.imp (h : m.Keeps may result past)
    (himp : ∀ past' a, past <+: past' → result past' a → result' past' a) :
    m.Keeps may result' past := by
  induction m generalizing past with
  | done a => exact himp past a (List.prefix_refl past) h
  | call c next ih =>
    refine ⟨h.1, fun time r => ih r (h.2 time r) fun past' a hpast => ?_⟩
    exact himp past' a ((List.prefix_append past _).trans hpast)

/-- **The rule of composition.** -/
theorem Keeps.bind {f : α → Program C R β} {result' : List (Act τ C R) → β → Prop}
    (h : m.Keeps may result past)
    (hf : ∀ past' a, past <+: past' → result past' a → (f a).Keeps may result' past') :
    (m >>= f).Keeps may result' past := by
  induction m generalizing past with
  | done a => exact hf past a (List.prefix_refl past) h
  | call c next ih =>
    refine ⟨h.1, fun time r => ih r (h.2 time r) fun past' a hpast => ?_⟩
    exact hf past' a ((List.prefix_append past _).trans hpast)

/-- Everything keeps nothing. -/
theorem keeps_trivial : m.Keeps (fun _ _ => True) (fun _ _ => True) past := by
  induction m generalizing past with
  | done a => trivial
  | call c next ih => exact ⟨trivial, fun time r => ih r⟩

/-- Every act was allowed by the acts before it. -/
def Abides (may : List (Act τ C R) → C → Prop) (past : List (Act τ C R)) : Prop :=
  ∀ before act later, past = before ++ act :: later → may before act.command

/-- Nothing done is nothing forbidden. -/
theorem abides_nil : Abides may [] := fun _ _ _ h => absurd h.symm (by simp)

/-- An act that may be done is done after others. -/
theorem Abides.append {act : Act τ C R} (h : Abides may past) (hmay : may past act.command) :
    Abides may (past ++ [act]) := by
  intro before act' later heq
  rcases List.eq_nil_or_concat later with rfl | ⟨later', last, rfl⟩
  · obtain ⟨rfl, hact⟩ := List.append_inj' heq rfl
    cases hact
    exact hmay
  · have heq' : past ++ [act] = (before ++ act' :: later') ++ [last] := by simpa using heq
    obtain ⟨rfl, -⟩ := List.append_inj' heq' rfl
    exact h before act' later' rfl

/-- What has been done in the end was done lawfully. -/
theorem Keeps.abides (h : m.Keeps may result past) (hpast : Abides may past) :
    m.Keeps may (fun past' a => Abides may past' ∧ result past' a) past := by
  induction m generalizing past with
  | done a => exact ⟨hpast, h⟩
  | call c next ih => exact ⟨h.1, fun time r => ih r (h.2 time r) (hpast.append h.1)⟩

/-- A single call: it is appended to what has been done. -/
theorem keeps_ask {c : C} (hmay : may past c) : (ask c : Program C R (R c)).Keeps may
    (fun past' r => ∃ time, past' = past ++ [⟨time, c, r⟩]) past :=
  ⟨hmay, fun time _ => ⟨time, rfl⟩⟩

/-- A loop over a list keeps what each of its rounds keeps. -/
theorem keeps_foldlM {δ : Type} {f : α → δ → Program C R α} {l : List δ} {a : α}
    {inv : List (Act τ C R) → α → Prop} (ha : inv past a)
    (hf : ∀ past' a d, past <+: past' → d ∈ l → inv past' a → (f a d).Keeps may inv past') :
    (l.foldlM f a).Keeps may inv past := by
  induction l generalizing past a with
  | nil => exact ha
  | cons d l ih =>
    rw [List.foldlM_cons]
    refine (hf past a d (List.prefix_refl past) List.mem_cons_self ha).bind ?_
    intro past' a' hpast ha'
    refine ih ha' fun past'' b e hpast' he hb => ?_
    exact hf past'' b e (hpast.trans hpast') (List.mem_cons_of_mem d he) hb

/-- **What a program does, the replies given**: the acts, and the result. -/
inductive Yields : Program C R α → List (Act τ C R) → α → Prop
  | done (a : α) : Yields (done a) [] a
  | call {c : C} {next : R c → Program C R α} {r : R c} {l : List (Act τ C R)} {a : α} (time : τ)
    (h : Yields (next r) l a) : Yields (call c next) (⟨time, c, r⟩ :: l) a

/-- A single command yields its result. -/
theorem yields_ask {c : C} (time : τ) (r : R c) :
    (ask c : Program C R (R c)).Yields [⟨time, c, r⟩] r := .call time (.done r)

/-- One part after another. -/
theorem Yields.bind {f : α → Program C R β} {l l' : List (Act τ C R)} {a : α} {b : β}
    (h : m.Yields l a) (hf : (f a).Yields l' b) : (m >>= f).Yields (l ++ l') b := by
  induction h with
  | done a => exact hf
  | call time h ih => exact .call time (ih hf)

end Program

/-! ## Pools -/

/-- A worker: it waits for a request, or it serves one, of which it has done something and has
something left to do. -/
inductive Worker (τ C : Type) (R : C → Type) (J α : Type) where
  | waiting
  | serving (job : J) (past : List (Act τ C R)) (rest : Program C R α)

/-- What a worker does while it serves a request: it makes a call, or it is done. -/
inductive Deed (τ C : Type) (R : C → Type) (α : Type) where
  | called (act : Act τ C R)
  | finished (a : α)

/-- An entry of the record of a pool: who has done what, for which request, and what it had done
for it before. -/
structure Entry (ι τ C : Type) (R : C → Type) (J α : Type) where
  worker : ι
  job : J
  past : List (Act τ C R)
  deed : Deed τ C R α

/-- Workers, what they share, and the record of what they have done. -/
structure Pool (ι σ τ C : Type) (R : C → Type) (J α : Type) where
  shared : σ
  workers : ι → Worker τ C R J α
  record : List (Entry ι τ C R J α)

namespace Pool

variable {ι σ τ C J α : Type} {R : C → Type}

/-- Nobody has anything to do. -/
def idle (s : σ) : Pool ι σ τ C R J α := ⟨s, fun _ => .waiting, []⟩

variable [DecidableEq ι]

/-- A step of a pool: a worker takes a request, makes its next call, or is done.  What a call does
to what is shared, and which replies it can have, `acts` says. -/
inductive Step (body : J → Program C R α) (acts : σ → Act τ C R → σ → Prop) :
    Pool ι σ τ C R J α → ι → Pool ι σ τ C R J α → Prop
  | take {p : Pool ι σ τ C R J α} {i : ι} (job : J) (h : p.workers i = .waiting) :
    Step body acts p i { p with workers := Function.update p.workers i (.serving job [] (body job)) }
  | call {p : Pool ι σ τ C R J α} {i : ι} {job : J} {past : List (Act τ C R)} {c : C}
      {next : R c → Program C R α} {time : τ} {r : R c} {s : σ}
      (h : p.workers i = .serving job past (.call c next)) (hacts : acts p.shared ⟨time, c, r⟩ s) :
    Step body acts p i
      { shared := s
        workers := Function.update p.workers i (.serving job (past ++ [⟨time, c, r⟩]) (next r))
        record := p.record ++ [⟨i, job, past, .called ⟨time, c, r⟩⟩] }
  | finish {p : Pool ι σ τ C R J α} {i : ι} {job : J} {past : List (Act τ C R)} {a : α}
      (h : p.workers i = .serving job past (.done a)) :
    Step body acts p i
      { p with
        workers := Function.update p.workers i .waiting
        record := p.record ++ [⟨i, job, past, .finished a⟩] }

/-- The run of a pool. -/
abbrev Runs (body : J → Program C R α) (acts : σ → Act τ C R → σ → Prop) :
    Pool ι σ τ C R J α → Pool ι σ τ C R J α → Prop := Run (Step body acts) fun _ _ => True

/-- What an entry may be. -/
def Lawful (may : J → List (Act τ C R) → C → Prop) (result : J → List (Act τ C R) → α → Prop)
    (e : Entry ι τ C R J α) : Prop :=
  match e.deed with
  | .called act => may e.job e.past act.command
  | .finished a => result e.job e.past a

/-- A worker keeps to what its request allows. -/
def Obedient (may : J → List (Act τ C R) → C → Prop) (result : J → List (Act τ C R) → α → Prop) :
    Worker τ C R J α → Prop
  | .waiting => True
  | .serving job past rest => rest.Keeps (may job) (result job) past

variable {body : J → Program C R α} {acts : σ → Act τ C R → σ → Prop} {s : σ}
  {p q : Pool ι σ τ C R J α} {i : ι}

/-- **What every program keeps on its own, every worker keeps in every run.** -/
theorem run_keeps {may : J → List (Act τ C R) → C → Prop} {result : J → List (Act τ C R) → α → Prop}
    (hbody : ∀ job, (body job).Keeps (may job) (result job) [])
    (run : Runs body acts (idle s) p) :
    (∀ i, Obedient may result (p.workers i)) ∧ ∀ e ∈ p.record, Lawful may result e := by
  refine run.invariant (I := fun p : Pool ι σ τ C R J α =>
    (∀ i, Obedient may result (p.workers i)) ∧ ∀ e ∈ p.record, Lawful may result e)
    ⟨fun _ => trivial, fun e he => by cases he⟩ ?_
  rintro p i q ⟨hworkers, hrecord⟩ - hstep
  -- the other workers are left alone, and an entry is appended
  have hupdate : ∀ w, Obedient may result w →
      ∀ j, Obedient may result (Function.update p.workers i w j) := by
    intro w hw j
    by_cases hj : j = i
    · rw [hj, Function.update_self]
      exact hw
    · rw [Function.update_of_ne hj]
      exact hworkers j
  have happend : ∀ e, Lawful may result e → ∀ e' ∈ p.record ++ [e], Lawful may result e' := by
    intro e he e' he'
    rcases List.mem_append.mp he' with he' | he'
    · exact hrecord e' he'
    · rw [List.mem_singleton.mp he']
      exact he
  cases hstep with
  | take job h => exact ⟨hupdate _ (hbody job), hrecord⟩
  | call h hacts =>
    have hself := hworkers i
    rw [h] at hself
    exact ⟨hupdate _ (hself.2 _ _), happend _ hself.1⟩
  | finish h =>
    have hself := hworkers i
    rw [h] at hself
    exact ⟨hupdate _ trivial, happend _ hself⟩

/-- The acts on record, in their order. -/
def acted (record : List (Entry ι τ C R J α)) : List (Act τ C R) :=
  record.filterMap fun e =>
    match e.deed with
    | .called act => some act
    | .finished _ => none

omit [DecidableEq ι] in
/-- The acts on record. -/
theorem mem_acted {record : List (Entry ι τ C R J α)} {a : Act τ C R} :
    a ∈ acted record ↔ ∃ e ∈ record, e.deed = .called a := by
  unfold acted
  rw [List.mem_filterMap]
  constructor
  · rintro ⟨e, he, hact⟩
    refine ⟨e, he, ?_⟩
    cases hdeed : e.deed with
    | called act =>
      rw [hdeed] at hact
      cases hact
      rfl
    | finished _ =>
      rw [hdeed] at hact
      cases hact
  · rintro ⟨e, he, hdeed⟩
    exact ⟨e, he, by rw [hdeed]⟩

omit [DecidableEq ι] in
/-- The acts of two records in a row. -/
theorem acted_append (record record' : List (Entry ι τ C R J α)) :
    acted (record ++ record') = acted record ++ acted record' := List.filterMap_append

omit [DecidableEq ι] in
theorem acted_called {j : J} {past : List (Act τ C R)} {a : Act τ C R} :
    acted [(⟨i, j, past, .called a⟩ : Entry ι τ C R J α)] = [a] := rfl

omit [DecidableEq ι] in
theorem acted_finished {j : J} {past : List (Act τ C R)} {a : α} :
    acted [(⟨i, j, past, .finished a⟩ : Entry ι τ C R J α)] = [] := rfl

/-- The requests that have been served, by whom and with which result, in their order. -/
def served (record : List (Entry ι τ C R J α)) : List (ι × J × α) :=
  record.filterMap fun e =>
    match e.deed with
    | .called _ => none
    | .finished a => some (e.worker, e.job, a)

omit [DecidableEq ι] in
/-- The jobs that two records in a row have served. -/
theorem served_append (record record' : List (Entry ι τ C R J α)) :
    served (record ++ record') = served record ++ served record' := List.filterMap_append

omit [DecidableEq ι] in
theorem served_called {j : J} {past : List (Act τ C R)} {a : Act τ C R} :
    served [(⟨i, j, past, .called a⟩ : Entry ι τ C R J α)] = [] := rfl

/-- **What a worker has done for its request is on record**, in the order in which it was done. -/
theorem run_past (run : Runs body acts (idle s) p) :
    (∀ i job past rest, p.workers i = .serving job past rest → past.Sublist (acted p.record)) ∧
      ∀ e ∈ p.record, e.past.Sublist (acted p.record) := by
  refine run.invariant (I := fun p : Pool ι σ τ C R J α =>
    (∀ i job past rest, p.workers i = .serving job past rest → past.Sublist (acted p.record)) ∧
      ∀ e ∈ p.record, e.past.Sublist (acted p.record))
    ⟨fun i job past rest h => (nomatch h), fun e he => by cases he⟩ ?_
  rintro p i q ⟨hworkers, hrecord⟩ - hstep
  cases hstep with
  | take job h =>
    refine ⟨fun j job' past rest hj => ?_, hrecord⟩
    by_cases hji : j = i
    · rw [hji] at hj
      dsimp only at hj
      rw [Function.update_self] at hj
      cases hj
      exact List.nil_sublist _
    · dsimp only at hj
      rw [Function.update_of_ne hji] at hj
      exact hworkers j job' past rest hj
  | @call job past c next time r s h hacts =>
    dsimp only
    rw [acted_append, acted_called]
    have hpast := hworkers i job past _ h
    refine ⟨fun j job' past' rest hj => ?_, fun e he => ?_⟩
    · by_cases hji : j = i
      · rw [hji, Function.update_self] at hj
        cases hj
        exact hpast.append (List.Sublist.refl _)
      · rw [Function.update_of_ne hji] at hj
        exact (hworkers j job' past' rest hj).trans (List.sublist_append_left _ _)
    · rcases List.mem_append.mp he with he | he
      · exact (hrecord e he).trans (List.sublist_append_left _ _)
      · rw [List.mem_singleton.mp he]
        exact hpast.trans (List.sublist_append_left _ _)
  | @finish job past a h =>
    dsimp only
    rw [acted_append, acted_finished, List.append_nil]
    refine ⟨fun j job' past' rest hj => ?_, fun e he => ?_⟩
    · by_cases hji : j = i
      · rw [hji, Function.update_self] at hj
        cases hj
      · rw [Function.update_of_ne hji] at hj
        exact hworkers j job' past' rest hj
    · rcases List.mem_append.mp he with he | he
      · exact hrecord e he
      · rw [List.mem_singleton.mp he]
        exact hworkers i job past _ h

/-- What is shared becomes `t` by these acts, one after the other. -/
inductive Path (acts : σ → Act τ C R → σ → Prop) (s : σ) : List (Act τ C R) → σ → Prop
  | nil : Path acts s [] s
  | snoc {l : List (Act τ C R)} {t u : σ} {a : Act τ C R} (h : Path acts s l t) (ha : acts t a u) :
    Path acts s (l ++ [a]) u

/-- **What is shared results from the acts on record.** -/
theorem run_path (run : Runs body acts (idle s) p) : Path acts s (acted p.record) p.shared := by
  refine run.invariant (I := fun p => Path acts s (acted p.record) p.shared) .nil ?_
  rintro p i q hpath - hstep
  cases hstep with
  | take job h => exact hpath
  | call h hacts =>
    dsimp only
    rw [acted_append, acted_called]
    exact hpath.snoc hacts
  | finish h =>
    dsimp only
    rw [acted_append, acted_finished, List.append_nil]
    exact hpath

omit [DecidableEq ι] in
/-- The state in which one of the acts was made. -/
theorem Path.split {l l' : List (Act τ C R)} {a : Act τ C R} {t : σ}
    (h : Path acts s (l ++ a :: l') t) : ∃ u v, Path acts s l u ∧ acts u a v := by
  induction l' using List.reverseRecOn generalizing t with
  | nil =>
    generalize hl : l ++ [a] = m at h
    cases h with
    | nil => exact absurd hl (List.append_ne_nil_of_right_ne_nil _ (List.cons_ne_nil _ _))
    | snoc h ha =>
      obtain ⟨rfl, hlast⟩ := List.append_inj' hl rfl
      cases hlast
      exact ⟨_, _, h, ha⟩
  | append_singleton l' b ih =>
    generalize hl : l ++ a :: (l' ++ [b]) = m at h
    cases h with
    | nil => exact absurd hl (List.append_ne_nil_of_right_ne_nil _ (List.cons_ne_nil _ _))
    | snoc h ha =>
      rw [← List.cons_append, ← List.append_assoc] at hl
      obtain ⟨rfl, -⟩ := List.append_inj' hl rfl
      exact ih h

omit [DecidableEq ι] in
/-- Without acts nothing changes. -/
theorem eq_of_path_nil {t : σ} (h : Path acts s [] t) : t = s := by
  generalize hl : ([] : List (Act τ C R)) = m at h
  cases h with
  | nil => rfl
  | snoc => simp at hl

omit [DecidableEq ι] in
/-- The first act, and the others. -/
theorem path_cons {l : List (Act τ C R)} {a : Act τ C R} {t : σ} :
    Path acts s (a :: l) t ↔ ∃ u, acts s a u ∧ Path acts u l t := by
  constructor
  · intro h
    induction l using List.reverseRecOn generalizing t with
    | nil =>
      generalize hl : [a] = m at h
      cases h with
      | nil => cases hl
      | @snoc l u _ b h hb =>
        obtain ⟨rfl, hlast⟩ := List.append_inj' (show [] ++ [a] = l ++ [b] from hl) rfl
        cases hlast
        rw [eq_of_path_nil h] at hb
        exact ⟨t, hb, .nil⟩
    | append_singleton l b ih =>
      generalize hl : a :: (l ++ [b]) = m at h
      cases h with
      | nil => cases hl
      | snoc h hb =>
        rw [← List.cons_append] at hl
        obtain ⟨rfl, hlast⟩ := List.append_inj' hl rfl
        cases hlast
        obtain ⟨u, ha, hpath⟩ := ih h
        exact ⟨u, ha, hpath.snoc hb⟩
  · rintro ⟨u, ha, hpath⟩
    induction hpath with
    | nil => exact Path.snoc (l := []) .nil ha
    | snoc _ hb ih => exact Path.snoc (l := a :: _) ih hb

omit [DecidableEq ι] in
/-- One path after another. -/
theorem Path.trans {l l' : List (Act τ C R)} {t u : σ} (h : Path acts s l t)
    (h' : Path acts t l' u) : Path acts s (l ++ l') u := by
  induction h' with
  | nil =>
    rw [List.append_nil]
    exact h
  | snoc _ ha ih =>
    rw [← List.append_assoc]
    exact ih.snoc ha

/-- A worker goes on with its request while the others wait. -/
theorem run_rest {p₀ : Pool ι σ τ C R J α} {job : J} {past l : List (Act τ C R)}
    {rest : Program C R α} {a : α} {t : σ} (run : Runs body acts p₀ p)
    (hi : p.workers i = .serving job past rest) (hyields : rest.Yields l a)
    (hpath : Path acts p.shared l t) :
    ∃ q, Runs body acts p₀ q ∧ q.shared = t ∧ q.workers = Function.update p.workers i .waiting ∧
      acted q.record = acted p.record ++ l ∧ served q.record = served p.record ++ [(i, job, a)] ∧
      ⟨i, job, past ++ l, .finished a⟩ ∈ q.record := by
  induction hyields generalizing p past with
  | done a =>
    refine ⟨_, run.tail trivial (.finish hi), (eq_of_path_nil hpath).symm, rfl, ?_, ?_, ?_⟩
    · exact acted_append p.record _
    · exact served_append p.record _
    · rw [List.append_nil]
      exact List.mem_append_right _ (List.mem_singleton_self _)
  | @call c next r l a time h ih =>
    obtain ⟨u, ha, hpath⟩ := path_cons.mp hpath
    obtain ⟨q, hrun, hshared, hworkers, hacted, hserved, hmem⟩ :=
      ih (run.tail trivial (.call hi ha)) (Function.update_self _ _ _) hpath
    refine ⟨q, hrun, hshared, ?_, ?_, ?_, ?_⟩
    · rw [hworkers]
      exact Function.update_idem _ _ _
    · rw [hacted, acted_append, acted_called, List.append_assoc, List.singleton_append]
    · rw [hserved, served_append, served_called, List.append_nil]
    · rw [List.append_assoc, List.singleton_append] at hmem
      exact hmem

/-- **A worker that is left alone with a request** makes its calls one after the other, and is done. -/
theorem run_alone {p₀ : Pool ι σ τ C R J α} {job : J} {l : List (Act τ C R)} {a : α} {t : σ}
    (run : Runs body acts p₀ p) (hi : p.workers i = .waiting) (hyields : (body job).Yields l a)
    (hpath : Path acts p.shared l t) :
    ∃ record, Runs body acts p₀ ⟨t, p.workers, record⟩ ∧
      acted record = acted p.record ++ l ∧ served record = served p.record ++ [(i, job, a)] ∧
      ⟨i, job, l, .finished a⟩ ∈ record := by
  obtain ⟨q, hrun, hshared, hworkers, hrecord⟩ :=
    run_rest (run.tail trivial (.take job hi)) (Function.update_self _ _ _) hyields hpath
  have hself : Function.update p.workers i .waiting = p.workers := by
    rw [← hi]
    exact Function.update_eq_self i p.workers
  obtain ⟨shared, workers, record⟩ := q
  dsimp only at hshared hworkers
  rw [Function.update_idem, hself] at hworkers
  rw [hshared, hworkers] at hrun
  exact ⟨record, hrun, hrecord⟩

end Pool
