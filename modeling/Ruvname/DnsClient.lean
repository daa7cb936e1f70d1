/-
# Queries in progress

The client of `dns/client.rs` keeps a list of queries in progress, shared by the senders, the two
worker threads that read responses, and the thread that sweeps out what is overdue.  Each of them
holds the lock while it works on the list, so that a run is a sequence of whole steps.

Everything that is registered and not yet answered is on the list, in the order of registration;
this is the invariant of all runs.
-/
import Ruvname.Packet
import Ruvname.Run
import Ruvname.Exec

open Exec

namespace DnsClient

/-- `PendingQuery`.  Times are nanoseconds; a channel is known by its number. -/
structure PendingQuery where
  seq : UInt16
  timestamp : ℤ
  tx : ℕ
  deriving DecidableEq, Repr

/-- What is sent into the channels: a response, or `None` for a timeout. -/
abbrev Sent := List (ℕ × Option DnsPacket)

/-- The list under the lock, and what has happened so far: the queries that were registered,
and the messages sent into their channels. -/
structure State where
  pendingQueries : List PendingQuery := []
  registered : List PendingQuery := []
  sent : Sent := []

/-- The part of `send_udp_query` under the lock: a new channel, and a query that holds it.  The id
comes from a counter that wraps around and is shared by all senders; any id can turn up. -/
def register (seq : UInt16) (now : ℤ) (s : State) : State :=
  let query := ⟨seq, now, s.registered.length⟩
  { s with
    pendingQueries := s.pendingQueries ++ [query]
    registered := s.registered ++ [query] }

/-- `Vec::remove`. -/
def remove {α : Type} (l : List α) (i : ℕ) : Exec (List α) :=
  if i < l.length then .ok (l.eraseIdx i) else .error .outOfRange

/-- The search of a worker thread from position `i` on: the first query with the id. -/
def matchedQuery (id : UInt16) : ℕ → List PendingQuery → Option (ℕ × PendingQuery)
  | _, [] => none
  | i, query :: rest => if query.seq = id then some (i, query) else matchedQuery id (i + 1) rest

/-- What both worker threads do with a response.  The discarded ones are reported with their first
question. -/
def deliver (packet : DnsPacket) (s : State) : Exec State :=
  match matchedQuery packet.header.id 0 s.pendingQueries with
  | some (idx, query) => do
    let pendingQueries ← remove s.pendingQueries idx
    .ok { s with
      pendingQueries := pendingQueries
      sent := s.sent ++ [(query.tx, some packet)] }
  | none => if packet.questions = [] then .error .outOfRange else .ok s

/-- `Duration::seconds(5)`. -/
def timeout : ℤ := 5000000000

/-- The loop of the timeout thread from position `i` on: the positions of the overdue queries and
the messages sent to them.  The clock is read anew for every query. -/
def finishedQueries (clock : ℕ → ℤ) : ℕ → List PendingQuery → List ℕ × Sent
  | _, [] => ([], [])
  | i, query :: rest =>
    let (finished, sent) := finishedQueries clock (i + 1) rest
    if query.timestamp + timeout < clock i then (i :: finished, (query.tx, none) :: sent)
    else (finished, sent)

/-- The timeout thread: the finished queries are removed in reverse order. -/
def sweep (clock : ℕ → ℤ) (s : State) : Exec State := do
  let (finished, sent) := finishedQueries clock 0 s.pendingQueries
  let pendingQueries ← finished.reverse.foldlM remove s.pendingQueries
  .ok { s with pendingQueries := pendingQueries, sent := s.sent ++ sent }

/-! ## Runs -/

/-- A step of one of the threads. -/
inductive Action where
  | register (seq : UInt16) (now : ℤ)
  | ipv4 (packet : DnsPacket)
  | ipv6 (packet : DnsPacket)
  | timeouts (clock : ℕ → ℤ)

/-- The response that a step brings. -/
def Action.response? : Action → Option DnsPacket
  | ipv4 packet => some packet
  | ipv6 packet => some packet
  | _ => none

/-- The transitions of the shared list. -/
def Step (s : State) (a : Action) (s' : State) : Prop :=
  match a with
  | .register seq now => s' = register seq now s
  | .ipv4 packet => deliver packet s = .ok s'
  | .ipv6 packet => deliver packet s = .ok s'
  | .timeouts clock => sweep clock s = .ok s'

/-- Responses have a question. -/
def Asks (_ : State) (a : Action) : Prop := ∀ packet, a.response? = some packet → packet.questions ≠ []

/-! ## What one step does -/

/-- The channels that messages were sent into. -/
def channels (sent : Sent) : List ℕ := sent.map Prod.fst

/-- Some queries are answered: each gets one message and leaves the list, the others stay. -/
structure Answers (s : State) (new : Sent) (s' : State) : Prop where
  registered : s'.registered = s.registered
  sent : s'.sent = s.sent ++ new
  pending : s'.pendingQueries = s.pendingQueries.filter (fun query => query.tx ∉ channels new)
  among : (channels new).Sublist (s.pendingQueries.map PendingQuery.tx)

theorem matchedQuery_eq_none {id : UInt16} {i : ℕ} {l : List PendingQuery}
    (h : matchedQuery id i l = none) : ∀ query ∈ l, query.seq ≠ id := by
  induction l generalizing i with
  | nil => simp
  | cons query rest ih =>
    unfold matchedQuery at h
    split at h
    · cases h
    · rename_i hne
      intro q hq
      rcases List.mem_cons.mp hq with rfl | hq
      · exact hne
      · exact ih h q hq

/-- A match splits the list, and it is the first. -/
theorem matchedQuery_eq_some {id : UInt16} {i j : ℕ} {l : List PendingQuery} {query : PendingQuery}
    (h : matchedQuery id i l = some (j, query)) :
    ∃ before after, l = before ++ query :: after ∧ j = i + before.length ∧ query.seq = id ∧
      ∀ q ∈ before, q.seq ≠ id := by
  induction l generalizing i with
  | nil => cases h
  | cons first rest ih =>
    unfold matchedQuery at h
    split at h
    · rename_i hseq
      cases h
      exact ⟨[], rest, rfl, rfl, hseq, fun q hq => by cases hq⟩
    · rename_i hne
      obtain ⟨before, after, rfl, rfl, hseq, hbefore⟩ := ih h
      refine ⟨first :: before, after, rfl, ?_, hseq, List.forall_mem_cons.mpr ⟨hne, hbefore⟩⟩
      rw [List.length_cons]
      omega

theorem remove_append_cons {α : Type} (before after : List α) (x : α) :
    remove (before ++ x :: after) before.length = .ok (before ++ after) := by
  have hlt : before.length < (before ++ x :: after).length := by
    rw [List.length_append, List.length_cons]
    omega
  rw [remove, if_pos hlt, List.eraseIdx_append_of_length_le le_rfl, Nat.sub_self, List.eraseIdx_cons_zero]

/-- The queries that a sweep leaves. -/
def unfinished (clock : ℕ → ℤ) : ℕ → List PendingQuery → List PendingQuery
  | _, [] => []
  | i, query :: rest =>
    if query.timestamp + timeout < clock i then unfinished clock (i + 1) rest
    else query :: unfinished clock (i + 1) rest

/-- **Removing in reverse order** hits the positions that were found: the queries after a position
have been dealt with when its turn comes. -/
theorem foldlM_remove (clock : ℕ → ℤ) (before l : List PendingQuery) :
    (finishedQueries clock before.length l).1.reverse.foldlM remove (before ++ l)
      = .ok (before ++ unfinished clock before.length l) := by
  induction l generalizing before with
  | nil => rfl
  | cons query rest ih =>
    have hrest := ih (before ++ [query])
    rw [List.length_append, List.length_singleton, List.append_assoc, List.singleton_append,
      List.append_assoc, List.singleton_append] at hrest
    unfold finishedQueries unfinished
    by_cases hover : query.timestamp + timeout < clock before.length
    · simp only [if_pos hover, List.reverse_cons, List.foldlM_append, List.foldlM_cons, List.foldlM_nil]
      rw [hrest, ok_bind, remove_append_cons, ok_bind]
      rfl
    · simp only [if_neg hover]
      exact hrest

theorem channels_finishedQueries (clock : ℕ → ℤ) (i : ℕ) (l : List PendingQuery) :
    (channels (finishedQueries clock i l).2).Sublist (l.map PendingQuery.tx) := by
  induction l generalizing i with
  | nil => exact List.Sublist.slnil
  | cons query rest ih =>
    unfold finishedQueries
    by_cases hover : query.timestamp + timeout < clock i
    · simp only [if_pos hover]
      exact (ih (i + 1)).cons_cons query.tx
    · simp only [if_neg hover]
      exact (ih (i + 1)).cons query.tx

theorem mem_finishedQueries {clock : ℕ → ℤ} {i : ℕ} {l : List PendingQuery} {m : ℕ × Option DnsPacket}
    (h : m ∈ (finishedQueries clock i l).2) :
    m.2 = none ∧ ∃ query ∈ l, query.tx = m.1 ∧ ∃ j, query.timestamp + timeout < clock j := by
  induction l generalizing i with
  | nil => cases h
  | cons query rest ih =>
    unfold finishedQueries at h
    by_cases hover : query.timestamp + timeout < clock i
    · simp only [if_pos hover] at h
      rcases List.mem_cons.mp h with rfl | h
      · exact ⟨rfl, query, List.mem_cons_self, rfl, i, hover⟩
      · obtain ⟨hnone, q, hq, hrest⟩ := ih h
        exact ⟨hnone, q, List.mem_cons_of_mem _ hq, hrest⟩
    · simp only [if_neg hover] at h
      obtain ⟨hnone, q, hq, hrest⟩ := ih h
      exact ⟨hnone, q, List.mem_cons_of_mem _ hq, hrest⟩

/-- What is left are the queries that got no message. -/
theorem unfinished_eq_filter (clock : ℕ → ℤ) (i : ℕ) {l : List PendingQuery}
    (hnodup : (l.map PendingQuery.tx).Nodup) :
    unfinished clock i l
      = l.filter (fun query => query.tx ∉ channels (finishedQueries clock i l).2) := by
  induction l generalizing i with
  | nil => rfl
  | cons query rest ih =>
    rw [List.map_cons, List.nodup_cons] at hnodup
    have hnot : query.tx ∉ channels (finishedQueries clock (i + 1) rest).2 :=
      fun hmem => hnodup.1 ((channels_finishedQueries clock (i + 1) rest).subset hmem)
    unfold unfinished finishedQueries
    by_cases hover : query.timestamp + timeout < clock i
    · simp only [if_pos hover]
      rw [List.filter_cons_of_neg (by simp [channels]), ih (i + 1) hnodup.2]
      apply List.filter_congr
      intro q hq
      have hne : q.tx ≠ query.tx := fun heq => hnodup.1 (heq ▸ List.mem_map_of_mem hq)
      rw [decide_eq_decide]
      simp only [channels, List.map_cons, List.mem_cons, hne, false_or]
    · simp only [if_neg hover]
      rw [List.filter_cons_of_pos (by simpa using hnot), ih (i + 1) hnodup.2]

/-- A response answers the first query with its id, if there is one. -/
theorem deliver_spec {packet : DnsPacket} {s s' : State} (h : deliver packet s = .ok s')
    (hnodup : (s.pendingQueries.map PendingQuery.tx).Nodup) :
    ∃ new, Answers s new s' ∧ ∀ m ∈ new, m.2 = some packet
      ∧ ∃ query ∈ s.pendingQueries, query.tx = m.1 ∧ query.seq = packet.header.id := by
  unfold deliver at h
  cases hmatch : matchedQuery packet.header.id 0 s.pendingQueries with
  | none =>
    rw [hmatch] at h
    dsimp only at h
    split at h
    · cases h
    · cases h
      refine ⟨[], ⟨rfl, (List.append_nil _).symm, ?_, List.nil_sublist _⟩, fun m hm => by cases hm⟩
      exact (List.filter_eq_self.mpr fun query _ => by simp [channels]).symm
  | some found =>
    obtain ⟨idx, query⟩ := found
    rw [hmatch] at h
    obtain ⟨before, after, hsplit, hidx, hseq, -⟩ := matchedQuery_eq_some hmatch
    rw [Nat.zero_add] at hidx
    subst hidx
    have hmem : query ∈ s.pendingQueries := by
      rw [hsplit]
      exact List.mem_append_right _ List.mem_cons_self
    dsimp only at h
    rw [hsplit, remove_append_cons, ok_bind, Except.ok.injEq] at h
    subst h
    refine ⟨[(query.tx, some packet)], ⟨rfl, rfl, ?_, ?_⟩, ?_⟩
    · -- no other query holds this channel
      rw [hsplit, List.map_append, List.map_cons, List.nodup_middle, List.nodup_cons] at hnodup
      have hkeep : ∀ q ∈ before ++ after, q.tx ≠ query.tx := by
        intro q hq heq
        apply hnodup.1
        rw [← List.map_append, ← heq]
        exact List.mem_map_of_mem hq
      have hall : (before ++ after).filter (fun q => q.tx ∉ channels [(query.tx, some packet)])
          = before ++ after := by
        apply List.filter_eq_self.mpr
        intro q hq
        simpa [channels] using hkeep q hq
      show before ++ after = _
      rw [hsplit, ← hall, List.filter_append, List.filter_append,
        List.filter_cons_of_neg (by simp [channels])]
    · exact List.singleton_sublist.mpr (List.mem_map_of_mem hmem)
    · intro m hm
      rw [List.mem_singleton] at hm
      subst hm
      exact ⟨rfl, query, hmem, rfl, hseq⟩

/-- A sweep answers overdue queries. -/
theorem sweep_spec {clock : ℕ → ℤ} {s s' : State} (h : sweep clock s = .ok s')
    (hnodup : (s.pendingQueries.map PendingQuery.tx).Nodup) :
    ∃ new, Answers s new s' ∧ ∀ m ∈ new, m.2 = none
      ∧ ∃ query ∈ s.pendingQueries, query.tx = m.1 ∧ ∃ j, query.timestamp + timeout < clock j := by
  have hremove := foldlM_remove clock [] s.pendingQueries
  rw [List.nil_append, List.length_nil, List.nil_append] at hremove
  unfold sweep at h
  dsimp only at h
  rw [hremove, ok_bind, Except.ok.injEq] at h
  subst h
  refine ⟨(finishedQueries clock 0 s.pendingQueries).2,
    ⟨rfl, rfl, unfinished_eq_filter clock 0 hnodup, channels_finishedQueries clock 0 _⟩, ?_⟩
  intro m hm
  exact mem_finishedQueries hm

/-! ## What holds in every state -/

/-- **The pending-query protocol.**  A channel gets one message at most, a response goes to a query
with its id, and the list holds exactly the unanswered queries, in the order of registration. -/
structure State.Sound (s : State) : Prop where
  numbered : s.registered.map PendingQuery.tx = List.range s.registered.length
  once : (channels s.sent).Nodup
  pending : s.pendingQueries = s.registered.filter (fun query => query.tx ∉ channels s.sent)
  answers : ∀ m ∈ s.sent, ∃ query ∈ s.registered, query.tx = m.1
    ∧ ∀ packet, m.2 = some packet → packet.header.id = query.seq

theorem State.Sound.nodup_registered {s : State} (h : s.Sound) : (s.registered.map PendingQuery.tx).Nodup := by
  rw [h.numbered]
  exact List.nodup_range

theorem State.Sound.pending_sublist {s : State} (h : s.Sound) : s.pendingQueries.Sublist s.registered := by
  rw [h.pending]
  exact List.filter_sublist

theorem State.Sound.nodup_pending {s : State} (h : s.Sound) :
    (s.pendingQueries.map PendingQuery.tx).Nodup :=
  h.nodup_registered.sublist (h.pending_sublist.map _)

theorem sound_new : State.Sound {} where
  numbered := rfl
  once := List.nodup_nil
  pending := rfl
  answers m hm := by cases hm

/-- A new query goes to the end of the list. -/
theorem State.Sound.register {s : State} (h : s.Sound) (seq : UInt16) (now : ℤ) :
    (DnsClient.register seq now s).Sound := by
  have hfresh : s.registered.length ∉ channels s.sent := by
    intro hmem
    obtain ⟨m, hm, hfst⟩ := List.mem_map.mp hmem
    obtain ⟨query, hquery, htx, -⟩ := h.answers m hm
    have hrange : query.tx ∈ List.range s.registered.length := by
      rw [← h.numbered]
      exact List.mem_map_of_mem hquery
    rw [List.mem_range, htx, hfst] at hrange
    exact lt_irrefl _ hrange
  refine ⟨?_, h.once, ?_, ?_⟩
  · show (s.registered ++ [_]).map PendingQuery.tx = List.range (s.registered ++ [_]).length
    rw [List.map_append, h.numbered, List.length_append, List.length_singleton, List.range_succ]
    rfl
  · show s.pendingQueries ++ [_]
      = (s.registered ++ [_]).filter (fun query => query.tx ∉ channels s.sent)
    rw [List.filter_append, ← h.pending, List.filter_cons_of_pos (by simpa using hfresh),
      List.filter_nil]
  · intro m hm
    obtain ⟨query, hquery, hrest⟩ := h.answers m hm
    exact ⟨query, List.mem_append_left _ hquery, hrest⟩

/-- Answers keep the protocol. -/
theorem State.Sound.answer {s s' : State} {new : Sent} (h : s.Sound) (hanswers : Answers s new s')
    (hids : ∀ m ∈ new, ∃ query ∈ s.pendingQueries, query.tx = m.1
      ∧ ∀ packet, m.2 = some packet → packet.header.id = query.seq) : s'.Sound := by
  refine ⟨?_, ?_, ?_, ?_⟩
  · rw [hanswers.registered]
    exact h.numbered
  · rw [hanswers.sent, channels, List.map_append]
    refine List.Nodup.append h.once (h.nodup_pending.sublist hanswers.among) ?_
    -- the pending queries have got nothing so far
    intro tx hold hnew
    obtain ⟨query, hquery, rfl⟩ := List.mem_map.mp (hanswers.among.subset hnew)
    rw [h.pending, List.mem_filter, decide_eq_true_eq] at hquery
    exact hquery.2 hold
  · rw [hanswers.pending, h.pending, hanswers.registered, hanswers.sent, List.filter_filter]
    apply List.filter_congr
    intro query _
    rw [Bool.eq_iff_iff, Bool.and_eq_true, decide_eq_true_eq, decide_eq_true_eq, decide_eq_true_eq,
      channels, channels, channels, List.map_append, List.mem_append, not_or]
    exact and_comm
  · intro m hm
    rw [hanswers.sent, List.mem_append] at hm
    rw [hanswers.registered]
    rcases hm with hm | hm
    · exact h.answers m hm
    · obtain ⟨query, hquery, hrest⟩ := hids m hm
      exact ⟨query, h.pending_sublist.subset hquery, hrest⟩

/-! ## What holds in every step -/

/-- A step removes a query exactly if it sends it a message, keeps the order of the others, and
answers by a response with the id of the query or because the query is overdue. -/
structure Orderly (s : State) (a : Action) (s' : State) : Prop where
  removed : ∃ new, s'.sent = s.sent ++ new
    ∧ ∀ query ∈ s.pendingQueries, query ∉ s'.pendingQueries ↔ query.tx ∈ channels new
  order : ∃ added, s'.pendingQueries
    = s.pendingQueries.filter (fun query => query ∈ s'.pendingQueries) ++ added
  reason : ∀ query ∈ s.pendingQueries, query ∉ s'.pendingQueries →
    (∃ packet, a.response? = some packet ∧ packet.header.id = query.seq)
      ∨ ∃ clock i, a = .timeouts clock ∧ query.timestamp + timeout < clock i

/-- Answers are orderly, once their reason is known. -/
theorem Answers.orderly {s s' : State} {a : Action} {new : Sent} (h : Answers s new s')
    (hnodup : (s.pendingQueries.map PendingQuery.tx).Nodup)
    (hreason : ∀ m ∈ new, ∃ query ∈ s.pendingQueries, query.tx = m.1
      ∧ ((∃ packet, a.response? = some packet ∧ packet.header.id = query.seq)
        ∨ ∃ clock i, a = .timeouts clock ∧ query.timestamp + timeout < clock i)) : Orderly s a s' := by
  have hremoved : ∀ query ∈ s.pendingQueries, query ∉ s'.pendingQueries ↔ query.tx ∈ channels new := by
    intro query hquery
    rw [h.pending, List.mem_filter, decide_eq_true_eq]
    simp [hquery]
  refine ⟨⟨new, h.sent, hremoved⟩, ⟨[], ?_⟩, ?_⟩
  · rw [List.append_nil]
    conv_lhs => rw [h.pending]
    apply List.filter_congr
    intro query hquery
    rw [decide_eq_decide, ← hremoved query hquery, not_not]
  · intro query hquery hgone
    obtain ⟨m, hm, htx⟩ := List.mem_map.mp ((hremoved query hquery).mp hgone)
    obtain ⟨query', hquery', htx', hreason⟩ := hreason m hm
    -- the channel tells the query
    have hsame : query' = query :=
      List.inj_on_of_nodup_map hnodup hquery' hquery (htx'.trans htx)
    rw [← hsame]
    exact hreason

theorem orderly_register (s : State) (seq : UInt16) (now : ℤ) :
    Orderly s (.register seq now) (register seq now s) := by
  have hkept : ∀ query ∈ s.pendingQueries, query ∈ (register seq now s).pendingQueries :=
    fun query hquery => List.mem_append_left _ hquery
  refine ⟨⟨[], (List.append_nil _).symm, ?_⟩, ⟨[⟨seq, now, s.registered.length⟩], ?_⟩, ?_⟩
  · intro query hquery
    simp [hkept query hquery, channels]
  · rw [List.filter_eq_self.mpr fun query hquery => by simpa using hkept query hquery]
    rfl
  · intro query hquery hgone
    exact absurd (hkept query hquery) hgone

/-- **One step.** -/
theorem Step.sound {s s' : State} {a : Action} (h : s.Sound) (hstep : Step s a s') :
    s'.Sound ∧ Orderly s a s' := by
  have hdeliver : ∀ packet, a.response? = some packet → deliver packet s = .ok s' →
      s'.Sound ∧ Orderly s a s' := by
    intro packet ha hs'
    obtain ⟨new, hanswers, hnew⟩ := deliver_spec hs' h.nodup_pending
    refine ⟨h.answer hanswers ?_, hanswers.orderly h.nodup_pending ?_⟩
    · intro m hm
      obtain ⟨hpacket, query, hquery, htx, hseq⟩ := hnew m hm
      refine ⟨query, hquery, htx, fun p hp => ?_⟩
      rw [hpacket, Option.some.injEq] at hp
      rw [← hp, hseq]
    · intro m hm
      obtain ⟨-, query, hquery, htx, hseq⟩ := hnew m hm
      exact ⟨query, hquery, htx, Or.inl ⟨packet, ha, hseq.symm⟩⟩
  cases a with
  | register seq now =>
    obtain rfl : s' = register seq now s := hstep
    exact ⟨h.register seq now, orderly_register s seq now⟩
  | ipv4 packet => exact hdeliver packet rfl hstep
  | ipv6 packet => exact hdeliver packet rfl hstep
  | timeouts clock =>
    obtain ⟨new, hanswers, hnew⟩ := sweep_spec hstep h.nodup_pending
    refine ⟨h.answer hanswers ?_, hanswers.orderly h.nodup_pending ?_⟩
    · intro m hm
      obtain ⟨hnone, query, hquery, htx, -⟩ := hnew m hm
      refine ⟨query, hquery, htx, fun p hp => ?_⟩
      rw [hnone] at hp
      cases hp
    · intro m hm
      obtain ⟨-, query, hquery, htx, j, hover⟩ := hnew m hm
      exact ⟨query, hquery, htx, Or.inr ⟨clock, j, rfl, hover⟩⟩

/-- No step panics: what is removed is there, and a discarded response has a first question. -/
theorem exists_step {s : State} {a : Action} (hasks : Asks s a) : ∃ s', Step s a s' := by
  have hdeliver : ∀ packet, a.response? = some packet → ∃ s', deliver packet s = .ok s' := by
    intro packet ha
    unfold deliver
    cases hmatch : matchedQuery packet.header.id 0 s.pendingQueries with
    | none =>
      dsimp only
      rw [if_neg (hasks packet ha)]
      exact ⟨s, rfl⟩
    | some found =>
      obtain ⟨idx, query⟩ := found
      obtain ⟨before, after, hsplit, hidx, -⟩ := matchedQuery_eq_some hmatch
      rw [Nat.zero_add] at hidx
      dsimp only
      rw [hidx, hsplit, remove_append_cons, ok_bind]
      exact ⟨_, rfl⟩
  cases a with
  | register seq now => exact ⟨_, rfl⟩
  | ipv4 packet => exact hdeliver packet rfl
  | ipv6 packet => exact hdeliver packet rfl
  | timeouts clock =>
    have hremove := foldlM_remove clock [] s.pendingQueries
    rw [List.nil_append, List.length_nil, List.nil_append] at hremove
    show ∃ s', sweep clock s = .ok s'
    unfold sweep
    dsimp only
    rw [hremove, ok_bind]
    exact ⟨_, rfl⟩

/-- **The pending-query protocol over all runs.**  In every state reached by any interleaving the
list holds exactly the unanswered queries, and every further step is possible and orderly. -/
theorem run_pendingQueries {s : State} (hrun : Run Step Asks {} s) :
    s.Sound ∧ ∀ a, Asks s a → (∃ s', Step s a s') ∧ ∀ s', Step s a s' → Orderly s a s' := by
  have hsound : s.Sound := hrun.invariant sound_new fun t a u ht _ hstep => (hstep.sound ht).1
  exact ⟨hsound, fun a hasks => ⟨exists_step hasks, fun s' hstep => (hstep.sound hsound).2⟩⟩

end DnsClient

namespace Sample

/-- A response with the id 7. -/
def response : DnsPacket := { header := { id := 7 }, questions := [⟨"a.ruv", .a⟩] }

end Sample

namespace DnsClient

/-- Two queries with one id: the first is answered by the response, the second is overdue. -/
theorem run_pendingQueries_sameId : ∃ s : State, s.pendingQueries = [⟨7, 1, 1⟩]
    ∧ s.sent = [(0, some Sample.response)] ∧ s.Sound
    ∧ ∃ s', Step s (.timeouts fun _ => 6000000000) s' ∧ s'.sent = s.sent ++ [(1, none)] := by
  have hasks : ∀ (s : State) (a : Action), (∀ packet, a.response? = some packet → packet = Sample.response)
      → Asks s a := by
    intro s a h packet hpacket
    rw [h packet hpacket]
    decide
  have hone : Run Step Asks {} (register 7 0 {}) := Run.single (a := .register 7 0)
    (hasks _ _ fun _ h => by cases h) rfl
  have htwo : Run Step Asks {} (register 7 1 (register 7 0 {})) := hone.tail (a := .register 7 1)
    (hasks _ _ fun _ h => by cases h) rfl
  have hthree : Run Step Asks {} ⟨[⟨7, 1, 1⟩], [⟨7, 0, 0⟩, ⟨7, 1, 1⟩], [(0, some Sample.response)]⟩ :=
    htwo.tail (a := .ipv4 Sample.response) (hasks _ _ fun _ h => by cases h; rfl) rfl
  have hsound := run_pendingQueries hthree
  refine ⟨_, rfl, rfl, hsound.1, ⟨[], _, [(0, some Sample.response), (1, none)]⟩, rfl, rfl⟩

end DnsClient
