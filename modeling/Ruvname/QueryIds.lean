/-
# The ids of queries

`send_query` of `dns/client.rs`, as any number of threads run it at the same time.  Before a thread
registers its query it takes an id from a counter that all of them share, and looks whether the
counter has to start again: two operations on it, between which others take their ids.

The counter may miss its new start, and then runs on to the end of its type.  In any case an id comes
back only after 65534 others, so that a response cannot be mistaken for another as long as fewer ids
have been handed out since the oldest query in progress took its own (`DnsClient.run_delivers`).

A response that answers no query and has no question stops the thread that reads it while it holds the
lock of the list.  The lock is poisoned then: nobody registers a query any more, and nothing is
delivered.
-/
import Ruvname.DnsClient

open Exec

namespace DnsClient

/-- `send_udp_query` and `send_tcp_query`. -/
inductive Transport where
  | udp
  | tcp

/-- Where a thread is in `send_query`; the ticket of an id is how many were handed out before it. -/
inductive Sender where
  | idle
  /-- It has got an id from the counter. -/
  | counted (transport : Transport) (id : UInt16) (ticket : ℕ)
  /-- It has looked after the counter. -/
  | prepared (transport : Transport) (id : UInt16) (ticket : ℕ)
  /-- Its query is registered, and it waits at its channel. -/
  | waiting (id : UInt16) (tx : ℕ)
  /-- It has received a truncated response, and will ask again by TCP. -/
  | truncated
  | panicked

/-- The id that a thread has got and not registered. -/
def Sender.held? : Sender → Option (UInt16 × ℕ)
  | counted _ id ticket => some (id, ticket)
  | prepared _ id ticket => some (id, ticket)
  | _ => none

/-- `DnsNetworkClient` and the threads that use it, with the ids handed out so far, and the tickets
of the registered queries. -/
structure Senders (threads : ℕ) where
  seq : ℕ
  taken : List UInt16
  /-- A thread has panicked while it held the lock of `pending_queries`. -/
  poisoned : Bool
  client : State
  tickets : List ℕ
  threads : Fin threads → Sender

namespace Senders

variable {threads : ℕ}

/-- Nobody has asked anything. -/
def start : Senders threads := ⟨0, [], false, {}, [], fun _ => .idle⟩

def goto (s : Senders threads) (i : Fin threads) (sender : Sender) : Senders threads :=
  { s with threads := Function.update s.threads i sender }

/-- `self.seq.fetch_add`, on 64 bits. -/
def fetchAdd (s : Senders threads) (i : Fin threads) (transport : Transport) : Senders threads :=
  goto { s with seq := (s.seq + 1) % 2 ^ 64, taken := s.taken ++ [UInt16.ofNat s.seq] } i
    (.counted transport (UInt16.ofNat s.seq) s.taken.length)

/-- `self.seq.compare_exchange`. -/
def compareExchange (s : Senders threads) : Senders threads :=
  if s.seq = 0xffff then { s with seq := 0 } else s

/-- The query is pushed onto the list. -/
def push (s : Senders threads) (i : Fin threads) (id : UInt16) (ticket : ℕ) (now : ℤ) :
    Senders threads :=
  goto { s with client := register id now s.client, tickets := s.tickets ++ [ticket] } i
    (.waiting id s.client.registered.length)

/-- How `send_query` goes on with a message. -/
def received : Option DnsPacket → Sender
  | some packet => if packet.header.truncatedMessage then .truncated else .idle
  | none => .idle

/-- What the threads of the client and those that use it do. -/
inductive Act (threads : ℕ) where
  | count (i : Fin threads)
  | look (i : Fin threads)
  | push (i : Fin threads) (now : ℤ)
  | leave (i : Fin threads)
  | receive (i : Fin threads)
  | deliver (packet : DnsPacket)
  | sweep (clock : ℕ → ℤ)

/-- **A step of one of the threads.** -/
inductive Step (checks : Bool) : Senders threads → Act threads → Senders threads → Prop
  | count {s : Senders threads} {i : Fin threads} (h : s.threads i = .idle) :
    Step checks s (.count i) (s.fetchAdd i .udp)
  | resend {s : Senders threads} {i : Fin threads} (h : s.threads i = .truncated) :
    Step checks s (.count i) (s.fetchAdd i .tcp)
  | look {s : Senders threads} {i : Fin threads} {transport : Transport} {id next : UInt16}
      {ticket : ℕ} (h : s.threads i = .counted transport id ticket)
      (hnext : addU16 checks id 1 = .ok next) :
    Step checks s (.look i)
      ((if next = 0xffff then s.compareExchange else s).goto i (.prepared transport id ticket))
  | panic {s : Senders threads} {i : Fin threads} {transport : Transport} {id : UInt16} {ticket : ℕ}
      {fault : Fault} (h : s.threads i = .counted transport id ticket)
      (hnext : addU16 checks id 1 = .error fault) :
    Step checks s (.look i) (s.goto i .panicked)
  | push {s : Senders threads} {i : Fin threads} {id : UInt16} {ticket : ℕ} (now : ℤ)
      (h : s.threads i = .prepared .udp id ticket) (hlock : s.poisoned = false) :
    Step checks s (.push i now) (s.push i id ticket now)
  /-- `PoisonedLock`. -/
  | refuse {s : Senders threads} {i : Fin threads} {id : UInt16} {ticket : ℕ} (now : ℤ)
      (h : s.threads i = .prepared .udp id ticket) (hlock : s.poisoned = true) :
    Step checks s (.push i now) (s.goto i .idle)
  /-- The query cannot be written or sent. -/
  | fail {s : Senders threads} {i : Fin threads} {id : UInt16} {tx : ℕ}
      (h : s.threads i = .waiting id tx) : Step checks s (.leave i) (s.goto i .idle)
  /-- The query is sent by TCP, with or without a response. -/
  | exchange {s : Senders threads} {i : Fin threads} {id : UInt16} {ticket : ℕ}
      (h : s.threads i = .prepared .tcp id ticket) : Step checks s (.leave i) (s.goto i .idle)
  | receive {s : Senders threads} {i : Fin threads} {id : UInt16} {tx : ℕ} {message : Option DnsPacket}
      (h : s.threads i = .waiting id tx) (hmessage : (tx, message) ∈ s.client.sent) :
    Step checks s (.receive i) (s.goto i (received message))
  | deliver {s : Senders threads} {packet : DnsPacket} {client : State} (hlock : s.poisoned = false)
      (h : deliver packet s.client = .ok client) : Step checks s (.deliver packet) { s with client }
  /-- The thread that reads panics, with the lock. -/
  | poison {s : Senders threads} {packet : DnsPacket} {fault : Fault} (hlock : s.poisoned = false)
      (h : deliver packet s.client = .error fault) :
    Step checks s (.deliver packet) { s with poisoned := true }
  | discard {s : Senders threads} (packet : DnsPacket) (hlock : s.poisoned = true) :
    Step checks s (.deliver packet) s
  | sweep {s : Senders threads} {clock : ℕ → ℤ} {client : State} (hlock : s.poisoned = false)
      (h : sweep clock s.client = .ok client) : Step checks s (.sweep clock) { s with client }
  | pass {s : Senders threads} (clock : ℕ → ℤ) (hlock : s.poisoned = true) :
    Step checks s (.sweep clock) s

/-- A response that is read answers a query in progress, or has a question. -/
def Answerable (s : Senders threads) (a : Act threads) : Prop :=
  ∀ packet, a = .deliver packet → packet.questions ≠ [] ∨
    ∃ query ∈ s.client.pendingQueries, query.seq = packet.header.id

/-- The runs of the client. -/
abbrev Runs (checks : Bool) (s : Senders threads) : Prop := Run (Step checks) Answerable start s

/-! ## One id after the other -/

/-- An id that may be handed out after another one. -/
def Follows (v w : UInt16) : Prop :=
  w.toNat = v.toNat + 1 ∨ w.toNat = 0 ∧ 65534 ≤ v.toNat

theorem follows_ofNat (seq : ℕ) : Follows (UInt16.ofNat seq) (UInt16.ofNat ((seq + 1) % 2 ^ 64)) := by
  unfold Follows
  rw [UInt16.toNat_ofNat', UInt16.toNat_ofNat']
  omega

/-- The counter starts again only after an id that 0 may follow. -/
theorem Follows.zero {v : UInt16} (h : Follows v (UInt16.ofNat 0xffff)) : Follows v (UInt16.ofNat 0) := by
  unfold Follows at h ⊢
  rw [UInt16.toNat_ofNat'] at h ⊢
  omega

/-- How far ids have moved on: the counter has gone up all the way, or it has started again. -/
theorem distance_of_follows {l : List UInt16}
    (hl : ∀ n v w, l[n]? = some v → l[n + 1]? = some w → Follows v w) {k : ℕ} {v : UInt16}
    (hv : l[k]? = some v) (d : ℕ) {w : UInt16} (hw : l[k + d]? = some w) :
    w.toNat = v.toNat + d ∨ w.toNat + 65535 ≤ v.toNat + d := by
  induction d generalizing w with
  | zero =>
    rw [Nat.add_zero, hv, Option.some.injEq] at hw
    rw [hw]
    exact Or.inl rfl
  | succ d ih =>
    obtain ⟨hlt, -⟩ := List.getElem?_eq_some_iff.mp hw
    have hbefore : l[k + d]? = some l[k + d] := List.getElem?_eq_getElem (by omega)
    have hstep := hl (k + d) _ w hbefore hw
    have hlt' := w.toNat_lt
    have hdistance := ih hbefore
    -- a new start comes down from 65534 at least
    unfold Follows at hstep
    omega

/-- **An id comes back only after 65534 others.** -/
theorem le_of_sameId {l : List UInt16}
    (hl : ∀ n v w, l[n]? = some v → l[n + 1]? = some w → Follows v w) {k k' : ℕ} {v : UInt16}
    (hv : l[k]? = some v) (hv' : l[k']? = some v) (hlt : k < k') : k + 65535 ≤ k' := by
  obtain ⟨d, rfl⟩ := Nat.exists_eq_add_of_lt hlt
  have hdistance := distance_of_follows hl hv (d + 1) hv'
  omega

/-! ## The invariant -/

/-- **The ids are in order**: each follows the one before it, and each has been handed to one thread,
which holds it or has registered one query with it. -/
structure Numbered (s : Senders threads) : Prop where
  client : s.client.Sound
  consecutive : ∀ n v w, s.taken[n]? = some v → s.taken[n + 1]? = some w → Follows v w
  upcoming : ∀ n v, n + 1 = s.taken.length → s.taken[n]? = some v → Follows v (UInt16.ofNat s.seq)
  tickets : s.tickets.length = s.client.registered.length
  nodup : s.tickets.Nodup
  below : ∀ k ∈ s.tickets, k < s.taken.length
  ids : ∀ query ∈ s.client.registered, ∃ k, s.tickets[query.tx]? = some k ∧
    s.taken[k]? = some query.seq
  held : ∀ i id k, (s.threads i).held? = some (id, k) → s.taken[k]? = some id ∧ k ∉ s.tickets
  apart : ∀ i j id id' k, (s.threads i).held? = some (id, k) → (s.threads j).held? = some (id', k) →
    i = j
  waiting : ∀ i id tx, s.threads i = .waiting id tx →
    ∃ query ∈ s.client.registered, query.tx = tx ∧ query.seq = id

theorem numbered_start : Numbered (start : Senders threads) where
  client := sound_new
  consecutive n v w h := by cases h
  upcoming n v h := by cases h
  tickets := rfl
  nodup := List.nodup_nil
  below k h := by cases h
  ids query h := by cases h
  held i id k h := by cases h
  apart i j id id' k h := by cases h
  waiting i id tx h := by cases h

namespace Numbered

variable {s : Senders threads} {i : Fin threads} {sender : Sender}

/-- A thread that goes on holds nothing new, and does not wait for what is not registered. -/
theorem goto (h : s.Numbered) (hheld : ∀ x, sender.held? = some x → (s.threads i).held? = some x)
    (hwaiting : ∀ id tx, sender = .waiting id tx →
      ∃ query ∈ s.client.registered, query.tx = tx ∧ query.seq = id) : (s.goto i sender).Numbered := by
  have hof : ∀ j x, ((s.goto i sender).threads j).held? = some x → (s.threads j).held? = some x := by
    intro j x hx
    unfold Senders.goto at hx
    dsimp only at hx
    by_cases hj : j = i
    · rw [hj, Function.update_self] at hx
      rw [hj]
      exact hheld x hx
    · rw [Function.update_of_ne hj] at hx
      exact hx
  refine ⟨h.client, h.consecutive, h.upcoming, h.tickets, h.nodup, h.below, h.ids, ?_, ?_, ?_⟩
  · exact fun j id k hx => h.held j id k (hof j _ hx)
  · exact fun j j' id id' k hx hx' => h.apart j j' id id' k (hof j _ hx) (hof j' _ hx')
  · intro j id tx hj
    unfold Senders.goto at hj
    dsimp only at hj
    by_cases hji : j = i
    · rw [hji, Function.update_self] at hj
      exact hwaiting id tx hj
    · rw [Function.update_of_ne hji] at hj
      exact h.waiting j id tx hj

/-- The id that the counter hands out follows the last one. -/
theorem consecutive_concat (h : s.Numbered) {n : ℕ} {v w : UInt16}
    (hv : (s.taken ++ [UInt16.ofNat s.seq])[n]? = some v)
    (hw : (s.taken ++ [UInt16.ofNat s.seq])[n + 1]? = some w) : Follows v w := by
  obtain ⟨hlt, -⟩ := List.getElem?_eq_some_iff.mp hw
  rw [List.length_append, List.length_singleton] at hlt
  rw [List.getElem?_append_left (by omega)] at hv
  by_cases hn : n + 1 = s.taken.length
  · rw [hn, List.getElem?_concat_length, Option.some.injEq] at hw
    rw [← hw]
    exact h.upcoming n v hn hv
  · rw [List.getElem?_append_left (by omega)] at hw
    exact h.consecutive n v w hv hw

/-- The other threads stay where they are. -/
theorem threads_fetchAdd {transport : Transport} {j : Fin threads} (hj : j ≠ i) :
    (s.fetchAdd i transport).threads j = s.threads j := Function.update_of_ne hj _ _

/-- What a thread holds then: the new ticket, or what it held. -/
theorem held_fetchAdd {transport : Transport} {j : Fin threads} {id : UInt16} {k : ℕ}
    (hj : ((s.fetchAdd i transport).threads j).held? = some (id, k)) :
    (j = i ∧ id = UInt16.ofNat s.seq ∧ k = s.taken.length) ∨
      (j ≠ i ∧ (s.threads j).held? = some (id, k)) := by
  by_cases hji : j = i
  · have hself : (s.fetchAdd i transport).threads i
        = .counted transport (UInt16.ofNat s.seq) s.taken.length := Function.update_self _ _ _
    rw [hji, hself] at hj
    cases hj
    exact Or.inl ⟨hji, rfl, rfl⟩
  · rw [threads_fetchAdd hji] at hj
    exact Or.inr ⟨hji, hj⟩

/-- An id is handed out: its ticket is that of no id before. -/
theorem fetchAdd (h : s.Numbered) (transport : Transport) : (s.fetchAdd i transport).Numbered := by
  have hold : ∀ (k : ℕ) (v : UInt16), s.taken[k]? = some v →
      (s.taken ++ [UInt16.ofNat s.seq])[k]? = some v ∧ k < s.taken.length := by
    intro k v hk
    obtain ⟨hlt, -⟩ := List.getElem?_eq_some_iff.mp hk
    rw [List.getElem?_append_left hlt]
    exact ⟨hk, hlt⟩
  refine ⟨h.client, fun n v w hv hw => h.consecutive_concat hv hw, ?_, h.tickets, h.nodup, ?_, ?_, ?_,
    ?_, ?_⟩
  · intro n v hn hv
    change n + 1 = (s.taken ++ [UInt16.ofNat s.seq]).length at hn
    change (s.taken ++ [UInt16.ofNat s.seq])[n]? = some v at hv
    rw [List.length_append, List.length_singleton, Nat.add_right_cancel_iff] at hn
    rw [hn, List.getElem?_concat_length, Option.some.injEq] at hv
    rw [← hv]
    exact follows_ofNat s.seq
  · intro k hk
    exact (h.below k hk).trans_le (List.length_append ▸ Nat.le_add_right _ _)
  · intro query hquery
    obtain ⟨k, hk, hid⟩ := h.ids query hquery
    exact ⟨k, hk, (hold k _ hid).1⟩
  · intro j id k hj
    rcases held_fetchAdd hj with ⟨-, rfl, rfl⟩ | ⟨-, hj⟩
    · -- all tickets that are registered are older
      exact ⟨List.getElem?_concat_length, fun hmem => lt_irrefl _ (h.below _ hmem)⟩
    · obtain ⟨hid, hk⟩ := h.held j id k hj
      exact ⟨(hold k id hid).1, hk⟩
  · intro j j' id id' k hj hj'
    rcases held_fetchAdd hj with ⟨hji, -, hk⟩ | ⟨-, hj⟩ <;>
      rcases held_fetchAdd hj' with ⟨hji', -, hk'⟩ | ⟨-, hj'⟩
    · rw [hji, hji']
    · exact absurd (hold _ _ (h.held j' _ _ hj').1).2 (hk ▸ lt_irrefl _)
    · exact absurd (hold _ _ (h.held j _ _ hj).1).2 (hk' ▸ lt_irrefl _)
    · exact h.apart j j' id id' k hj hj'
  · intro j id tx hj
    by_cases hji : j = i
    · have hself : (s.fetchAdd i transport).threads i
          = .counted transport (UInt16.ofNat s.seq) s.taken.length := Function.update_self _ _ _
      rw [hji, hself] at hj
      cases hj
    · rw [threads_fetchAdd hji] at hj
      exact h.waiting j id tx hj

/-- The counter starts again. -/
theorem compareExchange (h : s.Numbered) : s.compareExchange.Numbered := by
  unfold Senders.compareExchange
  split_ifs with hseq
  · refine ⟨h.client, h.consecutive, fun n v hn hv => ?_, h.tickets, h.nodup, h.below, h.ids, h.held,
      h.apart, h.waiting⟩
    have hlast := h.upcoming n v hn hv
    rw [hseq] at hlast
    exact hlast.zero
  · exact h

/-- A thread registers a query with the id that it holds. -/
theorem push (h : s.Numbered) {id : UInt16} {ticket : ℕ}
    (hi : s.threads i = .prepared .udp id ticket) (now : ℤ) : (s.push i id ticket now).Numbered := by
  obtain ⟨hid, hticket⟩ := h.held i id ticket (by rw [hi]; rfl)
  have hthreads : ∀ j, j ≠ i → (s.push i id ticket now).threads j = s.threads j :=
    fun j hj => Function.update_of_ne hj _ _
  have hself : (s.push i id ticket now).threads i = .waiting id s.client.registered.length :=
    Function.update_self _ _ _
  have hregistered : (s.push i id ticket now).client.registered
      = s.client.registered ++ [⟨id, now, s.client.registered.length⟩] := rfl
  refine ⟨h.client.register id now, h.consecutive, h.upcoming, ?_, ?_, ?_, ?_, ?_, ?_, ?_⟩
  · rw [hregistered, List.length_append, ← h.tickets]
    exact List.length_append
  · exact List.nodup_append.mpr ⟨h.nodup, List.nodup_singleton ticket, fun k hk k' hk' heq =>
      hticket (List.mem_singleton.mp hk' ▸ heq ▸ hk)⟩
  · intro k hk
    rcases List.mem_append.mp hk with hk | hk
    · exact h.below k hk
    · rw [List.mem_singleton.mp hk]
      exact (List.getElem?_eq_some_iff.mp hid).1
  · intro query hquery
    rw [hregistered] at hquery
    rcases List.mem_append.mp hquery with hquery | hquery
    · obtain ⟨k, hk, hk'⟩ := h.ids query hquery
      refine ⟨k, ?_, hk'⟩
      exact (List.getElem?_append_left (List.getElem?_eq_some_iff.mp hk).1).trans hk
    · rw [List.mem_singleton.mp hquery]
      refine ⟨ticket, ?_, hid⟩
      dsimp only
      rw [← h.tickets]
      exact List.getElem?_concat_length
  · intro j id' k hj
    by_cases hji : j = i
    · rw [hji, hself] at hj
      cases hj
    · rw [hthreads j hji] at hj
      obtain ⟨hid', hk⟩ := h.held j id' k hj
      refine ⟨hid', fun hmem => ?_⟩
      rcases List.mem_append.mp hmem with hmem | hmem
      · exact hk hmem
      · rw [List.mem_singleton.mp hmem] at hj
        exact hji (h.apart j i id' id ticket hj (by rw [hi]; rfl))
  · intro j j' id₁ id₂ k hj hj'
    have hne : ∀ l x, ((s.push i id ticket now).threads l).held? = some x → l ≠ i := by
      intro l x hl hli
      rw [hli, hself] at hl
      cases hl
    rw [hthreads j (hne j _ hj)] at hj
    rw [hthreads j' (hne j' _ hj')] at hj'
    exact h.apart j j' id₁ id₂ k hj hj'
  · intro j id' tx hj
    rw [hregistered]
    by_cases hji : j = i
    · rw [hji, hself] at hj
      cases hj
      exact ⟨_, List.mem_append_right _ (List.mem_singleton_self _), rfl, rfl⟩
    · rw [hthreads j hji] at hj
      obtain ⟨query, hquery, hrest⟩ := h.waiting j id' tx hj
      exact ⟨query, List.mem_append_left _ hquery, hrest⟩

/-- Messages leave the numbers alone. -/
theorem answer (h : s.Numbered) {client : State} {new : Sent} (hclient : client.Sound)
    (hanswers : Answers s.client new client) : Numbered { s with client } := by
  have hregistered := hanswers.registered
  refine ⟨hclient, h.consecutive, h.upcoming, ?_, h.nodup, h.below, ?_, h.held, h.apart, ?_⟩
  · rw [hregistered]
    exact h.tickets
  · rw [hregistered]
    exact h.ids
  · rw [hregistered]
    exact h.waiting

/-- **One step**, by cases on what the thread does. -/
theorem step {checks : Bool} {s' : Senders threads} {a : Act threads} (h : s.Numbered)
    (hstep : Step checks s a s') : s'.Numbered := by
  cases hstep with
  | count hi => exact h.fetchAdd .udp
  | resend hi => exact h.fetchAdd .tcp
  | @look i transport id next ticket hi hnext =>
    split_ifs
    · refine h.compareExchange.goto (fun x hx => ?_) fun _ _ hw => by cases hw
      rw [show s.compareExchange.threads = s.threads by unfold Senders.compareExchange; split <;> rfl,
        hi]
      exact hx
    · refine h.goto (fun x hx => ?_) fun _ _ hw => by cases hw
      rw [hi]
      exact hx
  | panic hi hnext => exact h.goto (fun x hx => by cases hx) fun _ _ hw => by cases hw
  | push now hi hlock => exact h.push hi now
  | refuse now hi hlock => exact h.goto (fun x hx => by cases hx) fun _ _ hw => by cases hw
  | fail hi => exact h.goto (fun x hx => by cases hx) fun _ _ hw => by cases hw
  | exchange hi => exact h.goto (fun x hx => by cases hx) fun _ _ hw => by cases hw
  | @receive i id tx message hi hmessage =>
    -- the thread asks again, or is done
    cases message with
    | none => exact h.goto (fun x hx => by cases hx) fun _ _ hw => by cases hw
    | some packet =>
      unfold received
      dsimp only
      split_ifs
      · exact h.goto (fun x hx => by cases hx) fun _ _ hw => by cases hw
      · exact h.goto (fun x hx => by cases hx) fun _ _ hw => by cases hw
  | @deliver packet client hlock hdeliver =>
    obtain ⟨new, hanswers, -⟩ := deliver_spec hdeliver h.client.nodup_pending
    exact h.answer (DnsClient.Step.sound (a := .ipv4 packet) h.client hdeliver).1 hanswers
  | poison hlock hfault =>
    exact ⟨h.client, h.consecutive, h.upcoming, h.tickets, h.nodup, h.below, h.ids, h.held, h.apart,
      h.waiting⟩
  | discard packet hlock => exact h
  | @sweep clock client hlock hsweep =>
    obtain ⟨new, hanswers, -⟩ := sweep_spec hsweep h.client.nodup_pending
    exact h.answer (DnsClient.Step.sound (a := .timeouts clock) h.client hsweep).1 hanswers
  | pass clock hlock => exact h

end Numbered

theorem run_numbered {checks : Bool} {s : Senders threads} (run : Runs checks s) : s.Numbered :=
  run.invariant numbered_start fun _ _ _ h _ hstep => h.step hstep

/-! ## The lock -/

/-- A response that answers a query in progress or has a question does no harm. -/
theorem returns_deliver {packet : DnsPacket} {client : State} (h : packet.questions ≠ [] ∨
    ∃ query ∈ client.pendingQueries, query.seq = packet.header.id) :
    ∃ client', deliver packet client = .ok client' := by
  unfold deliver
  cases hmatch : matchedQuery packet.header.id 0 client.pendingQueries with
  | none =>
    rcases h with hquestions | ⟨query, hquery, hid⟩
    · exact ⟨client, if_neg hquestions⟩
    · exact absurd hid (matchedQuery_eq_none hmatch query hquery)
  | some found =>
    obtain ⟨idx, first⟩ := found
    obtain ⟨before, after, hsplit, hidx, -, -⟩ := matchedQuery_eq_some hmatch
    rw [Nat.zero_add] at hidx
    dsimp only
    rw [hidx, hsplit, remove_append_cons, ok_bind]
    exact ⟨_, rfl⟩

theorem Step.not_poisoned {checks : Bool} {s s' : Senders threads} {a : Act threads}
    (h : Step checks s a s') (hanswerable : s.Answerable a) (hlock : s.poisoned = false) :
    s'.poisoned = false := by
  cases h with
  | look hi hnext =>
    unfold compareExchange
    split_ifs <;> exact hlock
  | poison hfree hfault =>
    obtain ⟨client, hclient⟩ := returns_deliver (hanswerable _ rfl)
    rw [hclient] at hfault
    cases hfault
  | _ => exact hlock

theorem run_not_poisoned {checks : Bool} {s : Senders threads} (run : Runs checks s) :
    s.poisoned = false :=
  run.invariant (I := fun s => s.poisoned = false) rfl
    fun _ _ _ hlock hanswerable hstep => hstep.not_poisoned hanswerable hlock

/-! ## Who gets a response -/

/-- At most 65534 ids have been handed out since the oldest query in progress took its own. -/
def Recent (s : Senders threads) : Prop :=
  ∀ query ∈ s.client.pendingQueries, ∀ k, s.tickets[query.tx]? = some k → s.taken.length ≤ k + 65535

theorem Numbered.eq_of_sameId {s : Senders threads} (h : s.Numbered) (hrecent : s.Recent)
    {query query' : PendingQuery} (hquery : query ∈ s.client.pendingQueries)
    (hquery' : query' ∈ s.client.pendingQueries) (hid : query.seq = query'.seq) : query = query' := by
  have hmem := h.client.pending_sublist.subset hquery
  have hmem' := h.client.pending_sublist.subset hquery'
  obtain ⟨k, hk, htaken⟩ := h.ids query hmem
  obtain ⟨k', hk', htaken'⟩ := h.ids query' hmem'
  have hlt := (List.getElem?_eq_some_iff.mp htaken).1
  have hlt' := (List.getElem?_eq_some_iff.mp htaken').1
  have hle := hrecent query hquery k hk
  have hle' := hrecent query' hquery' k' hk'
  rw [hid] at htaken
  -- the ids are too close to one another for two tickets
  have hsame : k = k' := by
    rcases lt_trichotomy k k' with hkk | hkk | hkk
    · have hfar := le_of_sameId h.consecutive htaken htaken' hkk
      omega
    · exact hkk
    · have hfar := le_of_sameId h.consecutive htaken' htaken hkk
      omega
  have htx : query.tx = query'.tx := by
    refine (List.getElem?_inj (List.getElem?_eq_some_iff.mp hk).1 h.nodup).mp ?_
    rw [hk, hk', hsame]
  exact List.inj_on_of_nodup_map h.client.nodup_registered hmem hmem' htx

end Senders

open Senders in
/-- **A response reaches the thread that asked for it**, whatever the threads do, as long as every
response that is read answers a query in progress or has a question: a thread that waits has its
message, which has its id if it is a response, or it gets the next response that has its id, unless
65535 ids have been handed out since the oldest query in progress took its own. -/
theorem run_delivers {threads : ℕ} {checks : Bool} {s : Senders threads} (run : Runs checks s)
    (hrecent : s.Recent) {i : Fin threads} {id : UInt16} {tx : ℕ} (hi : s.threads i = .waiting id tx) :
    (∃ message, (tx, message) ∈ s.client.sent ∧
      ∀ packet, message = some packet → packet.header.id = id) ∨
    ∀ packet : DnsPacket, packet.header.id = id → ∃ s', Senders.Step checks s (.deliver packet) s' ∧
      s'.client.sent = s.client.sent ++ [(tx, some packet)] := by
  have h := run_numbered run
  obtain ⟨query, hquery, rfl, rfl⟩ := h.waiting i id tx hi
  by_cases hsent : query.tx ∈ channels s.client.sent
  · -- a channel is used once, so the message is the answer to this query
    left
    obtain ⟨m, hm, htx⟩ := List.mem_map.mp hsent
    obtain ⟨query', hquery', htx', hanswer⟩ := h.client.answers m hm
    have hsame := List.inj_on_of_nodup_map h.client.nodup_registered hquery' hquery (htx'.trans htx)
    rw [hsame] at hanswer
    refine ⟨m.2, ?_, hanswer⟩
    rw [← htx]
    exact hm
  · right
    intro packet hid
    have hpending : query ∈ s.client.pendingQueries := by
      rw [h.client.pending, List.mem_filter, decide_eq_true_eq]
      exact ⟨hquery, hsent⟩
    obtain ⟨client, hclient⟩ := returns_deliver (Or.inr ⟨query, hpending, hid.symm⟩)
    refine ⟨_, .deliver (run_not_poisoned run) hclient, ?_⟩
    unfold deliver at hclient
    cases hmatch : matchedQuery packet.header.id 0 s.client.pendingQueries with
    | none => exact absurd hid.symm (matchedQuery_eq_none hmatch query hpending)
    | some found =>
      obtain ⟨idx, first⟩ := found
      obtain ⟨before, after, hsplit, -, hseq, -⟩ := matchedQuery_eq_some hmatch
      have hfirst : first ∈ s.client.pendingQueries := by
        rw [hsplit]
        exact List.mem_append_right _ List.mem_cons_self
      -- the first query with the id is the only one
      obtain rfl := h.eq_of_sameId hrecent hfirst hpending (hseq.trans hid)
      rw [hmatch] at hclient
      obtain ⟨pendingQueries, -, hclient⟩ := bind_eq_ok.mp hclient
      rw [← Except.ok.inj hclient]

open Senders in
/-- Two threads register their queries in the other order. -/
theorem run_delivers_twoThreads : ∃ s : Senders 2, Runs true s ∧ s.threads 0 = .waiting 0 1 ∧
    s.threads 1 = .waiting 1 0 ∧ ∃ s', Senders.Step true s (.deliver {}) s' ∧
      s'.client.sent = [(1, some {})] := by
  obtain ⟨s, run, hrecent, hzero, hone, hsent⟩ : ∃ s : Senders 2, Runs true s ∧ s.Recent ∧
      s.threads 0 = .waiting 0 1 ∧ s.threads 1 = .waiting 1 0 ∧ s.client.sent = [] := by
    have hcount₀ : Runs true ((start : Senders 2).fetchAdd 0 .udp) :=
      .single (fun _ h => by cases h) (.count rfl)
    have hcount₁ := hcount₀.tail (fun _ h => by cases h) (.count (i := 1) rfl)
    have hlook₀ := hcount₁.tail (fun _ h => by cases h) (.look (i := 0) rfl rfl)
    have hlook₁ := hlook₀.tail (fun _ h => by cases h) (.look (i := 1) rfl rfl)
    have hpush₁ := hlook₁.tail (fun _ h => by cases h) (.push (i := 1) 5 rfl rfl)
    have hpush₀ := hpush₁.tail (fun _ h => by cases h) (.push (i := 0) 6 rfl rfl)
    refine ⟨_, hpush₀, fun query hquery k hk => ?_, rfl, rfl, rfl⟩
    exact (show 2 ≤ k + 65535 by omega)
  rcases run_delivers run hrecent hzero with ⟨message, hmessage, -⟩ | hdelivers
  · rw [hsent] at hmessage
    cases hmessage
  · obtain ⟨s', hstep, heq⟩ := hdelivers {} rfl
    rw [hsent] at heq
    exact ⟨s, run, hzero, hone, s', hstep, heq⟩

end DnsClient
