/-
# Requests that are sent again

The thread of `DnsUdpServer` that reads the socket, in `dns/server.rs`.  A client that gets no
response soon sends its request again; what comes again from the same address with the same id within
100 ms is not handed on to the workers.  The thread remembers 256 requests, the latest ones, so that a
request can be handed on again too early only after 256 others (`DnsUdpServer.after_resent`).  A
request is remembered even if no worker is left to take it.

A datagram that cannot be parsed is dropped; the parser itself has been modelled in `Codec`.
-/
import Ruvname.Lru
import Ruvname.Packet
import Ruvname.Peers

namespace DnsUdpServer

/-- What the socket brings: a datagram, parsed if it can be, the time in milliseconds, and whether
`sender.send` finds a worker. -/
structure Arrival where
  src : SocketAddr
  request : Option DnsPacket
  curTime : ℤ
  sends : Bool

abbrev Key := SocketAddr × UInt16

/-- `(src, request.header.id)`. -/
def Arrival.key? (a : Arrival) : Option Key := a.request.map fun request => (a.src, request.header.id)

/-- The thread that reads, with the caches of the crate `lru`: `working_ids`, and what it has handed on
to the workers. -/
structure Receiver (L : LruCache Key ℤ 256) where
  workingIds : L.Cache
  handedOn : List Arrival

variable (L : LruCache Key ℤ 256)

/-- At the start. -/
def Receiver.new : Receiver L := ⟨L.new, []⟩

variable {L}

/-- The request is remembered, and handed on if a worker is left. -/
def Receiver.handOn (ids : L.Cache) (handedOn : List Arrival) (key : Key) (a : Arrival) : Receiver L :=
  ⟨L.put ids key a.curTime, if a.sends then handedOn ++ [a] else handedOn⟩

/-- **A round of the loop** of the thread that reads. -/
def Receiver.receive (r : Receiver L) (a : Arrival) : Receiver L :=
  match a.key? with
  | none => r
  | some key =>
    match L.get r.workingIds key with
    | (some time, ids) =>
      if time + 100 > a.curTime then { r with workingIds := ids }
      else Receiver.handOn ids r.handedOn key a
    | (none, ids) => Receiver.handOn ids r.handedOn key a

variable (L) in
/-- The thread after some arrivals. -/
def after (arrivals : List Arrival) : Receiver L := arrivals.foldl Receiver.receive (.new L)

/-- The arrival is handed on. -/
def Receiver.HandsOn (r : Receiver L) (a : Arrival) : Prop := (r.receive a).handedOn = r.handedOn ++ [a]

/-- The keys of some arrivals. -/
def keysOf (arrivals : List Arrival) : Finset Key := (arrivals.filterMap Arrival.key?).toFinset

section

variable {r : Receiver L} {a : Arrival} {key : Key} {time : ℤ}

/-- The datagrams arrive one after another. -/
theorem after_append (before : List Arrival) (a : Arrival) :
    after L (before ++ [a]) = (after L before).receive a := List.foldl_concat _ _ _ _

/-- A request that is remembered is dropped. -/
theorem receive_of_recent (hkey : a.key? = some key) (hget : (L.get r.workingIds key).1 = some time)
    (hrecent : a.curTime < time + 100) :
    r.receive a = { r with workingIds := (L.get r.workingIds key).2 } := by
  unfold Receiver.receive
  rw [hkey]
  dsimp only
  rw [← Prod.mk.eta (p := L.get r.workingIds key), hget]
  exact if_pos hrecent

/-- Otherwise it is remembered. -/
theorem receive_of_not_recent (hkey : a.key? = some key)
    (h : ∀ time, (L.get r.workingIds key).1 = some time → time + 100 ≤ a.curTime) :
    r.receive a = Receiver.handOn (L.get r.workingIds key).2 r.handedOn key a := by
  unfold Receiver.receive
  rw [hkey]
  dsimp only
  rw [← Prod.mk.eta (p := L.get r.workingIds key)]
  cases hget : (L.get r.workingIds key).1 with
  | none => rfl
  | some time => exact if_neg (not_lt.mpr (h time hget))

/-- It is not handed on. -/
theorem not_handsOn_of_recent (hkey : a.key? = some key) (hget : (L.get r.workingIds key).1 = some time)
    (hrecent : a.curTime < time + 100) : ¬ r.HandsOn a := by
  unfold Receiver.HandsOn
  rw [receive_of_recent hkey hget hrecent]
  simp

/-- What has been handed on stays so. -/
theorem handedOn_isPrefix (r : Receiver L) (a : Arrival) : r.handedOn <+: (r.receive a).handedOn := by
  have hremembered : ∀ (ids : L.Cache) (key : Key),
      r.handedOn <+: (Receiver.handOn ids r.handedOn key a).handedOn := by
    intro ids key
    unfold Receiver.handOn
    dsimp only
    split
    · exact List.prefix_append _ _
    · exact List.prefix_refl _
  unfold Receiver.receive
  split
  · exact List.prefix_refl _
  · split
    · split
      · exact List.prefix_refl _
      · exact hremembered _ _
    · exact hremembered _ _

/-! ## What is remembered -/

/-- Every time that is remembered is that of a request that was handed on, or came when no worker was
left. -/
def Receiver.Logged (r : Receiver L) (arrivals : List Arrival) : Prop :=
  ∀ e ∈ L.entries r.workingIds, ∃ b, b.key? = some e.1 ∧ b.curTime = e.2 ∧
    (b ∈ r.handedOn ∨ b ∈ arrivals ∧ b.sends = false)

/-- A request that is remembered was handed on, or no worker was left. -/
theorem logged_handOn (ids : L.Cache) (handedOn : List Arrival) (key : Key) (a : Arrival) :
    a ∈ (Receiver.handOn ids handedOn key a).handedOn ∨ a.sends = false := by
  unfold Receiver.handOn
  dsimp only
  cases a.sends with
  | false => exact Or.inr rfl
  | true => exact Or.inl (List.mem_append_right _ (List.mem_singleton_self a))

/-- Each datagram keeps the log right. -/
theorem Receiver.Logged.receive {arrivals : List Arrival} (h : r.Logged arrivals) (a : Arrival) :
    (r.receive a).Logged (arrivals ++ [a]) := by
  -- what was remembered before
  have hold : ∀ e ∈ L.entries r.workingIds, ∃ b, b.key? = some e.1 ∧ b.curTime = e.2 ∧
      (b ∈ (r.receive a).handedOn ∨ b ∈ arrivals ++ [a] ∧ b.sends = false) := by
    intro e he
    obtain ⟨b, hbkey, hbtime, hb⟩ := h e he
    exact ⟨b, hbkey, hbtime, hb.imp ((handedOn_isPrefix r a).subset ·)
      fun hlost => ⟨List.mem_append_left _ hlost.1, hlost.2⟩⟩
  cases hkey : a.key? with
  | none =>
    have hsame : r.receive a = r := by
      unfold Receiver.receive
      rw [hkey]
    rw [hsame] at hold ⊢
    exact hold
  | some key =>
    by_cases hrecent : ∃ time, (L.get r.workingIds key).1 = some time ∧ a.curTime < time + 100
    · -- the lookup has moved the entry to the front
      obtain ⟨time, hget, hlt⟩ := hrecent
      rw [receive_of_recent hkey hget hlt] at hold ⊢
      exact fun e he => hold e (LruCache.entries_get_subset he)
    · rw [receive_of_not_recent hkey fun time hget =>
        not_lt.mp fun hlt => hrecent ⟨time, hget, hlt⟩] at hold ⊢
      intro e he
      unfold Receiver.handOn at he
      rw [L.entries_put] at he
      rcases List.mem_cons.mp he with rfl | he
      · exact ⟨a, hkey, rfl, (logged_handOn _ r.handedOn key a).imp id
          fun hlost => ⟨List.mem_append_right _ (List.mem_singleton_self a), hlost⟩⟩
      · exact hold e (LruCache.entries_get_subset
          ((LruCache.others_sublist _ _).subset (List.mem_of_mem_take he)))

/-- **The log is right after any datagrams.** -/
theorem logged_after (arrivals : List Arrival) : (after L arrivals).Logged arrivals := by
  induction arrivals using List.reverseRecOn with
  | nil =>
    intro e he
    rw [show (after L []).workingIds = L.new from rfl, L.entries_new] at he
    cases he
  | append_singleton arrivals a ih =>
    rw [after_append]
    exact ih.receive a

/-- **The key is watched**: it is remembered with a time from `since` on, or so many other keys have
been seen. -/
def Receiver.Watches (r : Receiver L) (key : Key) (since : ℤ) (seen : Finset Key) : Prop :=
  (∃ time, since ≤ time ∧ LruCache.Keeps L r.workingIds key time seen) ∨ 256 ≤ (seen.erase key).card

/-- What comes in between pushes the key back, or renews it. -/
theorem Receiver.Watches.receive {since : ℤ} {seen : Finset Key} (h : r.Watches key since seen)
    (htime : since ≤ a.curTime) :
    (r.receive a).Watches key since (seen ∪ keysOf [a]) := by
  rcases h with ⟨time, hsince, hkeeps⟩ | hmany
  · cases hkey : a.key? with
    | none =>
      left
      unfold Receiver.receive
      rw [hkey]
      exact ⟨time, hsince, hkeeps.mono Finset.subset_union_left⟩
    | some key' =>
      have hseen : insert key' seen ⊆ seen ∪ keysOf [a] := by
        intro x hx
        rcases Finset.mem_insert.mp hx with rfl | hx
        · refine Finset.mem_union_right _ (List.mem_toFinset.mpr ?_)
          exact List.mem_filterMap.mpr ⟨a, List.mem_singleton_self a, hkey⟩
        · exact Finset.mem_union_left _ hx
      by_cases hrecent : ∃ time', (L.get r.workingIds key').1 = some time' ∧ a.curTime < time' + 100
      · obtain ⟨time', hget, hlt⟩ := hrecent
        rw [receive_of_recent hkey hget hlt]
        left
        by_cases hne : key' = key
        · -- dropped again: the time that is remembered stays
          subst hne
          rw [hkeeps.found, Option.some.injEq] at hget
          subst hget
          exact ⟨time, hsince, (LruCache.keeps_get hkeeps.found).mono (Finset.empty_subset _)⟩
        · exact ⟨time, hsince, (hkeeps.get hne).mono hseen⟩
      · rw [receive_of_not_recent hkey fun time' hget =>
          not_lt.mp fun hlt => hrecent ⟨time', hget, hlt⟩]
        by_cases hne : key' = key
        · -- remembered again: the time is renewed
          subst hne
          exact Or.inl ⟨a.curTime, htime, (LruCache.keeps_put _ _ _ _).mono (Finset.empty_subset _)⟩
        · rcases (hkeeps.get hne).put hne a.curTime with hkeeps' | hmany
          · rw [Finset.insert_idem] at hkeeps'
            exact Or.inl ⟨time, hsince, hkeeps'.mono hseen⟩
          · rw [Finset.insert_idem] at hmany
            exact Or.inr (hmany.trans (Finset.card_le_card (Finset.erase_subset_erase _ hseen)))
  · exact Or.inr (hmany.trans (Finset.card_le_card
      (Finset.erase_subset_erase _ Finset.subset_union_left)))

theorem keysOf_append (l l' : List Arrival) : keysOf (l ++ l') = keysOf l ∪ keysOf l' := by
  unfold keysOf
  rw [List.filterMap_append, List.toFinset_append]

/-- From the moment on at which a request is handed on. -/
theorem watches_after {before between : List Arrival} (hkey : a.key? = some key)
    (hands : (after L before).HandsOn a) (htime : ∀ c ∈ between, a.curTime ≤ c.curTime) :
    (after L (before ++ a :: between)).Watches key a.curTime (keysOf between) := by
  induction between using List.reverseRecOn with
  | nil =>
    rw [after_append]
    by_cases hrecent : ∃ time, (L.get (after L before).workingIds key).1 = some time ∧
        a.curTime < time + 100
    · obtain ⟨time, hget, hlt⟩ := hrecent
      exact absurd hands (not_handsOn_of_recent hkey hget hlt)
    · rw [receive_of_not_recent hkey fun time hget =>
        not_lt.mp fun hlt => hrecent ⟨time, hget, hlt⟩]
      exact Or.inl ⟨a.curTime, le_rfl, LruCache.keeps_put _ _ _ _⟩
  | append_singleton between c ih =>
    have hbetween := ih fun d hd => htime d (List.mem_append_left _ hd)
    rw [← List.cons_append, ← List.append_assoc, after_append, keysOf_append]
    exact hbetween.receive (htime c (List.mem_append_right _ (List.mem_singleton_self c)))

end

/-- **A request is dropped only if no worker is left, or if one less than 100 ms before was handed on
or found no worker either; and it is handed on again in this time only after the requests of 256 other
clients or with other ids.** -/
theorem after_resent (L : LruCache Key ℤ 256) (before : List Arrival) (a : Arrival) {key : Key}
    (hkey : a.key? = some key) :
    (¬ (after L before).HandsOn a → a.sends = false ∨
      ∃ b, b.key? = some key ∧ a.curTime < b.curTime + 100 ∧
        (b ∈ (after L before).handedOn ∨ b ∈ before ∧ b.sends = false)) ∧
    ((after L before).HandsOn a → ∀ between b, b.key? = some key → b.curTime < a.curTime + 100 →
      (∀ c ∈ between, a.curTime ≤ c.curTime) → (after L (before ++ a :: between)).HandsOn b →
      256 ≤ ((keysOf between).erase key).card) := by
  constructor
  · intro hdropped
    by_contra hnone
    rw [not_or, Bool.not_eq_false] at hnone
    obtain ⟨hsends, hnone⟩ := hnone
    apply hdropped
    unfold Receiver.HandsOn
    rw [receive_of_not_recent hkey fun time hget => ?_]
    · exact if_pos hsends
    · obtain ⟨b, hbkey, hbtime, hb⟩ := logged_after before _ (LruCache.mem_of_get hget)
      dsimp only at hbkey hbtime
      by_contra hlt
      exact hnone ⟨b, hbkey, by omega, hb⟩
  · intro hands between b hbkey hsoon htime hbhands
    rcases watches_after hkey hands htime with ⟨time, hsince, hkeeps⟩ | hmany
    · exact absurd hbhands (not_handsOn_of_recent hbkey hkeeps.found (by omega))
    · exact hmany

/-- A request, and the same one 50 ms later. -/
theorem after_resent_soon : ∃ (L : LruCache Key ℤ 256) (a b : Arrival), a.key? = b.key? ∧
    (after L []).HandsOn a ∧ b.sends ∧ ¬ (after L [a]).HandsOn b ∧
    ∃ c ∈ (after L [a]).handedOn, c.key? = b.key? ∧ b.curTime < c.curTime + 100 := by
  obtain ⟨a, b, hkey, hkey', hands, hsends, hsends', hdropped⟩ : ∃ a b : Arrival, a.key? = b.key? ∧
      b.key? = some (b.src, 0) ∧ (after (LruCache.listed Key ℤ 256) []).HandsOn a ∧ a.sends ∧ b.sends ∧
      ¬ (after (LruCache.listed Key ℤ 256) [a]).HandsOn b := by
    refine ⟨⟨⟨.v4 ⟨#v[203, 0, 113, 5]⟩, 5353⟩, some {}, 0, true⟩,
      ⟨⟨.v4 ⟨#v[203, 0, 113, 5]⟩, 5353⟩, some {}, 50, true⟩, rfl, rfl, rfl, rfl, rfl, ?_⟩
    exact not_handsOn_of_recent rfl (show _ = some 0 from rfl) (by decide)
  refine ⟨LruCache.listed Key ℤ 256, a, b, hkey, hands, hsends', hdropped, ?_⟩
  rcases (after_resent (LruCache.listed Key ℤ 256) [a] b hkey').1 hdropped with hlost | ⟨c, hckey, hlt, hc⟩
  · rw [hsends'] at hlost
    cases hlost
  · rcases hc with hc | ⟨hc, hlost⟩
    · exact ⟨c, hc, hckey.trans hkey'.symm, hlt⟩
    · rw [List.mem_singleton.mp hc, hsends] at hlost
      cases hlost

end DnsUdpServer
