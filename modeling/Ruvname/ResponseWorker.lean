/-
# The worker that reads responses

A worker thread takes every datagram that is parsed to the list of queries in progress.  If no query
has the id of the response it is discarded, and reported with its first question: a response without
a question, such as any empty datagram that arrives at the socket, stops the thread while it holds
the lock.
-/
import Ruvname.DnsClient
import Ruvname.ParseFaults

open Exec

namespace DnsClient

/-- The first query with the id has left the list, or there is none and the list is the same. -/
def RemovesFirst (id : UInt16) (l l' : List PendingQuery) : Prop :=
  (∃ before query after, l = before ++ query :: after ∧ query.seq = id ∧
    (∀ q ∈ before, q.seq ≠ id) ∧ l' = before ++ after) ∨
  (∀ q ∈ l, q.seq ≠ id) ∧ l' = l

/-- **What a worker does with a response**: if it is not stopped, the first query with its id leaves
the list. -/
theorem deliver_removesFirst {packet : DnsPacket} {s s' : State} (h : deliver packet s = .ok s') :
    RemovesFirst packet.header.id s.pendingQueries s'.pendingQueries := by
  unfold deliver at h
  cases hmatch : matchedQuery packet.header.id 0 s.pendingQueries with
  | none =>
    rw [hmatch] at h
    dsimp only at h
    split at h
    · cases h
    · cases h
      exact .inr ⟨matchedQuery_eq_none hmatch, rfl⟩
  | some found =>
    obtain ⟨idx, query⟩ := found
    rw [hmatch] at h
    obtain ⟨before, after, hsplit, hidx, hseq, hbefore⟩ := matchedQuery_eq_some hmatch
    rw [Nat.zero_add] at hidx
    subst hidx
    dsimp only at h
    rw [hsplit, remove_append_cons, ok_bind, Except.ok.injEq] at h
    subst h
    exact .inl ⟨before, query, after, hsplit, hseq, hbefore, rfl⟩

/-- **A worker survives a response** exactly if a query waits for its id or it has a question. -/
theorem deliver_iff (packet : DnsPacket) (s : State) :
    (∃ s', deliver packet s = .ok s' ∧
      RemovesFirst packet.header.id s.pendingQueries s'.pendingQueries) ↔
      (∃ query ∈ s.pendingQueries, query.seq = packet.header.id) ∨ packet.questions ≠ [] := by
  have hreturns : (∃ s', deliver packet s = .ok s') ↔
      (∃ query ∈ s.pendingQueries, query.seq = packet.header.id) ∨ packet.questions ≠ [] := by
    unfold deliver
    cases hmatch : matchedQuery packet.header.id 0 s.pendingQueries with
    | none =>
      have hnone := matchedQuery_eq_none hmatch
      dsimp only
      split_ifs with hquestions
      · refine iff_of_false (fun h => ?_) (fun h => ?_)
        · obtain ⟨s', h⟩ := h
          cases h
        · rcases h with ⟨query, hquery, hseq⟩ | h
          · exact hnone query hquery hseq
          · exact h hquestions
      · exact iff_of_true ⟨s, rfl⟩ (.inr hquestions)
    | some found =>
      obtain ⟨idx, query⟩ := found
      obtain ⟨before, after, hsplit, hidx, hseq, -⟩ := matchedQuery_eq_some hmatch
      rw [Nat.zero_add] at hidx
      dsimp only
      rw [hidx, hsplit, remove_append_cons, ok_bind]
      exact iff_of_true ⟨_, rfl⟩
        (.inl ⟨query, List.mem_append_right _ List.mem_cons_self, hseq⟩)
  rw [← hreturns]
  constructor
  · rintro ⟨s', h, -⟩
    exact ⟨s', h⟩
  · rintro ⟨s', h⟩
    exact ⟨s', h, deliver_removesFirst h⟩

/-- An empty response, which no query waits for, is parsed, and stops the worker. -/
theorem deliver_emptyResponse :
    ∃ packet t, (DnsPacket.fromBuffer .ascii true).Yields
        (⟨datagram emptyResponse, 0⟩ : BytePacketBuffer) packet t ∧
      packet.header.id = 7 ∧ packet.questions = [] ∧ deliver packet {} = .error .outOfRange := by
  have hheader : HeaderAt (datagram emptyResponse).toList 0 (.ofWords 7 0x8000 0 0 0 0) := by
    refine ⟨7, 0x8000, 0, 0, 0, 0, ⟨0, 7, ?_, ?_, by decide⟩, ⟨0x80, 0, ?_, ?_, by decide⟩,
      ⟨0, 0, ?_, ?_, by decide⟩, ⟨0, 0, ?_, ?_, by decide⟩, ⟨0, 0, ?_, ?_, by decide⟩,
      ⟨0, 0, ?_, ?_, by decide⟩, rfl⟩
    all_goals decide +kernel
  have hpacket : PacketAt .ascii true 1 (datagram emptyResponse).toList 0
      ⟨.ofWords 7 0x8000 0 0 0 0, [], [], [], []⟩ 12 :=
    .mk hheader rfl rfl rfl rfl .nil .nil .nil .nil
  obtain ⟨t, ht, -⟩ := (ReadableBuffer.reads_fromBuffer .ascii true).complete
    (⟨datagram emptyResponse, 0⟩ : BytePacketBuffer) _ _ hpacket
  exact ⟨_, t, ht, rfl, rfl, rfl⟩

end DnsClient
