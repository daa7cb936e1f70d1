/-
# Refreshed records

A cache replaces an equal record when it is stored again.  Records are compared with their ttl, so
that a copy with another ttl, as a resolver further up sends it while the ttl counts down, does not
replace the older copy but stands beside it until one of the two expires.  A lookup answers with
one copy of each record, the newest one, exactly if all older copies with another ttl have expired.
-/
import Ruvname.DnsCache

namespace DnsRecord

/-- The record with another ttl. -/
def withTtl (ttl : UInt32) : DnsRecord → DnsRecord
  | unknown domain qtype dataLen _ => unknown domain qtype dataLen ttl
  | a domain addr _ => a domain addr ttl
  | ns domain host _ => ns domain host ttl
  | cname domain host _ => cname domain host ttl
  | soa domain mName rName serial refresh retry expire minimum _ =>
    soa domain mName rName serial refresh retry expire minimum ttl
  | ptr domain data _ => ptr domain data ttl
  | mx domain priority host _ => mx domain priority host ttl
  | txt domain data _ => txt domain data ttl
  | aaaa domain addr _ => aaaa domain addr ttl
  | srv domain priority weight port host _ => srv domain priority weight port host ttl
  | opt packetLen flags data => opt packetLen flags data
  | tlsa domain usage selector matching data _ => tlsa domain usage selector matching data ttl

/-- Two records are equal except for their ttl. -/
def SameRecord (r r' : DnsRecord) : Prop := r.withTtl 0 = r'.withTtl 0

instance {r r' : DnsRecord} : Decidable (SameRecord r r') := inferInstanceAs (Decidable (_ = _))

theorem SameRecord.symm {r r' : DnsRecord} (h : SameRecord r r') : SameRecord r' r := Eq.symm h

end DnsRecord

namespace Cache

open DnsRecord (SameRecord)

/-! ## Histories of storages -/

/-- The records that calls of `store` store, one after the other, with their times. -/
def storages (calls : List (ℤ × List DnsRecord)) : List (ℤ × DnsRecord) :=
  calls.flatMap fun call => call.2.map fun rec => (call.1, rec)

/-- The cache after calls of `store` only. -/
def afterStores (calls : List (ℤ × List DnsRecord)) : Cache :=
  after (calls.map fun call => (call.1, .store call.2))

/-- The last storage of a record is at this time; `later` is what is stored after it. -/
def LastAt (history : List (ℤ × DnsRecord)) (r : DnsRecord) (s : ℤ) (later : List (ℤ × DnsRecord)) :
    Prop :=
  ∃ before, history = before ++ (s, r) :: later ∧ ∀ e ∈ later, e.2 ≠ r

/-- **A newer copy has been stored**: another copy of the record, with another ttl, after the last
storage of this one. -/
def Superseded (history : List (ℤ × DnsRecord)) (r : DnsRecord) (s : ℤ) : Prop :=
  ∃ later, LastAt history r s later ∧ ∃ e ∈ later, SameRecord e.2 r

/-- The answers of a lookup are one copy of each record, the newest one. -/
structure Refreshed (calls : List (ℤ × List DnsRecord)) (now : ℤ) (q : String) (t : QueryType) :
    Prop where
  distinct : ∀ packet, (afterStores calls).lookup now q t = some packet →
    packet.answers.Pairwise fun r r' => ¬ SameRecord r r'
  newest : ∀ packet, (afterStores calls).lookup now q t = some packet →
    ∀ r ∈ packet.answers, ∀ s, ¬ Superseded (storages calls) r s

/-- **All older copies have expired.** -/
def OlderExpired (calls : List (ℤ × List DnsRecord)) (now : ℤ) (q : String) (t : QueryType) : Prop :=
  ∀ r s, r.Of q t → Superseded (storages calls) r s → s + seconds r.getTtl < now

section Histories

variable {calls : List (ℤ × List DnsRecord)} {history later : List (ℤ × DnsRecord)} {r r' : DnsRecord}
  {s s' now : ℤ} {q : String} {t : QueryType}

/-- The contents of the cache are what the storages make of them. -/
theorem stored_foldl_storages : (history.foldl (fun a e => Contents.storeRecord e.1 a e.2)
    Contents.new).stored r = some s ↔ ∃ later, LastAt history r s later := by
  induction history using List.reverseRecOn with
  | nil =>
    constructor
    · intro h
      cases h
    · rintro ⟨later, before, hsplit, -⟩
      simp at hsplit
  | append_singleton history last ih =>
    rw [List.foldl_append, List.foldl_cons, List.foldl_nil]
    show Function.update (Contents.stored _) last.2 (some last.1) r = some s ↔ _
    by_cases hlast : r = last.2
    · rw [hlast, Function.update_self, Option.some.injEq]
      constructor
      · rintro rfl
        exact ⟨[], history, rfl, fun e he => by cases he⟩
      · rintro ⟨later, before, hsplit, hnot⟩
        rcases Contents.append_singleton_eq_append_cons.mp hsplit with ⟨-, -, heq⟩ | ⟨rest, rfl, -⟩
        · rw [← heq]
        · exact absurd rfl (hnot last (by simp))
    · rw [Function.update_of_ne hlast, ih]
      constructor
      · rintro ⟨later, before, rfl, hnot⟩
        refine ⟨later ++ [last], before, by simp, fun e he => ?_⟩
        rcases List.mem_append.mp he with he | he
        · exact hnot e he
        · rw [List.mem_singleton.mp he]
          exact Ne.symm hlast
      · rintro ⟨later, before, hsplit, hnot⟩
        rcases Contents.append_singleton_eq_append_cons.mp hsplit with ⟨-, -, heq⟩ | ⟨rest, rfl, rfl⟩
        · exact absurd (by rw [← heq]) hlast
        · exact ⟨rest, before, rfl, fun e he => hnot e (List.mem_append_left _ he)⟩

/-- The last storage of a record among the calls is the last one of the history. -/
theorem lastStored_iff : LastStored (calls.map fun call => (call.1, .store call.2)) r s
    ↔ ∃ later, LastAt (storages calls) r s later := by
  rw [← Contents.stored_after, ← stored_foldl_storages]
  have hafter : Contents.after (calls.map fun call => (call.1, .store call.2))
      = (storages calls).foldl (fun a e => Contents.storeRecord e.1 a e.2) Contents.new := by
    unfold Contents.after storages
    rw [List.foldl_map, List.foldl_flatMap]
    congr 1
    funext a call
    rw [List.foldl_map]
    rfl
  rw [hafter]

/-- The records that a lookup answers with are the live ones. -/
theorem exists_answer_iff : (∃ packet, (afterStores calls).lookup now q t = some packet
      ∧ r ∈ packet.answers)
    ↔ r.Of q t ∧ ∃ s, (∃ later, LastAt (storages calls) r s later) ∧ now ≤ s + seconds r.getTtl := by
  have hanswers : Answers _ now q t ((afterStores calls).lookup now q t) := answers_lookup
  have hlive : Live (calls.map fun call => (call.1, .store call.2)) now q t r ↔ r.Of q t
      ∧ ∃ s, (∃ later, LastAt (storages calls) r s later) ∧ now ≤ s + seconds r.getTtl := by
    unfold Live
    simp only [lastStored_iff]
  rw [← hlive]
  constructor
  · rintro ⟨packet, hpacket, hr⟩
    by_cases hsome : ∃ r, Live (calls.map fun call => (call.1, .store call.2)) now q t r
    · obtain ⟨answers, authorities, heq, hexactly, -⟩ := hanswers.live hsome
      rw [hpacket, Option.some.injEq] at heq
      rw [heq] at hr
      exact (hexactly.2 r).mp hr
    · exfalso
      by_cases hstored : ∃ r, Stored (calls.map fun call => (call.1, .store call.2)) q t r
      · rw [hanswers.expired hstored hsome] at hpacket
        cases hpacket
      · by_cases hdenied : ∃ s ttl, LastDenied (calls.map fun call => (call.1, .store call.2)) q t s ttl
            ∧ now ≤ s + seconds ttl
        · obtain ⟨s, ttl, hlast, hfresh⟩ := hdenied
          rw [hanswers.denied hstored s ttl hlast hfresh, Option.some.injEq] at hpacket
          rw [← hpacket] at hr
          cases hr
        · rw [hanswers.unknown hstored hdenied] at hpacket
          cases hpacket
  · intro hr
    obtain ⟨answers, authorities, heq, hexactly, -⟩ := hanswers.live ⟨r, hr⟩
    exact ⟨_, heq, (hexactly.2 r).mpr hr⟩

/-- A lookup lists no record twice. -/
theorem nodup_answers {packet : DnsPacket} (h : (afterStores calls).lookup now q t = some packet) :
    packet.answers.Nodup := by
  cases hpacket : packet.answers with
  | nil => exact List.nodup_nil
  | cons r rest =>
    have hr : ∃ packet, (afterStores calls).lookup now q t = some packet ∧ r ∈ packet.answers :=
      ⟨packet, h, by rw [hpacket]; exact List.mem_cons_self⟩
    rw [exists_answer_iff] at hr
    simp only [← lastStored_iff] at hr
    have hanswers : Answers _ now q t ((afterStores calls).lookup now q t) := answers_lookup
    obtain ⟨answers, authorities, heq, hexactly, -⟩ := hanswers.live ⟨r, hr⟩
    rw [h, Option.some.injEq] at heq
    rw [← hpacket, heq]
    exact hexactly.1

/-- Of two records that were stored, the last storage of one comes after the last storage of the
other. -/
theorem superseded_or {s' : ℤ} {later' : List (ℤ × DnsRecord)} (hne : r ≠ r')
    (hsame : SameRecord r r') (h : LastAt history r s later) (h' : LastAt history r' s' later') :
    Superseded history r s ∨ Superseded history r' s' := by
  obtain ⟨before, hsplit, hnot⟩ := id h
  obtain ⟨before', hsplit', hnot'⟩ := id h'
  rw [hsplit] at hsplit'
  rcases List.append_eq_append_iff.mp hsplit' with ⟨mid, -, heq⟩ | ⟨mid, -, heq⟩
  · -- the storage of `r` comes first, or both are the same one
    cases mid with
    | nil =>
      rw [List.nil_append, List.cons.injEq, Prod.mk.injEq] at heq
      exact absurd heq.1.2 hne
    | cons e mid =>
      rw [List.cons_append, List.cons.injEq] at heq
      refine Or.inl ⟨later, h, (s', r'), ?_, hsame.symm⟩
      rw [heq.2]
      simp
  · cases mid with
    | nil =>
      rw [List.nil_append, List.cons.injEq, Prod.mk.injEq] at heq
      exact absurd heq.1.2.symm hne
    | cons e mid =>
      rw [List.cons_append, List.cons.injEq] at heq
      refine Or.inr ⟨later', h', (s, r), ?_, hsame⟩
      rw [heq.2]
      simp

/-- **A lookup answers with one copy of each record, the newest one, exactly if all older copies
have expired.** -/
theorem refreshed_iff (calls : List (ℤ × List DnsRecord)) (now : ℤ) (q : String) (t : QueryType) :
    Refreshed calls now q t ↔ OlderExpired calls now q t := by
  constructor
  · intro h r s hof hsup
    by_contra hlive
    obtain ⟨later, hlast, -⟩ := id hsup
    obtain ⟨packet, hpacket, hr⟩ := exists_answer_iff.mpr ⟨hof, s, ⟨later, hlast⟩, not_lt.mp hlive⟩
    exact h.newest packet hpacket r hr s hsup
  · intro h
    have hnewest : ∀ packet, (afterStores calls).lookup now q t = some packet →
        ∀ r ∈ packet.answers, ∀ s, ¬ Superseded (storages calls) r s := by
      intro packet hpacket r hr s hsup
      obtain ⟨hof, s', ⟨later', hlast'⟩, hlive⟩ := exists_answer_iff.mp ⟨packet, hpacket, hr⟩
      obtain ⟨later, hlast, -⟩ := id hsup
      -- a record has one last storage
      have hs : s = s' := by
        have hstored := stored_foldl_storages.mpr ⟨later, hlast⟩
        rw [stored_foldl_storages.mpr ⟨later', hlast'⟩, Option.some.injEq] at hstored
        exact hstored.symm
      subst hs
      exact absurd (h r s hof hsup) (not_lt.mpr hlive)
    refine ⟨fun packet hpacket => ?_, hnewest⟩
    refine (nodup_answers hpacket).imp_of_mem fun {r r'} hr hr' hne hsame => ?_
    obtain ⟨-, s, ⟨later, hlast⟩, -⟩ := exists_answer_iff.mp ⟨packet, hpacket, hr⟩
    obtain ⟨-, s', ⟨later', hlast'⟩, -⟩ := exists_answer_iff.mp ⟨packet, hpacket, hr'⟩
    rcases superseded_or hne hsame hlast hlast' with hsup | hsup
    · exact hnewest packet hpacket r hr s hsup
    · exact hnewest packet hpacket r' hr' s' hsup

/-- An address is stored for 300 seconds and, a second later, for 299 seconds: both copies are
answered. -/
theorem not_refreshed_foo : ¬ ∀ calls now q t, Refreshed calls now q t := by
  intro h
  have hdistinct := (h [(0, [.a "foo.ruv" ⟨#v[10, 0, 0, 1]⟩ 300]),
    (1000000000, [.a "foo.ruv" ⟨#v[10, 0, 0, 1]⟩ 299])] 1000000000 "foo.ruv" .a).distinct _ rfl
  revert hdistinct
  decide

end Histories

end Cache
