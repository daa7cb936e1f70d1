/-
# Where the answers of the DNS server come from

Over all runs of the workers of the DNS server, in any interleaving of their calls: a record in a
response is one of the local zones, or a filter or an upstream server has given it to the worker for
this very request, or the worker has found it in the cache, where a worker had stored it no longer
before than its ttl (`run_provenance`).

Who stores a record has been given it, by a filter or an upstream server, except that the forwarding
resolver also stores again what its second lookup finds: it starts the ttl of a record anew that
another worker has stored since its first lookup.
-/
import Ruvname.DnsWorkers

namespace DnsWorkers

variable {ε : Type}

/-! ## What a worker has been given and what it has found -/

/-- The packet that an act has brought from outside: from a filter or an upstream server. -/
def brought? : Doing ε → Option DnsPacket
  | ⟨_, .filter _ _ _, reply⟩ => reply
  | ⟨_, .sendQuery _ _ _, .ok packet⟩ => some packet
  | _ => none

/-- The packet that an act has found in the cache. -/
def found? : Doing ε → Option DnsPacket
  | ⟨_, .lookup _ _, reply⟩ => reply
  | ⟨_, .lookupAgain _ _, reply⟩ => reply
  | _ => none

/-- The record has come from outside. -/
def Given (past : List (Doing ε)) (r : DnsRecord) : Prop :=
  ∃ act ∈ past, ∃ packet, brought? act = some packet ∧ r ∈ packet.records

/-- The record has been found in the cache. -/
def Found (past : List (Doing ε)) (r : DnsRecord) : Prop :=
  ∃ act ∈ past, ∃ packet, found? act = some packet ∧ r ∈ packet.records

/-- The record has been found by a lookup that was made once more. -/
def FoundAgain (past : List (Doing ε)) (r : DnsRecord) : Prop :=
  ∃ time qname qtype packet, ⟨time, .lookupAgain qname qtype, some packet⟩ ∈ past
    ∧ r ∈ packet.records

/-- The record is one of the local zones, or of the SOA records they answer with. -/
def Zoned (S : Settings) (r : DnsRecord) : Prop :=
  ∃ qname qtype packet, Authority.query S.authority qname qtype = some packet ∧ r ∈ packet.records

/-- What a record in a packet may come from. -/
def Sourced (S : Settings) (past : List (Doing ε)) (r : DnsRecord) : Prop :=
  Zoned S r ∨ Given past r ∨ Found past r

/-- **Nothing else has an answer**: neither the local zones nor the cache, nor any filter. -/
structure Cleared (S : Settings) (past : List (Doing ε)) (qname : String) (qtype : QueryType) :
    Prop where
  zones : Authority.query S.authority qname qtype = none
  lookup : ∃ time, ⟨time, .lookup qname qtype, none⟩ ∈ past
  aliased : qtype = .a ∨ qtype = .aaaa → ∃ time, ⟨time, .lookup qname .cname, none⟩ ∈ past
  filters : ∀ n < S.filters, ∃ time, ⟨time, .filter n qname qtype, none⟩ ∈ past
  recursive : S.allowRecursive = true

/-- The calls that a worker may make after what it has done. -/
def may (S : Settings) (past : List (Doing ε)) : Command → Prop
  | .store records => ∀ r ∈ records, Given past r ∨ FoundAgain past r
  | .lookupAgain _ _ => ∃ upstreams, S.resolveStrategy = .forward upstreams
  | .filter _ qname qtype => ∃ time, ⟨time, .lookup qname qtype, none⟩ ∈ past
  | .sendQuery _ query _ => Cleared S past query.qname query.qtype
  | _ => True

section

variable {S : Settings} {past past' : List (Doing ε)} {r : DnsRecord} {qname : String}
  {qtype : QueryType} {act : Doing ε}

theorem Given.mono (h : Given past r) (hpast : past <+: past') : Given past' r := by
  obtain ⟨act, hact, h⟩ := h
  exact ⟨act, hpast.subset hact, h⟩

theorem Sourced.mono (h : Sourced S past r) (hpast : past <+: past') : Sourced S past' r := by
  rcases h with h | h | ⟨act, hact, h⟩
  · exact Or.inl h
  · exact Or.inr (Or.inl (h.mono hpast))
  · exact Or.inr (Or.inr ⟨act, hpast.subset hact, h⟩)

theorem Cleared.mono (h : Cleared S past qname qtype) (hpast : past <+: past') :
    Cleared S past' qname qtype where
  zones := h.zones
  lookup := h.lookup.imp fun _ hmem => hpast.subset hmem
  aliased htype := (h.aliased htype).imp fun _ hmem => hpast.subset hmem
  filters n hn := (h.filters n hn).imp fun _ hmem => hpast.subset hmem
  recursive := h.recursive

/-- The last act has brought a packet. -/
theorem given_append {packet : DnsPacket} (h : brought? act = some packet) (hr : r ∈ packet.records) :
    Given (past ++ [act]) r :=
  ⟨act, List.mem_append_right _ (List.mem_singleton_self act), packet, h, hr⟩

/-- The last act has found a packet. -/
theorem sourced_append {packet : DnsPacket} (h : found? act = some packet) (hr : r ∈ packet.records) :
    Sourced S (past ++ [act]) r :=
  Or.inr (Or.inr ⟨act, List.mem_append_right _ (List.mem_singleton_self act), packet, h, hr⟩)

theorem mem_append_singleton : act ∈ past ++ [act] :=
  List.mem_append_right _ (List.mem_singleton_self act)

theorem mem_records_of_mem_answers {packet : DnsPacket} (h : r ∈ packet.answers) :
    r ∈ packet.records := List.mem_append_left _ (List.mem_append_left _ h)

end

/-! ## What the resolvers do -/

/-- What a resolver may return: a packet whose records have a source. -/
def Returns (S : Settings) (past : List (Doing ε)) (o : Resolved ε) : Prop :=
  ∀ packet, o = .ok packet → ∀ r ∈ packet.records, Sourced S past r

/-- What asks upstream servers does so after everything else was asked. -/
def Good (S : Settings) (ask : String → QueryType → Task ε (Resolved ε)) : Prop :=
  ∀ qname qtype past, Cleared S past qname qtype → (ask qname qtype).Keeps (may S) (Returns S) past

section

variable {S : Settings} {past : List (Doing ε)} {qname : String} {qtype : QueryType}
  {perform : String → QueryType → Task ε (Resolved ε)}

theorem returns_error {e : ResolveError ε} : Returns S past (.error e) := fun _ h => by cases h

/-- An answer without records. -/
theorem returns_header {header : DnsHeader} : Returns S past (.ok { header := header }) := by
  intro packet h r hr
  cases h
  cases hr

theorem keeps_lookup : (lookup qname qtype : Task ε _).Keeps (may S)
    (fun past' r => ∃ time, past' = past ++ [⟨time, .lookup qname qtype, r⟩]) past :=
  Program.keeps_ask trivial

theorem keeps_random : (random : Task ε ℕ).Keeps (may S)
    (fun past' r => ∃ time, past' = past ++ [⟨time, .random, r⟩]) past :=
  Program.keeps_ask trivial

theorem keeps_store {records : List DnsRecord} (h : ∀ r ∈ records, Given past r ∨ FoundAgain past r) :
    (store records : Task ε _).Keeps (may S) (fun _ _ => True) past :=
  (Program.keeps_ask h).imp fun _ _ _ _ => trivial

/-- All records of a response that was given may be stored. -/
theorem keeps_storeResponse {response : DnsPacket} (h : ∀ r ∈ response.records, Given past r) :
    (storeResponse response : Task ε _).Keeps (may S) (fun _ _ => True) past := by
  have hgiven : ∀ {past' : List (Doing ε)}, past <+: past' →
      ∀ r ∈ response.records, Given past' r ∨ FoundAgain past' r :=
    fun hpast r hr => Or.inl ((h r hr).mono hpast)
  unfold storeResponse
  refine (keeps_store fun r hr => hgiven (List.prefix_refl past) r ?_).bind ?_
  · exact mem_records_of_mem_answers hr
  intro past₁ _ hpast₁ _
  refine (keeps_store fun r hr => hgiven hpast₁ r ?_).bind ?_
  · exact List.mem_append_left _ (List.mem_append_right _ hr)
  intro past₂ _ hpast₂ _
  refine keeps_store fun r hr => hgiven (hpast₁.trans hpast₂) r ?_
  exact List.mem_append_right _ hr

/-- The filters are asked one after the other, and what one of them gives is stored. -/
theorem keeps_lookupFilters (ns : List ℕ) (hlookup : ∃ time, ⟨time, .lookup qname qtype, none⟩ ∈ past) :
    (lookupFilters qname qtype ns : Task ε _).Keeps (may S) (fun past' o => match o with
      | some packet => ∀ r ∈ packet.records, Given past' r
      | none => ∀ n ∈ ns, ∃ time, ⟨time, .filter n qname qtype, none⟩ ∈ past') past := by
  induction ns generalizing past with
  | nil => exact fun n hn => by cases hn
  | cons n ns ih =>
    unfold lookupFilters
    refine (Program.keeps_ask hlookup).bind ?_
    rintro _ o hpast ⟨time, rfl⟩
    cases o with
    | some packet =>
      have hgiven : ∀ r ∈ packet.records,
          Given (past ++ [⟨time, .filter n qname qtype, some packet⟩]) r :=
        fun r hr => given_append rfl hr
      refine (keeps_store fun r hr => Or.inl (hgiven r (mem_records_of_mem_answers hr))).bind ?_
      intro past' _ hpast' _ r hr
      exact (hgiven r hr).mono hpast'
    | none =>
      refine (ih (hlookup.imp fun _ hmem => hpast.subset hmem)).imp fun past' o hpast' ho => ?_
      cases o with
      | some packet => exact ho
      | none =>
        intro m hm
        rcases List.mem_cons.mp hm with rfl | hm
        · exact ⟨time, hpast'.subset mem_append_singleton⟩
        · exact ho m hm

/-- What is looked up of an alias. -/
theorem keeps_lookupAlias : (lookupAlias qname qtype : Task ε _).Keeps (may S)
    (fun past' o => match o with
      | some packet => ∀ r ∈ packet.records, Sourced S past' r
      | none => qtype = .a ∨ qtype = .aaaa → ∃ time, ⟨time, .lookup qname .cname, none⟩ ∈ past')
    past := by
  unfold lookupAlias
  split_ifs with htype
  · refine keeps_lookup.imp ?_
    rintro _ o - ⟨time, rfl⟩
    cases o with
    | some packet => exact fun r hr => sourced_append rfl hr
    | none => exact fun _ => ⟨time, mem_append_singleton⟩
  · exact fun h => absurd h htype

/-- **A resolver performs only when nothing else has an answer.** -/
theorem keeps_resolve (hperform : Good S perform) {recursive : Bool} :
    (resolve S perform qname qtype recursive).Keeps (may S) (Returns S) past := by
  unfold resolve
  split
  · exact returns_header
  · cases hzones : Authority.query S.authority qname qtype with
    | some qr =>
      intro packet h r hr
      cases h
      exact Or.inl ⟨qname, qtype, _, hzones, hr⟩
    | none =>
      dsimp only
      split_ifs with hrefused
      · exact returns_header
      refine keeps_lookup.bind ?_
      rintro _ o - ⟨time, rfl⟩
      cases o with
      | some qr =>
        intro packet h r hr
        cases h
        exact sourced_append rfl hr
      | none =>
        refine keeps_lookupAlias.bind ?_
        intro past₁ o hpast₁ ho
        cases o with
        | some qr =>
          intro packet h r hr
          cases h
          exact ho r hr
        | none =>
          refine (keeps_lookupFilters _ ⟨time, hpast₁.subset mem_append_singleton⟩).bind ?_
          intro past₂ o' hpast₂ ho'
          cases o' with
          | some found =>
            intro packet h r hr
            cases h
            exact Or.inr (Or.inl (ho' r hr))
          | none =>
            refine hperform qname qtype past₂ ⟨hzones, ?_, ?_, ?_, ?_⟩
            · exact ⟨time, (hpast₁.trans hpast₂).subset mem_append_singleton⟩
            · exact fun htype => (ho htype).imp fun _ hmem => hpast₂.subset hmem
            · exact fun n hn => ho' n (List.mem_range.mpr hn)
            · simpa using fun h => hrefused (Or.inr h)

end

section

variable {S : Settings} {past : List (Doing ε)} {qname : String} {qtype : QueryType}
  {loop : RecursiveDnsResolver.QueryLoop ε} {ns : String} {response : DnsPacket}

namespace RecursiveDnsResolver

/-- Looking for a name server stores and returns nothing. -/
theorem keeps_knownNs {domain : String} :
    (knownNs domain : Task ε _).Keeps (may S) (fun _ _ => True) past := by
  unfold knownNs
  refine keeps_lookup.bind ?_
  intro past₁ o _ _
  cases o with
  | none => trivial
  | some qr =>
    refine keeps_random.bind ?_
    intro past₂ n _ _
    cases qr.getUnresolvedNs n domain with
    | none => trivial
    | some ns =>
      refine keeps_lookup.bind ?_
      intro past₃ o' _ _
      cases o' with
      | none => trivial
      | some qr' => exact keeps_random.bind fun _ _ _ _ => trivial

theorem keeps_closestNs (labels : List (List String)) :
    (closestNs labels : Task ε _).Keeps (may S) (fun _ _ => True) past := by
  induction labels generalizing past with
  | nil => trivial
  | cons labels rest ih =>
    unfold closestNs
    refine keeps_knownNs.bind ?_
    intro past' o _ _
    cases o with
    | some addr => trivial
    | none => exact ih

theorem good_performWith (hloop : ∀ ns, Good S (loop ns)) : Good S (performWith loop) := by
  intro qname qtype past hcleared
  unfold performWith
  refine (keeps_closestNs _).bind ?_
  intro past' o hpast _
  cases o with
  | none => exact returns_error
  | some ns => exact hloop ns qname qtype past' (hcleared.mono hpast)

/-- A response that was given may be returned later on. -/
theorem returns_given {past' : List (Doing ε)} (hgiven : ∀ r ∈ response.records, Given past r)
    (hpast : past <+: past') : Returns S past' (.ok response) := by
  intro packet h r hr
  cases h
  exact Or.inr (Or.inl ((hgiven r hr).mono hpast))

theorem keeps_followReferral (hloop : ∀ ns, Good S (loop ns)) (hcleared : Cleared S past qname qtype)
    (hgiven : ∀ r ∈ response.records, Given past r) :
    (followReferral S loop response qname qtype).Keeps (may S) (Returns S) past := by
  unfold followReferral
  refine keeps_random.bind ?_
  intro past₁ n₁ hpast₁ _
  cases response.getResolvedNs n₁ qname with
  | some newNs =>
    refine (keeps_storeResponse fun r hr => (hgiven r hr).mono hpast₁).bind ?_
    exact fun past₂ _ hpast₂ _ => hloop newNs qname qtype past₂ (hcleared.mono (hpast₁.trans hpast₂))
  | none =>
    refine keeps_random.bind ?_
    intro past₂ n₂ hpast₂ _
    have h₂ := hpast₁.trans hpast₂
    cases response.getUnresolvedNs n₂ qname with
    | none => exact returns_given hgiven h₂
    | some newNsName =>
      refine (keeps_resolve (good_performWith hloop)).bind ?_
      intro past₃ o hpast₃ _
      have h₃ := h₂.trans hpast₃
      cases o with
      | error e => exact returns_error
      | ok recursiveResponse =>
        refine keeps_random.bind ?_
        intro past₄ n₄ hpast₄ _
        cases recursiveResponse.getRandomA n₄ with
        | some newNs => exact hloop newNs qname qtype past₄ (hcleared.mono (h₃.trans hpast₄))
        | none => exact returns_given hgiven (h₃.trans hpast₄)

theorem keeps_iteration (hloop : ∀ ns, Good S (loop ns)) (hcleared : Cleared S past qname qtype) :
    (iteration S loop ns qname qtype).Keeps (may S) (Returns S) past := by
  unfold iteration
  refine (Program.keeps_ask hcleared).bind ?_
  rintro _ o - ⟨time, rfl⟩
  cases o with
  | error e => exact returns_error
  | ok response =>
    generalize hlast : (⟨time, .sendQuery .old (RecursiveDnsResolver.queryTo ns qname qtype) false,
      .ok response⟩ : Doing ε) = last
    have hgiven : ∀ r ∈ response.records, Given (past ++ [last]) r :=
      fun r hr => given_append (by rw [← hlast]; rfl) hr
    dsimp only
    split_ifs
    · refine (keeps_storeResponse hgiven).bind ?_
      exact fun _ _ hpast' _ => returns_given hgiven hpast'
    · cases response.getTtlFromSoa with
      | none => exact returns_given hgiven (List.prefix_refl _)
      | some ttl =>
        refine (Program.keeps_ask trivial).bind ?_
        exact fun _ _ hpast' _ => returns_given hgiven hpast'
    · exact keeps_followReferral hloop (hcleared.mono (List.prefix_append past _)) hgiven

theorem good_queryLoop (fuel : ℕ) (ns : String) : Good S (queryLoop (ε := ε) S fuel ns) := by
  induction fuel generalizing ns with
  | zero => exact fun _ _ _ _ => ⟨trivial, fun _ r => r.elim⟩
  | succ fuel ih => exact fun qname qtype past hcleared => keeps_iteration ih hcleared

theorem good_perform (fuel : ℕ) : Good S (perform (ε := ε) S fuel) :=
  good_performWith (good_queryLoop fuel)

end RecursiveDnsResolver

namespace ForwardingDnsResolver

variable {upstreams : List String}

/-- What the forwarding resolver has in the end was given to it, or found by its second lookup. -/
theorem keeps_result {upstream : String} (hforward : S.resolveStrategy = .forward upstreams)
    (hcleared : Cleared S past qname qtype) :
    (result S upstream qname qtype : Task ε _).Keeps (may S) (fun past' o => ∀ packet, o = .ok packet →
      ∀ r ∈ packet.records, Given past' r ∨ FoundAgain past' r) past := by
  unfold result
  refine (Program.keeps_ask ⟨upstreams, hforward⟩).bind ?_
  rintro _ o hpast ⟨time, rfl⟩
  have hsend : ∀ client, (do
      let answer ← sendQuery client ⟨upstream, qname, qtype⟩ true
      pure (answer.mapError .client) : Task ε (Resolved ε)).Keeps (may S) (fun past' o =>
        ∀ packet, o = .ok packet → ∀ r ∈ packet.records, Given past' r ∨ FoundAgain past' r)
      (past ++ [⟨time, .lookupAgain qname qtype, o⟩]) := by
    intro client
    refine (Program.keeps_ask (hcleared.mono hpast)).bind ?_
    rintro _ answer - ⟨time', rfl⟩ packet h r hr
    cases answer with
    | error e => cases h
    | ok packet' =>
      cases h
      exact Or.inl (given_append rfl hr)
  cases o with
  | some packet =>
    intro packet' h r hr
    cases h
    exact Or.inr ⟨time, qname, qtype, _, mem_append_singleton, hr⟩
  | none =>
    dsimp only
    split_ifs
    · exact hsend .doh
    · exact fun packet h => by cases h
    · exact hsend .old

/-- What was given or found has a source. -/
theorem sourced_of_given_or {r : DnsRecord} (h : Given past r ∨ FoundAgain past r) :
    Sourced S past r := by
  rcases h with h | ⟨time, qname, qtype, packet, hmem, hr⟩
  · exact Or.inr (Or.inl h)
  · exact Or.inr (Or.inr ⟨_, hmem, packet, rfl, hr⟩)

theorem good_perform (hforward : S.resolveStrategy = .forward upstreams) :
    Good S (perform (ε := ε) S upstreams) := by
  intro qname qtype past hcleared
  unfold perform
  refine keeps_random.bind ?_
  intro past₁ n hpast₁ _
  cases DnsPacket.pick n upstreams with
  | none => exact ⟨trivial, fun _ r => r.elim⟩
  | some upstream =>
    refine (keeps_result hforward (hcleared.mono hpast₁)).bind ?_
    intro past₂ o hpast₂ ho
    cases o with
    | error e => exact returns_error
    | ok packet =>
      have hrecords := ho packet rfl
      refine (keeps_store fun r hr => hrecords r (mem_records_of_mem_answers hr)).bind ?_
      intro past₃ _ hpast₃ _ packet' h r hr
      cases h
      exact (sourced_of_given_or (hrecords r hr)).mono hpast₃

end ForwardingDnsResolver

theorem keeps_createResolver {fuel : ℕ} {recursive : Bool} :
    (createResolver S fuel qname qtype recursive : Task ε _).Keeps (may S) (Returns S) past := by
  unfold createResolver
  cases hstrategy : S.resolveStrategy with
  | recursive => exact keeps_resolve (RecursiveDnsResolver.good_perform fuel)
  | forward upstreams => exact keeps_resolve (ForwardingDnsResolver.good_perform hstrategy)

end

/-! ## What the server answers -/

section

variable {S : Settings} {past : List (Doing ε)} {qtype : QueryType}
  {resolver : String → QueryType → Bool → Task ε (Resolved ε)}

/-- Every record of these packets has a source. -/
def AllSourced (S : Settings) (past : List (Doing ε)) (results : List DnsPacket) : Prop :=
  ∀ packet ∈ results, ∀ r ∈ packet.records, Sourced S past r

/-- Following the aliases keeps what the resolver keeps. -/
theorem keeps_resolveCnames (hresolver : ∀ qname qtype recursive past,
      (resolver qname qtype recursive).Keeps (may S) (Returns S) past)
    (levels : ℕ) (lookupList : List DnsRecord) {results : List DnsPacket}
    (hresults : AllSourced S past results) :
    (resolveCnames resolver qtype levels lookupList results).Keeps (may S) (AllSourced S) past := by
  induction levels generalizing past lookupList results with
  | zero => exact hresults
  | succ levels ih =>
    unfold resolveCnames
    refine Program.keeps_foldlM hresults fun past₁ results₁ rec hpast₁ _ hresults₁ => ?_
    cases rec.targetHost? with
    | none => exact hresults₁
    | some host =>
      refine (hresolver host qtype true past₁).bind ?_
      intro past₂ o hpast₂ ho
      have hkept : AllSourced S past₂ results₁ :=
        fun packet hpacket r hr => (hresults₁ packet hpacket r hr).mono hpast₂
      cases o with
      | error e => exact hkept
      | ok result2 =>
        refine ih _ fun packet hpacket => ?_
        rcases List.mem_append.mp hpacket with hpacket | hpacket
        · exact hkept packet hpacket
        · rw [List.mem_singleton.mp hpacket]
          exact ho result2 rfl

/-- What is collected without repetition was there. -/
theorem mem_of_mem_foldl_pushNew {l recs : List DnsRecord} {r : DnsRecord}
    (h : r ∈ l.foldl pushNew recs) : r ∈ recs ∨ r ∈ l := by
  induction l generalizing recs with
  | nil => exact Or.inl h
  | cons x l ih =>
    rcases ih h with h | h
    · unfold pushNew at h
      split_ifs at h
      · exact Or.inl h
      · rcases List.mem_append.mp h with h | h
        · exact Or.inl h
        · exact Or.inr (List.mem_singleton.mp h ▸ List.mem_cons_self)
    · exact Or.inr (List.mem_cons_of_mem x h)

/-- A record that was collected from a section of the results. -/
theorem exists_result {results : List DnsPacket} {sections : DnsPacket → List DnsRecord}
    (hsections : ∀ packet r, r ∈ sections packet → r ∈ packet.records) {r : DnsRecord}
    (h : r ∈ (results.flatMap sections).foldl pushNew []) : ∃ packet ∈ results, r ∈ packet.records := by
  rcases mem_of_mem_foldl_pushNew h with h | h
  · cases h
  · obtain ⟨packet, hpacket, hr⟩ := List.mem_flatMap.mp h
    exact ⟨packet, hpacket, hsections packet r hr⟩

/-- **A worker obeys**: whatever it is told, its response has records with a source only. -/
theorem keeps_serve (S : Settings) (request : Request) :
    (serve S request : Task ε _).Keeps (may S)
      (fun past packet => ∀ r ∈ packet.records, Sourced S past r) [] := by
  unfold serve executeQuery
  dsimp only
  split_ifs
  · exact fun r hr => by cases hr
  · split
    · exact fun r hr => by cases hr
    · refine keeps_createResolver.bind ?_
      intro past o _ ho
      cases o with
      | error e => exact fun r hr => by cases hr
      | ok result =>
        have hresult : AllSourced S past [result] := by
          intro packet hpacket
          rw [List.mem_singleton.mp hpacket]
          exact ho result rfl
        refine (keeps_resolveCnames (fun _ _ _ _ => keeps_createResolver) 11 _ hresult).bind ?_
        intro past' results _ hresults r hr
        -- the record is in one of the three sections
        have hfrom : ∃ packet ∈ results, r ∈ packet.records := by
          rcases List.mem_append.mp hr with hr | hr
          · rcases List.mem_append.mp hr with hr | hr
            · exact exists_result (fun _ _ h => mem_records_of_mem_answers h) hr
            · exact exists_result
                (fun _ _ h => List.mem_append_left _ (List.mem_append_right _ h)) hr
          · exact exists_result (fun _ _ h => List.mem_append_right _ h) hr
        obtain ⟨packet, hpacket, hr⟩ := hfrom
        exact hresults packet hpacket r hr

end

/-! ## The cache and the clock -/

/-- The calls of the cache among some acts. -/
def cacheCalls (acts : List (Doing ε)) : List (ℤ × CacheCall) :=
  acts.filterMap fun act => act.command.cacheCall?.map fun c => (act.time, c)

/-- What the workers share after some acts: the cache as its calls have left it, and a clock that has
not run backwards. -/
structure Kept (acts : List (Doing ε)) (s : Shared) : Prop where
  cache : s.cache = Cache.after (cacheCalls acts)
  ended : ∀ act ∈ acts, act.time ≤ s.clock
  ordered : acts.Pairwise fun a b => a.time ≤ b.time

section

variable {answers : FilterAnswers} {start : ℤ} {acts : List (Doing ε)} {s : Shared} {act : Doing ε}
  {r : DnsRecord}

theorem kept_of_path (h : Pool.Path (Acts answers) ⟨Cache.new, start⟩ acts s) : Kept acts s := by
  induction h with
  | nil => exact ⟨rfl, fun _ h => absurd h List.not_mem_nil, List.Pairwise.nil⟩
  | @snoc acts t u act _ hact ih =>
    obtain ⟨hcache, hended, hordered⟩ := ih
    refine ⟨?_, fun b hb => ?_, ?_⟩
    · have hcalls : cacheCalls (acts ++ [act]) = cacheCalls acts ++ cacheCalls [act] :=
        List.filterMap_append
      rw [hact.cache, hcalls, Cache.after, List.foldl_append, hcache]
      unfold cacheCalls
      cases hcall : act.command.cacheCall? with
      | none =>
        rw [List.filterMap_cons_none (by rw [hcall]; rfl)]
        rfl
      | some c =>
        rw [List.filterMap_cons_some (b := (act.time, c)) (by rw [hcall]; rfl)]
        rfl
    · rw [hact.clock]
      rcases List.mem_append.mp hb with hb | hb
      · exact (hended b hb).trans hact.later
      · rw [List.mem_singleton.mp hb]
    · refine List.pairwise_append.mpr ⟨hordered, List.pairwise_singleton _ _, ?_⟩
      intro a ha b hb
      rw [List.mem_singleton.mp hb]
      exact (hended a ha).trans hact.later

theorem mem_cacheCalls {call : ℤ × CacheCall} :
    call ∈ cacheCalls acts ↔ ∃ act ∈ acts, act.time = call.1 ∧ act.command.cacheCall? = some call.2 := by
  unfold cacheCalls
  rw [List.mem_filterMap]
  refine exists_congr fun act => and_congr_right fun _ => ?_
  cases act.command.cacheCall? with
  | none => simp
  | some c => simp [Prod.ext_iff]

/-- A storage among the calls is one among the acts. -/
theorem mem_cacheCalls_store {time : ℤ} {records : List DnsRecord} :
    (time, .store records) ∈ cacheCalls acts ↔ ⟨time, .store records, ()⟩ ∈ acts := by
  rw [mem_cacheCalls]
  constructor
  · rintro ⟨⟨time', command, reply⟩, hact, htime, hcall⟩
    cases command with
    | store records' =>
      cases htime
      cases hcall
      exact hact
    | _ => cases hcall
  · exact fun hact => ⟨_, hact, rfl, rfl⟩

/-- A denial among the calls is one among the acts. -/
theorem mem_cacheCalls_storeNxdomain {time : ℤ} {q : String} {t : QueryType} {ttl : UInt32} :
    (time, .storeNxdomain q t ttl) ∈ cacheCalls acts ↔ ⟨time, .storeNxdomain q t ttl, ()⟩ ∈ acts := by
  rw [mem_cacheCalls]
  constructor
  · rintro ⟨⟨time', command, reply⟩, hact, htime, hcall⟩
    cases command with
    | storeNxdomain q' t' ttl' =>
      cases htime
      cases hcall
      exact hact
    | _ => cases hcall
  · exact fun hact => ⟨_, hact, rfl, rfl⟩

/-- The reply of an act is that of the cache as the acts before it have left it. -/
theorem exists_before (h : Pool.Path (Acts answers) ⟨Cache.new, start⟩ acts s) (hact : act ∈ acts) :
    ∃ before later, acts = before ++ act :: later
      ∧ Replies answers (Cache.after (cacheCalls before)) act := by
  obtain ⟨before, later, rfl⟩ := List.append_of_mem hact
  obtain ⟨u, v, hu, hv⟩ := h.split
  refine ⟨before, later, rfl, ?_⟩
  rw [← (kept_of_path hu).cache]
  exact hv.replies

/-- What a lookup finds is alive. -/
theorem live_of_lookup {calls : List (ℤ × CacheCall)} {now : ℤ} {q : String} {t : QueryType}
    {packet : DnsPacket} (h : (Cache.after calls).lookup now q t = some packet)
    (hr : r ∈ packet.records) : ∃ t', Cache.Live calls now q t' r := by
  unfold Cache.lookup at h
  cases hstate : (Cache.after calls).getCacheState now q t with
  | positiveCache =>
    rw [hstate] at h
    cases h
    rcases List.mem_append.mp hr with hr | hr
    · rcases List.mem_append.mp hr with hr | hr
      · exact ⟨t, (Cache.exactly_fillQueryresult.2 r).mp hr⟩
      · exact ⟨.ns, (Cache.exactly_fillQueryresult.2 r).mp hr⟩
    · cases hr
  | negativeCache =>
    rw [hstate] at h
    cases h
    cases hr
  | notCached =>
    rw [hstate] at h
    cases h

/-- The cache that an act has looked into. -/
theorem lookup_of_found {cache : Cache} {packet : DnsPacket} (h : found? act = some packet)
    (hreplies : Replies answers cache act) : ∃ q t, cache.lookup act.time q t = some packet := by
  obtain ⟨time, command, reply⟩ := act
  cases command with
  | lookup q t => exact ⟨q, t, hreplies.symm.trans h⟩
  | lookupAgain q t => exact ⟨q, t, hreplies.symm.trans h⟩
  | _ => cases h

/-- **What is found in the cache was stored there**, no longer ago than its ttl. -/
theorem exists_stored (h : Pool.Path (Acts answers) ⟨Cache.new, start⟩ acts s) (hact : act ∈ acts)
    {packet : DnsPacket} (hfound : found? act = some packet) (hr : r ∈ packet.records) :
    ∃ time records, ⟨time, .store records, ()⟩ ∈ acts ∧ r ∈ records
      ∧ time ≤ act.time ∧ act.time ≤ time + seconds r.getTtl := by
  obtain ⟨before, later, rfl, hreplies⟩ := exists_before h hact
  obtain ⟨q, t, hlookup⟩ := lookup_of_found hfound hreplies
  obtain ⟨t', -, time, ⟨calls, calls', records, hsplit, hmem, -⟩, hlive⟩ := live_of_lookup hlookup hr
  have hstore : ⟨time, .store records, ()⟩ ∈ before := by
    rw [← mem_cacheCalls_store, hsplit]
    exact List.mem_append_right _ List.mem_cons_self
  refine ⟨time, records, List.mem_append_left _ hstore, hmem, ?_, hlive⟩
  exact (List.pairwise_append.mp (kept_of_path h).ordered).2.2 _ hstore _ List.mem_cons_self

end

/-! ## Two requests -/

namespace Sample

theorem pairwise_nil : (([] : List Zone).map Zone.domain).Pairwise (· < ·) := List.Pairwise.nil

/-- A server that forwards everything. -/
def settings : Settings where
  authority := ⟨[], pairwise_nil⟩
  filters := 0
  dohClient := false
  resolveStrategy := .forward ["9.9.9.9:53"]
  allowRecursive := true

def query : Request where
  packet := { header := { id := 7, recursionDesired := true }, questions := [⟨"a.b", .a⟩] }
  fuel := 0

def record : DnsRecord := .a "a.b" ⟨#v[198, 51, 100, 7]⟩ 60

/-- The first request is passed on. -/
def asked : List (Doing Unit) :=
  [⟨1, .lookup "a.b" .a, none⟩, ⟨1, .lookup "a.b" .cname, none⟩, ⟨1, .random, 0⟩,
    ⟨1, .lookupAgain "a.b" .a, none⟩,
    ⟨1, .sendQuery .old ⟨"9.9.9.9:53", "a.b", .a⟩ true, .ok { answers := [record] }⟩,
    ⟨2, .store [record], ()⟩]

/-- The second one is answered from the cache. -/
def cached : List (Doing Unit) := [⟨3, .lookup "a.b" .a, some { answers := [record] }⟩]

def response : DnsPacket where
  header := { id := 7, recursionDesired := true, response := true, recursionAvailable := true }
  questions := [⟨"a.b", .a⟩]
  answers := [record]

theorem yields_asked : (serve settings query).Yields asked response :=
  .call 1 (.call 1 (.call 1 (.call 1 (.call 1 (.call 2 (.done _))))))

theorem yields_cached : (serve settings query).Yields cached response := .call 3 (.done _)

/-- The two requests, one after the other. -/
theorem exists_run : ∃ p : Server Unit 1, Runs settings (fun _ _ _ _ _ => False) 0 p ∧
    Pool.acted p.record = asked ++ cached ∧ ⟨0, query, cached, .finished response⟩ ∈ p.record := by
  have hasked : Pool.Path (Acts fun _ _ _ _ _ => False) ⟨Cache.new, 0⟩ asked
      ⟨Cache.new.store 2 [record], 2⟩ := by
    refine Pool.path_cons.mpr ⟨⟨_, _⟩, ⟨by decide, rfl, rfl, rfl⟩, ?_⟩
    refine Pool.path_cons.mpr ⟨⟨_, _⟩, ⟨by decide, rfl, rfl, rfl⟩, ?_⟩
    refine Pool.path_cons.mpr ⟨⟨_, _⟩, ⟨by decide, rfl, trivial, rfl⟩, ?_⟩
    refine Pool.path_cons.mpr ⟨⟨_, _⟩, ⟨by decide, rfl, rfl, rfl⟩, ?_⟩
    refine Pool.path_cons.mpr ⟨⟨_, _⟩, ⟨by decide, rfl, trivial, rfl⟩, ?_⟩
    exact Pool.path_cons.mpr ⟨⟨_, _⟩, ⟨by decide, rfl, trivial, rfl⟩, .nil⟩
  have hlookup : some { answers := [record] } = (Cache.new.store 2 [record]).lookup 3 "a.b" .a := by
    decide +kernel
  have hcached : Pool.Path (Acts fun _ _ _ _ _ => False) ⟨Cache.new.store 2 [record], 2⟩ cached
      ⟨Cache.new.store 2 [record], 3⟩ :=
    Pool.path_cons.mpr ⟨⟨_, _⟩, ⟨by decide, rfl, hlookup, rfl⟩, .nil⟩
  have hidle : Runs settings (fun _ _ _ _ _ => False) 0
      (Pool.idle ⟨Cache.new, 0⟩ : Server Unit 1) := .refl _
  obtain ⟨record, hrun, hacted, -⟩ := Pool.run_alone (i := 0) hidle rfl yields_asked hasked
  obtain ⟨record', hrun', hacted', -, hmem⟩ := Pool.run_alone (i := 0) hrun rfl yields_cached hcached
  refine ⟨_, hrun', ?_, hmem⟩
  rw [hacted', hacted]
  rfl

end Sample

/-! ## Provenance -/

section

variable {threads : ℕ} {p : Server ε threads} {r : DnsRecord}

/-- A worker has stored the record at this time, for some request, for which it had been given the
record, or had found it once more on the way to an upstream server. -/
def StoredAt (S : Settings) (p : Server ε threads) (r : DnsRecord) (time : ℤ) : Prop :=
  ∃ e ∈ p.record, ∃ records, e.deed = .called ⟨time, .store records, ()⟩ ∧ r ∈ records ∧
    (Given e.past r
      ∨ (∃ upstreams, S.resolveStrategy = .forward upstreams) ∧ FoundAgain e.past r)

/-- The record has been found in the cache for a request, where it had been stored, no longer before
than its ttl. -/
def FromCache (S : Settings) (p : Server ε threads) (past : List (Doing ε)) (r : DnsRecord) : Prop :=
  ∃ act ∈ past, (∃ packet, found? act = some packet ∧ r ∈ packet.records) ∧
    ∃ time, StoredAt S p r time ∧ time ≤ act.time ∧ act.time ≤ time + seconds r.getTtl

variable {S : Settings} {answers : FilterAnswers} {start : ℤ}

/-- What is stored was given or found. -/
theorem storedAt_of_mem (run : Runs S answers start p) {time : ℤ} {records : List DnsRecord}
    (hact : ⟨time, .store records, ()⟩ ∈ Pool.acted p.record) (hr : r ∈ records) :
    StoredAt S p r time := by
  obtain ⟨e, he, hdeed⟩ := Pool.mem_acted.mp hact
  have hlawful := (Pool.run_keeps (keeps_serve S) run).2
  have hmay := hlawful e he
  unfold Pool.Lawful at hmay
  rw [hdeed] at hmay
  refine ⟨e, he, records, hdeed, hr, (hmay r hr).imp id fun hagain => ⟨?_, hagain⟩⟩
  -- a second lookup is on record, and only the forwarding resolver makes one
  obtain ⟨time', q, t, packet, hmem, -⟩ := hagain
  obtain ⟨e', he', hdeed'⟩ := Pool.mem_acted.mp (((Pool.run_past run).2 e he).subset hmem)
  have hmay' := hlawful e' he'
  unfold Pool.Lawful at hmay'
  rw [hdeed'] at hmay'
  exact hmay'

/-- **Every record of every response has a source**: the local zones, a filter or an upstream server
that gave it for this request, or the cache, where a worker that had been given it stored it no
longer ago than its ttl. -/
theorem run_provenance (S : Settings) (answers : FilterAnswers) (start : ℤ)
    (run : Runs S answers start p) : ∀ e ∈ p.record, ∀ packet, e.deed = .finished packet →
      ∀ r ∈ packet.records, Zoned S r ∨ Given e.past r ∨ FromCache S p e.past r := by
  intro e he packet hdeed r hr
  have hlawful := (Pool.run_keeps (keeps_serve S) run).2 e he
  unfold Pool.Lawful at hlawful
  rw [hdeed] at hlawful
  rcases hlawful r hr with hzone | hgiven | ⟨act, hact, packet', hfound, hr'⟩
  · exact Or.inl hzone
  · exact Or.inr (Or.inl hgiven)
  · refine Or.inr (Or.inr ⟨act, hact, ⟨packet', hfound, hr'⟩, ?_⟩)
    have hacted := ((Pool.run_past run).2 e he).subset hact
    obtain ⟨time, records, hstore, hmem, hbefore, hlive⟩ :=
      exists_stored (Pool.run_path run) hacted hfound hr'
    exact ⟨time, storedAt_of_mem run hstore hmem, hbefore, hlive⟩

/-- The record of the second request is from the cache. -/
theorem run_provenance_cached : ∃ p : Server Unit 1,
    Runs Sample.settings (fun _ _ _ _ _ => False) 0 p ∧
      ⟨0, Sample.query, Sample.cached, .finished Sample.response⟩ ∈ p.record ∧
      ∀ e ∈ p.record, ∀ packet, e.deed = .finished packet → ∀ r ∈ packet.records,
        Zoned Sample.settings r ∨ Given e.past r ∨ FromCache Sample.settings p e.past r := by
  obtain ⟨p, hrun, -, hmem⟩ := Sample.exists_run
  exact ⟨p, hrun, hmem, run_provenance Sample.settings _ 0 hrun⟩

end

/-! ## The cache first -/

/-- The request is one that the cache is asked about first. -/
structure Asks (S : Settings) (request : Request) (qname : String) (qtype : QueryType) : Prop where
  question : ∃ rest, request.packet.questions = ⟨qname, qtype⟩ :: rest
  recursionDesired : request.packet.header.recursionDesired = true
  allowRecursive : S.allowRecursive = true
  zones : Authority.query S.authority qname qtype = none
  known : ∀ num, qtype ≠ .unknown num

/-- The first thing that was done is a lookup, and what it found is in the response. -/
def LooksUp (qname : String) (qtype : QueryType) (past : List (Doing ε)) (packet : DnsPacket) : Prop :=
  ∃ time reply later, past = ⟨time, .lookup qname qtype, reply⟩ :: later ∧
    ∀ qr, reply = some qr → packet.header.rescode = qr.header.rescode ∧
      ∀ r ∈ qr.answers, r ∈ packet.answers

section

variable {S : Settings} {past : List (Doing ε)} {qname : String} {qtype : QueryType}

theorem mem_foldl_pushNew {l recs : List DnsRecord} {r : DnsRecord} (h : r ∈ recs ∨ r ∈ l) :
    r ∈ l.foldl pushNew recs := by
  induction l generalizing recs with
  | nil => exact h.resolve_right List.not_mem_nil
  | cons x l ih =>
    refine ih ?_
    unfold pushNew
    rcases h with h | h
    · split_ifs
      · exact Or.inl h
      · exact Or.inl (List.mem_append_left _ h)
    · rcases List.mem_cons.mp h with rfl | h
      · split_ifs with hmem
        · exact Or.inl hmem
        · exact Or.inl (List.mem_append_right _ (List.mem_singleton_self r))
      · exact Or.inr h

/-- Following the aliases keeps the results there are. -/
theorem keeps_resolveCnames_mem {resolver : String → QueryType → Bool → Task ε (Resolved ε)}
    (levels : ℕ) (lookupList : List DnsRecord) {results : List DnsPacket} {qr : DnsPacket}
    (h : qr ∈ results) : (resolveCnames resolver qtype levels lookupList results).Keeps
      (fun _ _ => True) (fun _ results => qr ∈ results) past := by
  induction levels generalizing past lookupList results with
  | zero => exact h
  | succ levels ih =>
    unfold resolveCnames
    refine Program.keeps_foldlM h fun past₁ results₁ rec _ _ hmem => ?_
    cases rec.targetHost? with
    | none => exact hmem
    | some host =>
      refine Program.keeps_trivial.bind ?_
      intro past₂ o _ _
      cases o with
      | error e => exact hmem
      | ok result2 => exact ih _ (List.mem_append_left _ hmem)

/-- A resolver that looks into the cache first. -/
theorem resolve_eq (perform : String → QueryType → Task ε (Resolved ε))
    (hallow : S.allowRecursive = true) (hzones : Authority.query S.authority qname qtype = none)
    (hknown : ∀ num, qtype ≠ .unknown num) :
    ∃ next : Option DnsPacket → Task ε (Resolved ε), (∀ qr, next (some qr) = pure (.ok qr)) ∧
      resolve S perform qname qtype true = lookup qname qtype >>= next := by
  unfold resolve
  split
  · exact absurd rfl (hknown _)
  · rw [hzones]
    dsimp only
    rw [if_neg (by simp [hallow])]
    exact ⟨_, fun _ => rfl, rfl⟩

/-- A request that is one for the cache first looks there. -/
theorem keeps_serve_looksUp (S : Settings) (qname : String) (qtype : QueryType) (request : Request) :
    (serve S request : Task ε _).Keeps (fun _ _ => True)
      (fun past packet => Asks S request qname qtype → LooksUp qname qtype past packet) [] := by
  by_cases h : Asks S request qname qtype
  swap
  · exact Program.keeps_trivial.imp fun _ _ _ _ hasks => absurd hasks h
  suffices hlooks : (serve S request : Task ε _).Keeps (fun _ _ => True) (LooksUp qname qtype) [] from
    hlooks.imp fun _ _ _ hlooks _ => hlooks
  obtain ⟨⟨rest, hquestions⟩, hdesired, hallow, hzones, hknown⟩ := h
  have hresolver : ∃ next : Option DnsPacket → Task ε (Resolved ε),
      (∀ qr, next (some qr) = pure (.ok qr)) ∧
        createResolver S request.fuel qname qtype true = lookup qname qtype >>= next := by
    unfold createResolver
    cases S.resolveStrategy with
    | recursive => exact resolve_eq _ hallow hzones hknown
    | forward upstreams => exact resolve_eq _ hallow hzones hknown
  obtain ⟨next, hfound, heq⟩ := hresolver
  unfold serve executeQuery
  dsimp only
  rw [if_neg (by simp [hallow]), hquestions]
  dsimp only
  rw [hdesired, heq]
  -- the first call is the lookup
  refine ⟨trivial, fun time reply => ?_⟩
  cases reply with
  | none =>
    refine Program.keeps_trivial.imp ?_
    rintro past packet ⟨later, rfl⟩ -
    exact ⟨time, none, later, rfl, fun qr hqr => by cases hqr⟩
  | some qr =>
    dsimp only
    rw [show (Program.done (some qr)).bind next = pure (.ok qr) from hfound qr]
    refine (keeps_resolveCnames_mem 11 _ (List.mem_singleton_self qr)).bind ?_
    rintro past results ⟨later, rfl⟩ hmem
    refine ⟨time, some qr, later, rfl, fun qr' hqr' => ?_⟩
    cases hqr'
    refine ⟨rfl, fun r hr => mem_foldl_pushNew (Or.inr ?_)⟩
    exact List.mem_flatMap.mpr ⟨qr, hmem, hr⟩

/-- A record that was stored and not denied since was stored for the last time. -/
theorem exists_lastStored {calls : List (ℤ × CacheCall)} {r : DnsRecord} {time : ℤ}
    {records : List DnsRecord} (hmem : (time, .store records) ∈ calls) (hr : r ∈ records)
    (hof : r.Of qname qtype) (hordered : calls.Pairwise fun a b => a.1 ≤ b.1)
    (hdenied : ∀ s ttl, (s, .storeNxdomain qname qtype ttl) ∈ calls → s < time) :
    ∃ s, time ≤ s ∧ Cache.LastStored calls r s := by
  induction calls using List.reverseRecOn with
  | nil => cases hmem
  | append_singleton calls call ih =>
    obtain ⟨hcalls, -, hlast⟩ := List.pairwise_append.mp hordered
    by_cases hstores : ∃ records', call.2 = .store records' ∧ r ∈ records'
    · -- stored by the last call
      obtain ⟨records', hcall, hr'⟩ := hstores
      refine ⟨call.1, ?_, Cache.Contents.lastStored_append.mpr (Or.inl ⟨records', Prod.ext rfl hcall, hr'⟩)⟩
      rcases List.mem_append.mp hmem with hmem | hmem
      · exact hlast _ hmem call (List.mem_singleton_self call)
      · rw [← List.mem_singleton.mp hmem]
    · have hbefore : (time, .store records) ∈ calls := by
        rcases List.mem_append.mp hmem with hmem | hmem
        · exact hmem
        · exact absurd ⟨records, by rw [← List.mem_singleton.mp hmem], hr⟩ hstores
      obtain ⟨s, hs, hstored⟩ := ih hbefore hcalls
        fun s ttl h => hdenied s ttl (List.mem_append_left _ h)
      refine ⟨s, hs, Cache.Contents.lastStored_append.mpr (Or.inr ⟨hstored, fun records' hcall hr' => ?_, ?_⟩)⟩
      · exact hstores ⟨records', hcall, hr'⟩
      · rintro q t ttl hcall ⟨hdomain, htype⟩
        obtain ⟨hdomain', htype'⟩ := hof
        have hq : q = qname := Option.some.inj (hdomain.symm.trans hdomain')
        have ht : t = qtype := htype.symm.trans htype'
        subst hq ht
        -- the last call would be a denial, and is not before the storage
        have hlt : call.1 < time :=
          hdenied call.1 ttl (List.mem_append_right _ (List.mem_singleton.mpr (Prod.ext rfl hcall.symm)))
        exact absurd (hlast _ hbefore call (List.mem_singleton_self call)) (not_le.mpr hlt)

theorem ordered_cacheCalls {acts : List (Doing ε)} (h : acts.Pairwise fun a b => a.time ≤ b.time) :
    (cacheCalls acts).Pairwise fun a b => a.1 ≤ b.1 := by
  unfold cacheCalls
  refine List.Pairwise.filterMap _ (fun a b hab call hcall call' hcall' => ?_) h
  obtain ⟨c, -, rfl⟩ := Option.map_eq_some_iff.mp hcall
  obtain ⟨c', -, rfl⟩ := Option.map_eq_some_iff.mp hcall'
  exact hab

/-- **A record that is alive is found.** -/
theorem found_of_stored {answers : FilterAnswers} {start : ℤ} {acts : List (Doing ε)} {s : Shared}
    (h : Pool.Path (Acts answers) ⟨Cache.new, start⟩ acts s) {r : DnsRecord} {stored now : ℤ}
    {records : List DnsRecord} {reply : Option DnsPacket} (hof : r.Of qname qtype) (hr : r ∈ records)
    (hstore : ⟨stored, .store records, ()⟩ ∈ acts)
    (hlookup : ⟨now, .lookup qname qtype, reply⟩ ∈ acts)
    (hlater : stored < now) (hlive : now ≤ stored + seconds r.getTtl)
    (hdenied : ∀ time ttl, ⟨time, .storeNxdomain qname qtype ttl, ()⟩ ∈ acts →
      time < stored ∨ now < time) :
    ∃ qr, reply = some qr ∧ qr.header.rescode = .noerror ∧ r ∈ qr.answers := by
  obtain ⟨before, later, rfl, hreplies⟩ := exists_before h hlookup
  have hordered := (kept_of_path h).ordered
  obtain ⟨hbefore, hrest, hcross⟩ := List.pairwise_append.mp hordered
  -- the storage is on record before the lookup
  have hstored : ⟨stored, .store records, ()⟩ ∈ before := by
    rcases List.mem_append.mp hstore with hmem | hmem
    · exact hmem
    · rcases List.mem_cons.mp hmem with heq | hmem
      · cases heq
      · exact absurd ((List.pairwise_cons.mp hrest).1 _ hmem) (not_le.mpr hlater)
  have hkept : ∀ time ttl, (time, .storeNxdomain qname qtype ttl) ∈ cacheCalls before →
      time < stored := by
    intro time ttl hmem
    have hact := mem_cacheCalls_storeNxdomain.mp hmem
    refine (hdenied time ttl (List.mem_append_left _ hact)).resolve_right (not_lt.mpr ?_)
    exact hcross _ hact _ List.mem_cons_self
  obtain ⟨last, hlast, hlastStored⟩ := exists_lastStored (mem_cacheCalls_store.mpr hstored) hr hof
    (ordered_cacheCalls hbefore) hkept
  have halive : Cache.Live (cacheCalls before) now qname qtype r :=
    ⟨hof, last, hlastStored, hlive.trans (by omega)⟩
  obtain ⟨found, authorities, heq, hexactly, -⟩ := Cache.answers_lookup.live ⟨r, halive⟩
  exact ⟨_, hreplies.trans heq, rfl, (hexactly.2 r).mpr halive⟩

variable {threads : ℕ} {p : Server ε threads}

/-- An act is about a name and a type: a filter or an upstream server is asked for them. -/
def Outward (qname : String) (qtype : QueryType) : Command → Prop
  | .filter _ q t => q = qname ∧ t = qtype
  | .sendQuery _ query _ => query.qname = qname ∧ query.qtype = qtype
  | _ => False

/-- **The cache goes first.**  From when a record has been stored until its ttl is over, and unless
its name and type are denied in the meantime, a request for them is answered with the record, and
neither a filter nor an upstream server is asked for them. -/
theorem run_cacheFirst (S : Settings) (answers : FilterAnswers) (start : ℤ)
    (run : Runs S answers start p) {r : DnsRecord} {stored : ℤ} {records : List DnsRecord}
    (hof : r.Of qname qtype) (hr : r ∈ records)
    (hstored : ∃ e ∈ p.record, e.deed = .called ⟨stored, .store records, ()⟩)
    (hdenied : ∀ e ∈ p.record, ∀ time ttl,
      e.deed = .called ⟨time, .storeNxdomain qname qtype ttl, ()⟩ →
        time < stored ∨ stored + seconds r.getTtl < time) :
    ∀ e ∈ p.record, ∀ packet, e.deed = .finished packet → Asks S e.job qname qtype →
      (∀ act ∈ e.past, stored < act.time ∧ act.time ≤ stored + seconds r.getTtl) →
      r ∈ packet.answers ∧ packet.header.rescode = .noerror ∧
        ∀ act ∈ e.past, ¬ Outward qname qtype act.command := by
  intro e he packet hdeed hasks hwithin
  have hpath := Pool.run_path run
  have hpast := (Pool.run_past run).2 e he
  -- whatever the request looks up of the name and the type is found
  have hfound : ∀ now reply, ⟨now, .lookup qname qtype, reply⟩ ∈ e.past →
      ∃ qr, reply = some qr ∧ qr.header.rescode = .noerror ∧ r ∈ qr.answers := by
    intro now reply hmem
    obtain ⟨hlater, hlive⟩ := hwithin _ hmem
    refine found_of_stored hpath hof hr (Pool.mem_acted.mpr hstored) (hpast.subset hmem) hlater hlive ?_
    intro time ttl hact
    obtain ⟨e', he', hdeed'⟩ := Pool.mem_acted.mp hact
    exact (hdenied e' he' time ttl hdeed').imp_right hlive.trans_lt
  have hlooks := (Pool.run_keeps (keeps_serve_looksUp S qname qtype) run).2 e he
  have hlawful := (Pool.run_keeps (fun job => (keeps_serve S job).abides Program.abides_nil) run).2 e he
  unfold Pool.Lawful at hlooks hlawful
  rw [hdeed] at hlooks hlawful
  obtain ⟨time, reply, later, hsplit, hresponse⟩ := hlooks hasks
  obtain ⟨qr, rfl, hnoerror, hmem⟩ := hfound time reply (hsplit ▸ List.mem_cons_self)
  obtain ⟨hrescode, hanswers⟩ := hresponse qr rfl
  refine ⟨hanswers r hmem, hrescode.trans hnoerror, fun act hact houtward => ?_⟩
  -- asking for it elsewhere would mean that a lookup has found nothing
  have hmissed : ∃ now, ⟨now, .lookup qname qtype, none⟩ ∈ e.past := by
    obtain ⟨before, later', heq⟩ := List.append_of_mem hact
    have hmay : may S before act.command := hlawful.1 before act later' heq
    have hsubset : before ⊆ e.past := heq ▸ List.subset_append_left _ _
    obtain ⟨time', command, reply'⟩ := act
    cases command with
    | filter n q t =>
      obtain ⟨rfl, rfl⟩ := houtward
      exact hmay.imp fun _ h => hsubset h
    | sendQuery client query recursive =>
      obtain ⟨rfl, rfl⟩ := houtward
      exact hmay.lookup.imp fun _ h => hsubset h
    | _ => exact houtward.elim
  obtain ⟨now, hmem⟩ := hmissed
  obtain ⟨qr', hnone, -⟩ := hfound now none hmem
  cases hnone

/-- The second request comes while the record is alive. -/
theorem run_cacheFirst_cached : ∃ p : Server Unit 1,
    Runs Sample.settings (fun _ _ _ _ _ => False) 0 p ∧
      Sample.record ∈ Sample.response.answers ∧ Sample.response.header.rescode = .noerror ∧
      ∀ act ∈ Sample.cached, ¬ Outward "a.b" .a act.command := by
  obtain ⟨p, hrun, hacted, hmem⟩ := Sample.exists_run
  have hstored : ∃ e ∈ p.record, e.deed = .called ⟨2, .store [Sample.record], ()⟩ := by
    rw [← Pool.mem_acted, hacted]
    exact List.mem_append_left _ (List.mem_of_getElem? (i := 5) rfl)
  have hdenied : ∀ e ∈ p.record, ∀ time ttl,
      e.deed = .called ⟨time, .storeNxdomain "a.b" .a ttl, ()⟩ →
        time < 2 ∨ 2 + seconds Sample.record.getTtl < time := by
    intro e he time ttl hdeed
    have hact := Pool.mem_acted.mpr ⟨e, he, hdeed⟩
    rw [hacted] at hact
    simp [Sample.asked, Sample.cached] at hact
  have hasks : Asks Sample.settings Sample.query "a.b" .a :=
    ⟨⟨[], rfl⟩, rfl, rfl, rfl, fun num h => by cases h⟩
  have hwithin : ∀ act ∈ Sample.cached, 2 < act.time ∧ act.time ≤ 2 + seconds Sample.record.getTtl := by
    intro act hact
    rw [List.mem_singleton.mp hact]
    decide
  exact ⟨p, hrun, run_cacheFirst Sample.settings _ 0 hrun ⟨rfl, rfl⟩ (List.mem_singleton_self _)
    hstored hdenied _ hmem Sample.response rfl hasks hwithin⟩

end

end DnsWorkers
