/-
# Recursive resolution

`RecursiveDnsResolver::perform` of `dns/resolve.rs`: it asks the closest name server of the cache,
and then follows the referrals of the responses, with an address at hand or after resolving the
name of the server by the same procedure.  Nothing bounds this but the responses: the resolver
returns exactly if it is referred on only finitely often, and makes at most `2 * r + 1` queries on
`r` referrals.
-/
import Ruvname.Authority
import Ruvname.Buffer
import Ruvname.DnsCache

/-- A query to an upstream server; recursion is never desired. -/
structure UpstreamQuery where
  server : String
  qname : String
  qtype : QueryType

/-- The queries sent so far with their responses, the last one first. -/
abbrev Sent (ε : Type) := List (UpstreamQuery × Except ε DnsPacket)

/-- `DnsFilter`, at each occasion. -/
abbrev DnsFilter := ℕ → String → QueryType → Option DnsPacket

/-- `ServerContext`, with the cache left out, and what the resolver finds around it: the upstream
servers, that may answer anything on any occasion, the clock and the random numbers. -/
structure ServerContext (ε : Type) where
  authority : Zones
  filters : List DnsFilter
  allowRecursive : Bool
  sendQuery : Sent ε → UpstreamQuery → Except ε DnsPacket
  now : ℕ → ℤ
  random : ℕ → ℕ

/-- `ResolveError`. -/
inductive ResolveError (ε : Type) where
  | client (e : ε)
  | noServerFound

/-- The state of the resolver.  Its ticks number the readings of the clock and the random choices. -/
structure Resolving (ε : Type) where
  cache : Cache
  ticks : ℕ
  sent : Sent ε

/-- What a resolver returns, if it returns, and the state it leaves or has come to. -/
abbrev Outcome (ε : Type) := Option (Except (ResolveError ε) DnsPacket) × Resolving ε

/-- What asks name servers, the first one given, for a name and a type. -/
abbrev QueryLoop (ε : Type) := String → String → QueryType → Resolving ε → Outcome ε

namespace Resolving

variable {ε : Type} (C : ServerContext ε)

def tick (s : Resolving ε) : Resolving ε := { s with ticks := s.ticks + 1 }

def store (records : List DnsRecord) (s : Resolving ε) : Resolving ε :=
  { s with cache := s.cache.store (C.now s.ticks) records, ticks := s.ticks + 1 }

/-- The records of a response. -/
def storeResponse (response : DnsPacket) (s : Resolving ε) : Resolving ε :=
  ((s.store C response.answers).store C response.authorities).store C response.resources

def storeNxdomain (qname : String) (qtype : QueryType) (ttl : UInt32) (s : Resolving ε) : Resolving ε :=
  { s with cache := s.cache.storeNxdomain (C.now s.ticks) qname qtype ttl, ticks := s.ticks + 1 }

def lookup (qname : String) (qtype : QueryType) (s : Resolving ε) : Option DnsPacket :=
  s.cache.lookup (C.now s.ticks) qname qtype

def sendQuery (query : UpstreamQuery) (s : Resolving ε) : Resolving ε :=
  { s with sent := (query, C.sendQuery s.sent query) :: s.sent }

end Resolving

/-! ## The resolver -/

namespace DnsResolver

variable {ε : Type} (C : ServerContext ε)

/-- The first filter that answers. -/
def lookupFilters (qname : String) (qtype : QueryType) :
    List DnsFilter → Resolving ε → Option DnsPacket × Resolving ε
  | [], s => (none, s)
  | filter :: filters, s =>
    match filter s.ticks qname qtype with
    | some packet => (some packet, s.tick.store C packet.answers)
    | none => lookupFilters qname qtype filters s.tick

/-- `resolve`, which every resolver has from its `perform`. -/
def resolve (perform : String → QueryType → Resolving ε → Outcome ε) (qname : String)
    (qtype : QueryType) (recursive : Bool) (s : Resolving ε) : Outcome ε :=
  match qtype with
  | .unknown _ => (some (.ok { header := { rescode := .notimp } }), s)
  | qtype =>
    match Authority.query C.authority qname qtype with
    | some qr => (some (.ok qr), s)
    | none =>
      if ¬ recursive ∨ ¬ C.allowRecursive then
        (some (.ok { header := { rescode := .refused } }), s)
      else
        match s.lookup C qname qtype with
        | some qr => (some (.ok qr), s.tick)
        | none =>
          -- an alias will do where an address is asked for
          match if qtype = .a ∨ qtype = .aaaa then s.tick.lookup C qname .cname else none with
          | some qr => (some (.ok qr), s.tick.tick)
          | none =>
            match lookupFilters C qname qtype C.filters s.tick.tick with
            | (some packet, s) => (some (.ok packet), s)
            | (none, s) => perform qname qtype s

end DnsResolver

namespace RecursiveDnsResolver

variable {ε : Type} (C : ServerContext ε)

/-- The address of the closest name server: that of the name, of the name without its first label,
and so on up to the root. -/
def closestNs : List (List String) → Resolving ε → Option String × Resolving ε
  | [], s => (none, s)
  | labels :: rest, s =>
    let domain := ".".intercalate labels
    let ns := (s.lookup C domain .ns).bind fun qr => qr.getUnresolvedNs (C.random s.ticks) domain
    let addr := (ns.bind fun ns => s.tick.lookup C ns .a).bind fun qr =>
      qr.getRandomA (C.random s.tick.ticks)
    match addr with
    | some addr => (some addr, s.tick.tick)
    | none => closestNs rest s.tick.tick

/-- `perform` up to its loop. -/
def performWith (queryLoop : QueryLoop ε) (qname : String)
    (qtype : QueryType) (s : Resolving ε) : Outcome ε :=
  match closestNs C (splitDots qname).tails s with
  | (none, s) => (some (.error .noServerFound), s)
  | (some ns, s) => queryLoop ns qname qtype s

/-- How the loop of `perform` goes on when the name of a name server has been resolved. -/
def afterNested (loop : QueryLoop ε) (response : DnsPacket)
    (qname : String) (qtype : QueryType) : Outcome ε → Outcome ε
  | (none, s) => (none, s)
  | (some (.error e), s) => (some (.error e), s)
  | (some (.ok recursiveResponse), s) =>
    match recursiveResponse.getRandomA (C.random s.ticks) with
    | some newNs => loop newNs qname qtype s.tick
    | none => (some (.ok response), s.tick)

/-- How it goes on without an answer. -/
def followReferral (loop : QueryLoop ε) (response : DnsPacket)
    (qname : String) (qtype : QueryType) (s : Resolving ε) : Outcome ε :=
  match response.getResolvedNs (C.random s.ticks) qname with
  | some newNs => loop newNs qname qtype (s.tick.storeResponse C response)
  | none =>
    match response.getUnresolvedNs (C.random s.tick.ticks) qname with
    | none => (some (.ok response), s.tick.tick)
    | some newNsName =>
      -- the name server has to be found by a resolution of its own
      afterNested C loop response qname qtype
        (DnsResolver.resolve C (performWith C loop) newNsName .a true s.tick.tick)

/-- The query of an iteration. -/
def queryTo (ns qname : String) (qtype : QueryType) : UpstreamQuery := ⟨ns ++ ":" ++ "53", qname, qtype⟩

/-- The body of the loop of `perform`; `loop` is what `continue` does. -/
def iteration (loop : QueryLoop ε) (ns qname : String)
    (qtype : QueryType) (s : Resolving ε) : Outcome ε :=
  let query := queryTo ns qname qtype
  let received := s.sendQuery C query
  match C.sendQuery s.sent query with
  | .error e => (some (.error (.client e)), received)
  | .ok response =>
    if response.answers ≠ [] ∧ response.header.rescode = .noerror then
      (some (.ok response), received.storeResponse C response)
    else if response.header.rescode = .nxdomain then
      match response.getTtlFromSoa with
      | some ttl => (some (.ok response), received.storeNxdomain C qname qtype ttl)
      | none => (some (.ok response), received)
    else followReferral C loop response qname qtype received

/-- The loop of `perform`, until so many iterations follow or are inside one another. -/
def queryLoop : ℕ → QueryLoop ε
  | 0, _, _, _, s => (none, s)
  | fuel + 1, ns, qname, qtype, s => iteration C (queryLoop fuel) ns qname qtype s

/-- `perform`, with a cache and nothing sent so far. -/
def perform (fuel : ℕ) (qname : String) (qtype : QueryType) (cache : Cache) : Outcome ε :=
  performWith C (queryLoop C fuel) qname qtype ⟨cache, 0, []⟩

end RecursiveDnsResolver

/-! ## Referrals -/

/-- **A response refers the resolver on**: it neither answers nor denies the name, and names a name
server for it, with or without an address. -/
def refers {ε : Type} (qname : String) : Except ε DnsPacket → Bool
  | .error _ => false
  | .ok response => ¬ (response.answers ≠ [] ∧ response.header.rescode = .noerror)
    ∧ response.header.rescode ≠ .nxdomain ∧ response.unresolvedNs qname ≠ []

/-- The number of referrals among the responses. -/
def referrals {ε : Type} (sent : Sent ε) : ℕ := sent.countP fun e => refers e.1.qname e.2

section

variable {ε : Type} {C : ServerContext ε} {s s' : Resolving ε} {o o' : Outcome ε} {fuel : ℕ}

/-- Only packets that name a name server have one with an address. -/
theorem DnsPacket.unresolvedNs_ne_nil_of_resolved {random : ℕ} {qname ns : String} {packet : DnsPacket}
    (h : packet.getResolvedNs random qname = some ns) : packet.unresolvedNs qname ≠ [] := by
  unfold getResolvedNs at h
  cases hpick : pick random (packet.resolvedNs qname) with
  | none =>
    rw [hpick] at h
    cases h
  | some rec =>
    obtain ⟨r, hr, hrec⟩ := List.mem_flatMap.mp (pick_eq_some hpick)
    cases r with
    | ns domain host ttl =>
      by_cases hends : endsWith qname domain
      · have hhost : host ∈ packet.unresolvedNs qname := by
          refine List.mem_filterMap.mpr ⟨_, hr, ?_⟩
          dsimp only
          rw [if_neg (not_not_intro hends)]
        exact List.ne_nil_of_mem hhost
      · dsimp only at hrec
        rw [if_pos hends] at hrec
        cases hrec
    | _ => cases hrec

/-! ## What a run sends -/

/-- Queries are sent, one after the other. -/
inductive Sends (C : ServerContext ε) (sent : Sent ε) : Sent ε → Prop
  | refl : Sends C sent sent
  | query {sent' : Sent ε} (query : UpstreamQuery) (h : Sends C sent sent') :
    Sends C sent ((query, C.sendQuery sent' query) :: sent')

theorem Sends.trans {sent₁ sent₂ sent₃ : Sent ε} (h : Sends C sent₁ sent₂) (h' : Sends C sent₂ sent₃) :
    Sends C sent₁ sent₃ := by
  induction h' with
  | refl => exact h
  | query query _ ih => exact .query query ih

/-- What has been sent stays sent. -/
theorem Sends.suffix {sent sent' : Sent ε} (h : Sends C sent sent') : sent <:+ sent' := by
  induction h with
  | refl => exact List.suffix_refl _
  | query query _ ih => exact ih.trans (List.suffix_cons _ _)

/-- **What a run does with its fuel**: it sends queries, a run that returns has made at
most two queries for each referral and one more, and a run that does not return was referred on as
often as its fuel allows. -/
structure Accounted (C : ServerContext ε) (fuel : ℕ) (s : Resolving ε) (o : Outcome ε) : Prop where
  sends : Sends C s.sent o.2.sent
  returned : o.1 ≠ none →
    o.2.sent.length + 2 * referrals s.sent ≤ s.sent.length + 2 * referrals o.2.sent + 1
  running : o.1 = none → fuel + referrals s.sent ≤ referrals o.2.sent

/-- A run with less fuel does the same as far as it gets. -/
structure Extends (o o' : Outcome ε) : Prop where
  returned : o.1 ≠ none → o' = o
  grows : o.2.sent <:+ o'.2.sent

theorem Extends.refl (o : Outcome ε) : Extends o o := ⟨fun _ => rfl, List.suffix_refl _⟩

/-- A referral has been followed: it pays for two queries. -/
structure Referred (C : ServerContext ε) (s s' : Resolving ε) : Prop where
  sends : Sends C s.sent s'.sent
  paid : s'.sent.length + 2 * referrals s.sent ≤ s.sent.length + 2 * referrals s'.sent
  further : referrals s.sent + 1 ≤ referrals s'.sent

/-- What has been referred stays counted. -/
theorem referrals_mono {sent sent' : Sent ε} (h : sent <:+ sent') : referrals sent ≤ referrals sent' :=
  List.Sublist.countP_le h.sublist

/-- A run that returns without a query. -/
theorem accounted_of_sent_eq {result : Except (ResolveError ε) DnsPacket} (h : s'.sent = s.sent) :
    Accounted C fuel s (some result, s') := by
  refine ⟨?_, fun _ => ?_, fun h => by cases h⟩
  · rw [h]
    exact .refl
  · rw [h]
    omega

/-- What is done before a run and sends nothing does not count. -/
theorem Accounted.of_sent_eq (h : Accounted C fuel s' o) (hs : s'.sent = s.sent) :
    Accounted C fuel s o := by
  obtain ⟨hsends, hreturned, hrunning⟩ := h
  rw [hs] at hsends hreturned hrunning
  exact ⟨hsends, hreturned, hrunning⟩

/-- A run after a referral has one more iteration behind it. -/
theorem Referred.accounted (h : Referred C s s') (ho : Accounted C fuel s' o) :
    Accounted C (fuel + 1) s o := by
  obtain ⟨hsends, hpaid, hfurther⟩ := h
  refine ⟨hsends.trans ho.sends, fun hresult => ?_, fun hresult => ?_⟩
  · have hreturned := ho.returned hresult
    omega
  · have hrunning := ho.running hresult
    omega

/-- A run that returns after a referral. -/
theorem Referred.returns {result : Except (ResolveError ε) DnsPacket} (h : Referred C s s') :
    Accounted C fuel s (some result, s') :=
  ⟨h.sends, fun _ => h.paid.trans (Nat.le_succ _), fun h => by cases h⟩

/-- Only the first responses refer on. -/
theorem Sends.referrals_le {sent : Sent ε} {n : ℕ} (hsends : Sends C [] sent)
    (h : ∀ sent query, n ≤ sent.length → ¬ refers query.qname (C.sendQuery sent query)) :
    referrals sent ≤ n := by
  have hmin : referrals sent ≤ min n sent.length := by
    induction hsends with
    | refl => exact Nat.zero_le _
    | @query sent' query hsends ih =>
      by_cases hlength : n ≤ sent'.length
      · have hcount : referrals ((query, C.sendQuery sent' query) :: sent') = referrals sent' :=
          List.countP_cons_of_neg (h sent' query hlength)
        rw [hcount, List.length_cons]
        omega
      · have hcount : referrals ((query, C.sendQuery sent' query) :: sent') ≤ referrals sent' + 1 := by
          unfold referrals
          rw [List.countP_cons]
          split <;> omega
        rw [List.length_cons]
        omega
  exact hmin.trans (min_le_left _ _)

namespace DnsResolver

variable {perform perform' : String → QueryType → Resolving ε → Outcome ε} {qname : String}
  {qtype : QueryType} {recursive : Bool}

theorem sent_lookupFilters (C : ServerContext ε) (qname : String) (qtype : QueryType)
    (filters : List DnsFilter) (s : Resolving ε) :
    (lookupFilters C qname qtype filters s).2.sent = s.sent := by
  induction filters generalizing s with
  | nil => rfl
  | cons filter filters ih =>
    unfold lookupFilters
    cases filter s.ticks qname qtype with
    | some packet => rfl
    | none => exact ih _

/-- A resolver answers at once, without a query, or performs. -/
theorem resolve_cases (C : ServerContext ε) (qname : String) (qtype : QueryType) (recursive : Bool)
    (s : Resolving ε) :
    (∃ result s', s'.sent = s.sent
      ∧ ∀ perform, resolve C perform qname qtype recursive s = (some result, s'))
    ∨ ∃ s', s'.sent = s.sent
      ∧ ∀ perform, resolve C perform qname qtype recursive s = perform qname qtype s' := by
  unfold resolve
  split
  · exact Or.inl ⟨_, s, rfl, fun _ => rfl⟩
  · cases Authority.query C.authority qname qtype with
    | some qr => exact Or.inl ⟨_, s, rfl, fun _ => rfl⟩
    | none =>
      dsimp only
      by_cases hrefused : ¬ recursive ∨ ¬ C.allowRecursive
      · simp only [if_pos hrefused]
        exact Or.inl ⟨_, s, rfl, fun _ => rfl⟩
      · simp only [if_neg hrefused]
        cases s.lookup C qname qtype with
        | some qr => exact Or.inl ⟨_, s.tick, rfl, fun _ => rfl⟩
        | none =>
          generalize
            (if qtype = .a ∨ qtype = .aaaa then s.tick.lookup C qname .cname else none) = aliased
          cases aliased with
          | some qr => exact Or.inl ⟨_, s.tick.tick, rfl, fun _ => rfl⟩
          | none =>
            have hsent := sent_lookupFilters C qname qtype C.filters s.tick.tick
            rcases hfilters : lookupFilters C qname qtype C.filters s.tick.tick with ⟨packet, s'⟩
            rw [hfilters] at hsent
            cases packet with
            | some packet => exact Or.inl ⟨_, s', hsent, fun _ => rfl⟩
            | none => exact Or.inr ⟨s', hsent, fun _ => rfl⟩

theorem accounted_resolve (h : ∀ qname qtype s, Accounted C fuel s (perform qname qtype s)) :
    Accounted C fuel s (resolve C perform qname qtype recursive s) := by
  rcases resolve_cases C qname qtype recursive s with ⟨result, s', hsent, heq⟩ | ⟨s', hsent, heq⟩
  · rw [heq perform]
    exact accounted_of_sent_eq hsent
  · rw [heq perform]
    exact (h qname qtype s').of_sent_eq hsent

theorem extends_resolve (h : ∀ qname qtype s, Extends (perform qname qtype s) (perform' qname qtype s)) :
    Extends (resolve C perform qname qtype recursive s)
      (resolve C perform' qname qtype recursive s) := by
  rcases resolve_cases C qname qtype recursive s with ⟨result, s', hsent, heq⟩ | ⟨s', hsent, heq⟩
  · rw [heq perform, heq perform']
    exact Extends.refl _
  · rw [heq perform, heq perform']
    exact h qname qtype s'

end DnsResolver

namespace RecursiveDnsResolver

variable {loop loop' : QueryLoop ε} {ns qname : String}
  {qtype : QueryType} {response : DnsPacket}

theorem sent_closestNs (C : ServerContext ε) (labels : List (List String)) (s : Resolving ε) :
    (closestNs C labels s).2.sent = s.sent := by
  induction labels generalizing s with
  | nil => rfl
  | cons labels rest ih =>
    unfold closestNs
    dsimp only
    split
    · rfl
    · exact ih _

theorem accounted_performWith (h : ∀ ns qname qtype s, Accounted C fuel s (loop ns qname qtype s)) :
    Accounted C fuel s (performWith C loop qname qtype s) := by
  have hsent := sent_closestNs C (splitDots qname).tails s
  unfold performWith
  rcases hclosest : closestNs C (splitDots qname).tails s with ⟨addr, s'⟩
  rw [hclosest] at hsent
  cases addr with
  | none => exact accounted_of_sent_eq hsent
  | some addr => exact (h addr qname qtype s').of_sent_eq hsent

theorem extends_performWith
    (h : ∀ ns qname qtype s, Extends (loop ns qname qtype s) (loop' ns qname qtype s)) :
    Extends (performWith C loop qname qtype s) (performWith C loop' qname qtype s) := by
  unfold performWith
  rcases closestNs C (splitDots qname).tails s with ⟨addr, s'⟩
  cases addr with
  | none => exact Extends.refl _
  | some addr => exact h addr qname qtype s'

/-! ### One iteration -/

/-- **What an iteration can do** once its query is sent: return, or follow a referral, with an
address or with a name. -/
theorem iteration_cases (C : ServerContext ε) (ns qname : String) (qtype : QueryType) (s : Resolving ε) :
    (∃ result s', s'.sent = (s.sendQuery C (queryTo ns qname qtype)).sent
      ∧ ∀ loop, iteration C loop ns qname qtype s = (some result, s'))
    ∨ (refers qname (C.sendQuery s.sent (queryTo ns qname qtype)) ∧
      ((∃ newNs s', s'.sent = (s.sendQuery C (queryTo ns qname qtype)).sent
        ∧ ∀ loop, iteration C loop ns qname qtype s = loop newNs qname qtype s')
      ∨ ∃ response newNsName s', s'.sent = (s.sendQuery C (queryTo ns qname qtype)).sent
        ∧ ∀ loop, iteration C loop ns qname qtype s = afterNested C loop response qname qtype
          (DnsResolver.resolve C (performWith C loop) newNsName .a true s'))) := by
  unfold iteration
  dsimp only
  generalize s.sendQuery C (queryTo ns qname qtype) = received
  cases C.sendQuery s.sent (queryTo ns qname qtype) with
  | error e => exact Or.inl ⟨_, received, rfl, fun _ => rfl⟩
  | ok response =>
    dsimp only
    by_cases hanswered : response.answers ≠ [] ∧ response.header.rescode = .noerror
    · simp only [if_pos hanswered]
      exact Or.inl ⟨_, received.storeResponse C response, rfl, fun _ => rfl⟩
    simp only [if_neg hanswered]
    by_cases hdenied : response.header.rescode = .nxdomain
    · simp only [if_pos hdenied]
      cases response.getTtlFromSoa with
      | some ttl => exact Or.inl ⟨_, received.storeNxdomain C qname qtype ttl, rfl, fun _ => rfl⟩
      | none => exact Or.inl ⟨_, received, rfl, fun _ => rfl⟩
    simp only [if_neg hdenied]
    unfold followReferral
    cases hresolved : response.getResolvedNs (C.random received.ticks) qname with
    | some newNs =>
      right
      refine ⟨?_, Or.inl ⟨newNs, received.tick.storeResponse C response, rfl, fun _ => rfl⟩⟩
      exact decide_eq_true ⟨hanswered, hdenied, DnsPacket.unresolvedNs_ne_nil_of_resolved hresolved⟩
    | none =>
      cases hunresolved : response.getUnresolvedNs (C.random received.tick.ticks) qname with
      | none => exact Or.inl ⟨_, received.tick.tick, rfl, fun _ => rfl⟩
      | some newNsName =>
        right
        refine ⟨?_, Or.inr ⟨response, newNsName, received.tick.tick, rfl, fun _ => rfl⟩⟩
        exact decide_eq_true
          ⟨hanswered, hdenied, List.ne_nil_of_mem (DnsPacket.pick_eq_some hunresolved)⟩

theorem length_sendQuery {query : UpstreamQuery} :
    (s.sendQuery C query).sent.length = s.sent.length + 1 := rfl

theorem sends_sendQuery {query : UpstreamQuery} : Sends C s.sent (s.sendQuery C query).sent :=
  .query query .refl

theorem referrals_sendQuery (h : refers qname (C.sendQuery s.sent (queryTo ns qname qtype))) :
    referrals (s.sendQuery C (queryTo ns qname qtype)).sent = referrals s.sent + 1 := by
  exact List.countP_cons_of_pos
    (p := fun e : UpstreamQuery × Except ε DnsPacket => refers e.1.qname e.2) h

/-- A query that is answered with a referral. -/
theorem referred_sendQuery (h : refers qname (C.sendQuery s.sent (queryTo ns qname qtype))) :
    Referred C s (s.sendQuery C (queryTo ns qname qtype)) := by
  refine ⟨sends_sendQuery, ?_, ?_⟩
  · rw [referrals_sendQuery h, length_sendQuery]
    omega
  · rw [referrals_sendQuery h]

/-- The name server of the referral has been resolved, too. -/
theorem referred_nested {result : Except (ResolveError ε) DnsPacket}
    (h : refers qname (C.sendQuery s.sent (queryTo ns qname qtype)))
    (hnested : Accounted C fuel (s.sendQuery C (queryTo ns qname qtype)) (some result, s')) :
    Referred C s s' := by
  have hreturned := hnested.returned (by simp)
  have hmono := referrals_mono hnested.sends.suffix
  rw [referrals_sendQuery h, length_sendQuery] at hreturned
  rw [referrals_sendQuery h] at hmono
  exact ⟨sends_sendQuery.trans hnested.sends, by dsimp only at hreturned; omega, hmono⟩

/-- What is done after a nested resolution. -/
theorem afterNested_cases (C : ServerContext ε) (response : DnsPacket) (qname : String)
    (qtype : QueryType) (result : Except (ResolveError ε) DnsPacket) (s : Resolving ε) :
    (∃ result' s', s'.sent = s.sent
      ∧ ∀ loop, afterNested C loop response qname qtype (some result, s) = (some result', s'))
    ∨ ∃ newNs s', s'.sent = s.sent
      ∧ ∀ loop, afterNested C loop response qname qtype (some result, s) = loop newNs qname qtype s' := by
  cases result with
  | error e => exact Or.inl ⟨_, s, rfl, fun _ => rfl⟩
  | ok packet =>
    unfold afterNested
    dsimp only
    cases packet.getRandomA (C.random s.ticks) with
    | none => exact Or.inl ⟨_, s.tick, rfl, fun _ => rfl⟩
    | some newNs => exact Or.inr ⟨newNs, s.tick, rfl, fun _ => rfl⟩

/-- **One iteration keeps the account.** -/
theorem accounted_iteration (h : ∀ ns qname qtype s, Accounted C fuel s (loop ns qname qtype s)) :
    Accounted C (fuel + 1) s (iteration C loop ns qname qtype s) := by
  rcases iteration_cases C ns qname qtype s with ⟨result, s', hsent, heq⟩
    | ⟨hrefers, ⟨newNs, s', hsent, heq⟩ | ⟨response, newNsName, s', hsent, heq⟩⟩
  · -- the run returns after this query
    rw [heq]
    refine ⟨?_, fun _ => ?_, fun h => by cases h⟩
    · rw [hsent]
      exact sends_sendQuery
    · have hmono : referrals s.sent ≤ referrals s'.sent := by
        rw [hsent]
        exact referrals_mono sends_sendQuery.suffix
      have hlength : s'.sent.length = s.sent.length + 1 := by rw [hsent, length_sendQuery]
      dsimp only
      omega
  · rw [heq]
    exact (referred_sendQuery hrefers).accounted ((h newNs qname qtype s').of_sent_eq hsent)
  · rw [heq]
    have hnested : Accounted C fuel (s.sendQuery C (queryTo ns qname qtype))
        (DnsResolver.resolve C (performWith C loop) newNsName .a true s') :=
      (DnsResolver.accounted_resolve fun _ _ _ => accounted_performWith h).of_sent_eq hsent
    revert hnested
    rcases DnsResolver.resolve C (performWith C loop) newNsName .a true s' with ⟨result, s₁⟩
    intro hnested
    cases result with
    | none =>
      -- the nested resolution does not return
      exact (referred_sendQuery hrefers).accounted
        ⟨hnested.sends, fun h => absurd rfl h, hnested.running⟩
    | some result =>
      have hreferred := referred_nested hrefers hnested
      rcases afterNested_cases C response qname qtype result s₁ with ⟨result', s₂, hsent₂, heq₂⟩
        | ⟨newNs, s₂, hsent₂, heq₂⟩
      · rw [heq₂]
        have hreturns : Accounted C (fuel + 1) s (some result', s₁) := hreferred.returns
        refine ⟨?_, fun _ => ?_, fun h => by cases h⟩
        · rw [hsent₂]
          exact hreturns.sends
        · rw [hsent₂]
          exact hreturns.returned (by simp)
      · rw [heq₂]
        exact hreferred.accounted ((h newNs qname qtype s₂).of_sent_eq hsent₂)

/-- **The loop keeps the account**, by induction on its fuel. -/
theorem accounted_queryLoop (C : ServerContext ε) (fuel : ℕ) (ns qname : String) (qtype : QueryType)
    (s : Resolving ε) : Accounted C fuel s (queryLoop C fuel ns qname qtype s) := by
  induction fuel generalizing ns qname qtype s with
  | zero =>
    refine ⟨.refl, fun h => absurd rfl h, fun _ => ?_⟩
    rw [Nat.zero_add]
    exact le_refl _
  | succ fuel ih => exact accounted_iteration ih

/-! ### More fuel -/

/-- With more fuel an iteration does the same as far as it got. -/
theorem extends_iteration
    (h : ∀ ns qname qtype s, Extends (loop ns qname qtype s) (loop' ns qname qtype s))
    (hgrows : ∀ ns qname qtype s, s.sent <:+ (loop' ns qname qtype s).2.sent) :
    Extends (iteration C loop ns qname qtype s) (iteration C loop' ns qname qtype s) := by
  rcases iteration_cases C ns qname qtype s with ⟨result, s', hsent, heq⟩
    | ⟨hrefers, ⟨newNs, s', hsent, heq⟩ | ⟨response, newNsName, s', hsent, heq⟩⟩
  · rw [heq loop, heq loop']
    exact Extends.refl _
  · rw [heq loop, heq loop']
    exact h newNs qname qtype s'
  · rw [heq loop, heq loop']
    have hnested : Extends (DnsResolver.resolve C (performWith C loop) newNsName .a true s')
        (DnsResolver.resolve C (performWith C loop') newNsName .a true s') :=
      DnsResolver.extends_resolve fun _ _ _ => extends_performWith h
    revert hnested
    rcases DnsResolver.resolve C (performWith C loop) newNsName .a true s' with ⟨result, s₁⟩
    rcases DnsResolver.resolve C (performWith C loop') newNsName .a true s' with ⟨result', s₁'⟩
    rintro ⟨hreturned, hnested⟩
    cases result with
    | none =>
      -- the nested resolution is cut short with less fuel; more fuel may go on after it
      refine ⟨fun h => absurd rfl h, hnested.trans ?_⟩
      cases result' with
      | none => exact List.suffix_refl _
      | some result' =>
        rcases afterNested_cases C response qname qtype result' s₁' with ⟨result₂, s₂, hsent₂, heq₂⟩
          | ⟨newNs, s₂, hsent₂, heq₂⟩
        · rw [heq₂, hsent₂]
        · rw [heq₂, ← hsent₂]
          exact hgrows newNs qname qtype s₂
    | some result =>
      rw [hreturned (by simp)]
      rcases afterNested_cases C response qname qtype result s₁ with ⟨result₂, s₂, hsent₂, heq₂⟩
        | ⟨newNs, s₂, hsent₂, heq₂⟩
      · rw [heq₂ loop, heq₂ loop']
        exact Extends.refl _
      · rw [heq₂ loop, heq₂ loop']
        exact h newNs qname qtype s₂

theorem extends_queryLoop (C : ServerContext ε) (fuel : ℕ) (ns qname : String) (qtype : QueryType)
    (s : Resolving ε) :
    Extends (queryLoop C fuel ns qname qtype s) (queryLoop C (fuel + 1) ns qname qtype s) := by
  induction fuel generalizing ns qname qtype s with
  | zero => exact ⟨fun h => absurd rfl h, (accounted_queryLoop C 1 ns qname qtype s).sends.suffix⟩
  | succ fuel ih =>
    exact extends_iteration ih fun ns qname qtype s =>
      (accounted_queryLoop C (fuel + 1) ns qname qtype s).sends.suffix

/-! ## Whole resolutions -/

variable {cache : Cache}

/-- A resolution keeps the account. -/
theorem accounted_perform (C : ServerContext ε) (fuel : ℕ) (qname : String) (qtype : QueryType)
    (cache : Cache) : Accounted C fuel ⟨cache, 0, []⟩ (perform C fuel qname qtype cache) :=
  accounted_performWith (accounted_queryLoop C fuel)

/-- What it does with less fuel is the beginning of what it does with more. -/
theorem extends_perform {fuel' : ℕ} (h : fuel ≤ fuel') :
    Extends (perform C fuel qname qtype cache) (perform C fuel' qname qtype cache) := by
  induction h with
  | refl => exact Extends.refl _
  | @step fuel' _ ih =>
    have hstep : Extends (perform C fuel' qname qtype cache) (perform C (fuel' + 1) qname qtype cache) :=
      extends_performWith (extends_queryLoop C fuel')
    refine ⟨fun hne => ?_, ih.grows.trans hstep.grows⟩
    have heq := ih.returned hne
    rw [← heq]
    exact hstep.returned (by rw [heq]; exact hne)

/-- **`perform` returns exactly if it is referred on only finitely often**, and then it has made at
most two queries for each referral and one more. -/
theorem perform_returns_iff (C : ServerContext ε) (qname : String) (qtype : QueryType) (cache : Cache) :
    ((∃ fuel, (perform C fuel qname qtype cache).1 ≠ none)
      ↔ ∃ r, ∀ fuel, referrals (perform C fuel qname qtype cache).2.sent ≤ r)
    ∧ ∀ fuel, (perform C fuel qname qtype cache).1 ≠ none →
      (perform C fuel qname qtype cache).2.sent.length
        ≤ 2 * referrals (perform C fuel qname qtype cache).2.sent + 1 := by
  refine ⟨⟨?_, ?_⟩, fun fuel hne => ?_⟩
  · rintro ⟨fuel, hne⟩
    refine ⟨referrals (perform C fuel qname qtype cache).2.sent, fun fuel' => ?_⟩
    rcases le_total fuel fuel' with hle | hle
    · rw [(extends_perform hle).returned hne]
    · exact referrals_mono (extends_perform hle).grows
  · rintro ⟨r, hr⟩
    refine ⟨r + 1, fun hnone => ?_⟩
    have hrunning := (accounted_perform C (r + 1) qname qtype cache).running hnone
    have hbound := hr (r + 1)
    omega
  · have hreturned := (accounted_perform C fuel qname qtype cache).returned hne
    simpa [referrals] using hreturned

/-- It returns if the upstream servers stop referring on. -/
theorem perform_returns_of_stops (C : ServerContext ε) (n : ℕ)
    (h : ∀ sent query, n ≤ sent.length → ¬ refers query.qname (C.sendQuery sent query)) (qname : String)
    (qtype : QueryType) (cache : Cache) : ∃ fuel, (perform C fuel qname qtype cache).1 ≠ none := by
  refine ⟨n + 1, fun hnone => ?_⟩
  have haccount := accounted_perform C (n + 1) qname qtype cache
  have hrunning := haccount.running hnone
  have hbound := haccount.sends.referrals_le h
  omega

/-! ### Endless referrals -/

/-- A root server that is its own name server, and refers everything to itself. -/
def root : List DnsRecord := [.ns "" "a.myroot.net" 3600, .a "a.myroot.net" ⟨#v[192, 0, 2, 53]⟩ 3600]

def endless : ServerContext Empty where
  authority := ⟨[], List.Pairwise.nil⟩
  filters := []
  allowRecursive := true
  sendQuery _ _ := .ok { authorities := root.take 1, resources := root.drop 1 }
  now _ := 0
  random _ := 0

theorem queryLoop_endless (fuel : ℕ) (s : Resolving Empty) :
    (queryLoop endless fuel "192.0.2.53" "foo.ruv" .a s).1 = none := by
  induction fuel generalizing s with
  | zero => rfl
  | succ fuel ih => exact ih _

/-- With this root server in the cache, no resolution returns. -/
theorem not_returns_endless : ¬ ∀ (C : ServerContext Empty) qname qtype cache,
    ∃ fuel, (perform C fuel qname qtype cache).1 ≠ none := by
  intro h
  obtain ⟨fuel, hne⟩ := h endless "foo.ruv" .a (Cache.new.store 0 root)
  exact hne (queryLoop_endless fuel _)

end RecursiveDnsResolver

end
