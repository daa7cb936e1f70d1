/-
# A worker on its own

The resolver has been modelled twice: as a function that threads the cache and the queries sent so
far through one resolution (`RecursiveDnsResolver.perform`), and as a program whose calls come in any
order with those of others.  Here the two are compared: a worker that is left alone with a request
makes the calls that the function makes.  So requests that are served one after the other, by
whichever workers, get the responses of the function, with the same queries sent, and leave the same
cache (`DnsWorkers.run_sequential`), as long as the clock does not run backwards.
-/
import Ruvname.DnsAnswers

namespace DnsWorkers

variable {ε : Type}

/-- The settings of a context that resolves recursively. -/
def settingsOf (C : ServerContext ε) : Settings where
  authority := C.authority
  filters := C.filters.length
  dohClient := false
  resolveStrategy := .recursive
  allowRecursive := C.allowRecursive

/-- What the filters of a context may answer: what they answer on some occasion. -/
def answersOf (C : ServerContext ε) : FilterAnswers := fun _ n qname qtype reply =>
  ∃ filter tick, C.filters[n]? = some filter ∧ reply = filter tick qname qtype

/-- The queries sent to upstream servers among some acts, with the replies. -/
def queries (acts : List (Doing ε)) : List (UpstreamQuery × Except ε DnsPacket) :=
  acts.filterMap fun
    | ⟨_, .sendQuery _ query _, reply⟩ => some (query, reply)
    | _ => none

/-- **A program does what leads from one state of the function to another**: its calls can have
these effects, between these times, and it has sent what has been sent in between. -/
def Follows {α : Type} (C : ServerContext ε) (m : Task ε α) (s : Resolving ε) (a : α)
    (s' : Resolving ε) : Prop :=
  ∀ clock ≤ C.now s.ticks, ∃ acts clock', m.Yields acts a ∧ clock' ≤ C.now s'.ticks ∧
    Pool.Path (Acts (answersOf C)) ⟨s.cache, clock⟩ acts ⟨s'.cache, clock'⟩ ∧
    s'.sent = (queries acts).reverse ++ s.sent

/-- The same for a function that may run out of fuel. -/
def FollowsOutcome (C : ServerContext ε) (m : Task ε (Resolved ε)) (s : Resolving ε)
    (o : Outcome ε) : Prop :=
  ∀ result, o.1 = some result → Follows C m s result o.2

section

variable {C : ServerContext ε} {α β : Type} {m : Task ε α} {f : α → Task ε β} {s s' s'' : Resolving ε}
  {a : α} {b : β}

/-- What is asked upstream, in the order in which it is asked. -/
theorem queries_append (acts acts' : List (Doing ε)) :
    queries (acts ++ acts') = queries acts ++ queries acts' := List.filterMap_append

/-- One part of the work after another. -/
theorem Follows.bind (h : Follows C m s a s') (hf : Follows C (f a) s' b s'') :
    Follows C (m >>= f) s b s'' := by
  intro clock hclock
  obtain ⟨acts, clock', hyields, hclock', hpath, hsent⟩ := h clock hclock
  obtain ⟨acts', clock'', hyields', hclock'', hpath', hsent'⟩ := hf clock' hclock'
  refine ⟨acts ++ acts', clock'', hyields.bind hyields', hclock'', hpath.trans hpath', ?_⟩
  rw [hsent', hsent, queries_append, List.reverse_append, List.append_assoc]

/-- Without calls only time passes. -/
theorem follows_pure (hcache : s'.cache = s.cache) (hsent : s'.sent = s.sent)
    (hticks : C.now s.ticks ≤ C.now s'.ticks) : Follows C (pure a) s a s' := by
  intro clock hclock
  refine ⟨[], clock, .done a, hclock.trans hticks, ?_, hsent⟩
  rw [hcache]
  exact .nil

/-- A result that is there needs no work. -/
theorem follows_refl : Follows C (pure a) s a s := follows_pure rfl rfl le_rfl

/-- A single call, at the time that the function reads off its clock. -/
theorem follows_ask {command : Command} {reply : Reply ε command}
    (hticks : C.now s.ticks ≤ C.now s'.ticks)
    (hreplies : Replies (answersOf C) s.cache ⟨C.now s.ticks, command, reply⟩)
    (hcache : s'.cache =
      match command.cacheCall? with
      | some c => s.cache.call (C.now s.ticks, c)
      | none => s.cache)
    (hsent : s'.sent =
      (queries [(⟨C.now s.ticks, command, reply⟩ : Doing ε)]).reverse ++ s.sent) :
    Follows C (Program.ask command) s reply s' := by
  intro clock hclock
  refine ⟨[⟨C.now s.ticks, command, reply⟩], C.now s.ticks, Program.yields_ask _ _, hticks, ?_, hsent⟩
  exact Pool.path_cons.mpr ⟨_, ⟨hclock, rfl, hreplies, hcache⟩, .nil⟩

end

/-! ## One function after the other -/

section

variable {C : ServerContext ε} {s s' : Resolving ε} {qname : String} {qtype : QueryType}
  {response : DnsPacket}

/-- The clock of a context does not run backwards. -/
def Clocked (C : ServerContext ε) : Prop := ∀ k, C.now k ≤ C.now (k + 1)

/-- A lookup in the cache. -/
theorem follows_lookup (hC : Clocked C) :
    Follows C (lookup qname qtype) s (s.lookup C qname qtype) s.tick :=
  follows_ask (hC s.ticks) rfl rfl rfl

/-- The storing of records. -/
theorem follows_store (hC : Clocked C) {records : List DnsRecord} :
    Follows C (store records) s () (s.store C records) :=
  follows_ask (hC s.ticks) trivial rfl rfl

/-- The storing of a denial. -/
theorem follows_storeNxdomain (hC : Clocked C) {ttl : UInt32} :
    Follows C (storeNxdomain qname qtype ttl) s () (s.storeNxdomain C qname qtype ttl) :=
  follows_ask (hC s.ticks) trivial rfl rfl

/-- A random number, with or without a tick. -/
theorem follows_random {n : ℕ} : Follows C random s n s := follows_ask le_rfl trivial rfl rfl

/-- A random number takes one tick. -/
theorem follows_random_tick (hC : Clocked C) {n : ℕ} : Follows C random s n s.tick :=
  follows_ask (hC s.ticks) trivial rfl rfl

/-- A query upstream is answered as the context answers it. -/
theorem follows_sendQuery {client : Client} {query : UpstreamQuery} {recursive : Bool} :
    Follows C (sendQuery client query recursive) s (C.sendQuery s.sent query) (s.sendQuery C query) :=
  follows_ask le_rfl trivial rfl rfl

/-- The storing of all a response has. -/
theorem follows_storeResponse (hC : Clocked C) :
    Follows C (storeResponse response) s () (s.storeResponse C response) :=
  (follows_store hC).bind ((follows_store hC).bind (follows_store hC))

/-- The filters from one of them on. -/
theorem follows_lookupFilters (hC : Clocked C) (before filters : List DnsFilter)
    (hsplit : C.filters = before ++ filters) (s : Resolving ε) :
    Follows C (lookupFilters qname qtype (List.range' before.length filters.length)) s
      (DnsResolver.lookupFilters C qname qtype filters s).1
      (DnsResolver.lookupFilters C qname qtype filters s).2 := by
  induction filters generalizing before s with
  | nil => exact follows_refl
  | cons filter filters ih =>
    have hfilter : C.filters[before.length]? = some filter := by
      rw [hsplit, List.getElem?_append_right le_rfl, Nat.sub_self]
      rfl
    rw [List.length_cons, List.range'_succ]
    unfold lookupFilters DnsResolver.lookupFilters
    have hask : Follows C (askFilter before.length qname qtype) s (filter s.ticks qname qtype) s.tick :=
      follows_ask (hC s.ticks) ⟨filter, s.ticks, hfilter, rfl⟩ rfl rfl
    refine hask.bind ?_
    cases filter s.ticks qname qtype with
    | some packet => exact (follows_store hC).bind follows_refl
    | none =>
      have hrest := ih (before ++ [filter]) (by rw [hsplit, List.append_assoc, List.singleton_append])
        s.tick
      rw [List.length_append, List.length_singleton] at hrest
      exact hrest

/-- An alias is looked up for queries for addresses only. -/
theorem follows_lookupAlias (hC : Clocked C) : Follows C (lookupAlias qname qtype) s
    (if qtype = .a ∨ qtype = .aaaa then s.lookup C qname .cname else none) s.tick := by
  unfold lookupAlias
  split_ifs
  · exact follows_lookup hC
  · exact follows_pure rfl rfl (hC s.ticks)

variable {perform : String → QueryType → Task ε (Resolved ε)}
  {perform' : String → QueryType → Resolving ε → Outcome ε}

/-- A part that ends has an outcome. -/
theorem followsOutcome_some {m : Task ε (Resolved ε)} {result : Resolved ε}
    (h : Follows C m s result s') : FollowsOutcome C m s (some result, s') := by
  intro result' hresult
  cases hresult
  exact h

/-- A call first. -/
theorem FollowsOutcome.bind {α : Type} {m : Task ε α} {f : α → Task ε (Resolved ε)} {a : α}
    {o : Outcome ε} (h : Follows C m s a s') (hf : FollowsOutcome C (f a) s' o) :
    FollowsOutcome C (m >>= f) s o := fun result hresult => h.bind (hf result hresult)

/-- **The resolver** does what the function does, whatever is put in for `perform`. -/
theorem followsOutcome_resolve (hC : Clocked C)
    (hperform : ∀ qname qtype s, FollowsOutcome C (perform qname qtype) s (perform' qname qtype s))
    (qname : String) (qtype : QueryType) (recursive : Bool) (s : Resolving ε) :
    FollowsOutcome C (resolve (settingsOf C) perform qname qtype recursive) s
      (DnsResolver.resolve C perform' qname qtype recursive s) := by
  -- the two go through the same branches, one after the other
  by_cases hunknown : ∃ num, qtype = .unknown num
  · obtain ⟨num, rfl⟩ := hunknown
    exact followsOutcome_some follows_refl
  have hknown : ∀ num, qtype = .unknown num → False := fun num h => hunknown ⟨num, h⟩
  rw [resolve, DnsResolver.resolve]
  rotate_left
  · exact hknown
  · exact hknown
  rw [show (settingsOf C).authority = C.authority from rfl]
  cases Authority.query C.authority qname qtype with
  | some qr => exact followsOutcome_some follows_refl
  | none =>
    dsimp only
    by_cases hrefused : ¬ recursive ∨ ¬ C.allowRecursive
    · rw [if_pos hrefused, if_pos (show ¬ recursive ∨ ¬ (settingsOf C).allowRecursive from hrefused)]
      exact followsOutcome_some follows_refl
    rw [if_neg hrefused, if_neg (show ¬ (¬ recursive ∨ ¬ (settingsOf C).allowRecursive) from hrefused)]
    refine FollowsOutcome.bind (follows_lookup hC) ?_
    cases s.lookup C qname qtype with
    | some qr => exact followsOutcome_some follows_refl
    | none =>
      refine FollowsOutcome.bind (follows_lookupAlias hC) ?_
      dsimp only
      cases (if qtype = .a ∨ qtype = .aaaa then s.tick.lookup C qname .cname else none) with
      | some qr => exact followsOutcome_some follows_refl
      | none =>
        have hfilters : Follows C (lookupFilters qname qtype (List.range C.filters.length)) s.tick.tick
            (DnsResolver.lookupFilters C qname qtype C.filters s.tick.tick).1
            (DnsResolver.lookupFilters C qname qtype C.filters s.tick.tick).2 := by
          rw [List.range_eq_range']
          exact follows_lookupFilters hC [] C.filters rfl s.tick.tick
        refine FollowsOutcome.bind hfilters ?_
        dsimp only
        rcases DnsResolver.lookupFilters C qname qtype C.filters s.tick.tick with ⟨packet, s'⟩
        cases packet with
        | some packet => exact followsOutcome_some follows_refl
        | none => exact hperform qname qtype s'

end

end DnsWorkers

/-! ## The recursive resolver -/

open DnsWorkers (Follows FollowsOutcome Clocked settingsOf follows_pure follows_refl follows_lookup
  follows_random follows_random_tick follows_storeResponse follows_storeNxdomain follows_sendQuery
  followsOutcome_some followsOutcome_resolve)

namespace RecursiveDnsResolver

variable {ε : Type} {C : ServerContext ε} {s : Resolving ε} {ns qname : String} {qtype : QueryType}
  {response : DnsPacket} {loop : DnsWorkers.RecursiveDnsResolver.QueryLoop ε} {loop' : QueryLoop ε}

/-- One domain on the way to the root. -/
theorem follows_knownNs (hC : Clocked C) {domain : String} :
    Follows C (DnsWorkers.RecursiveDnsResolver.knownNs domain) s
      ((((s.lookup C domain .ns).bind fun qr => qr.getUnresolvedNs (C.random s.ticks) domain).bind
        fun ns => s.tick.lookup C ns .a).bind fun qr => qr.getRandomA (C.random s.tick.ticks))
      s.tick.tick := by
  unfold DnsWorkers.RecursiveDnsResolver.knownNs
  refine (follows_lookup hC).bind ?_
  cases s.lookup C domain .ns with
  | none => exact follows_pure rfl rfl (hC s.tick.ticks)
  | some qr =>
    refine (follows_random (n := C.random s.ticks)).bind ?_
    rw [Option.bind_some]
    cases qr.getUnresolvedNs (C.random s.ticks) domain with
    | none => exact follows_pure rfl rfl (hC s.tick.ticks)
    | some ns =>
      refine (follows_lookup hC).bind ?_
      rw [Option.bind_some]
      cases s.tick.lookup C ns .a with
      | none => exact follows_refl
      | some qr' => exact (follows_random (n := C.random s.tick.ticks)).bind follows_refl

/-- The search for the closest name server. -/
theorem follows_closestNs (hC : Clocked C) (labels : List (List String)) (s : Resolving ε) :
    Follows C (DnsWorkers.RecursiveDnsResolver.closestNs labels) s (closestNs C labels s).1
      (closestNs C labels s).2 := by
  induction labels generalizing s with
  | nil => exact follows_refl
  | cons labels rest ih =>
    unfold DnsWorkers.RecursiveDnsResolver.closestNs closestNs
    refine (follows_knownNs hC).bind ?_
    dsimp only
    generalize (((s.lookup C (".".intercalate labels) .ns).bind fun qr =>
      qr.getUnresolvedNs (C.random s.ticks) (".".intercalate labels)).bind
        fun ns => s.tick.lookup C ns .a).bind (fun qr => qr.getRandomA (C.random s.tick.ticks)) = addr
    cases addr with
    | some addr => exact follows_refl
    | none => exact ih s.tick.tick

/-- The two loops do the same. -/
def SameLoop (C : ServerContext ε) (loop : DnsWorkers.RecursiveDnsResolver.QueryLoop ε)
    (loop' : QueryLoop ε) : Prop :=
  ∀ ns qname qtype s, FollowsOutcome C (loop ns qname qtype) s (loop' ns qname qtype s)

/-- The start of the recursion. -/
theorem followsOutcome_performWith (hC : Clocked C) (hloop : SameLoop C loop loop') (qname : String)
    (qtype : QueryType) (s : Resolving ε) :
    FollowsOutcome C (DnsWorkers.RecursiveDnsResolver.performWith loop qname qtype) s
      (performWith C loop' qname qtype s) := by
  unfold DnsWorkers.RecursiveDnsResolver.performWith performWith
  refine FollowsOutcome.bind (follows_closestNs hC (splitDots qname).tails s) ?_
  rcases closestNs C (splitDots qname).tails s with ⟨ns, s'⟩
  cases ns with
  | none => exact followsOutcome_some follows_refl
  | some ns => exact hloop ns qname qtype s'

/-- A referral is followed. -/
theorem followsOutcome_followReferral (hC : Clocked C) (hloop : SameLoop C loop loop')
    (s : Resolving ε) :
    FollowsOutcome C
      (DnsWorkers.RecursiveDnsResolver.followReferral (settingsOf C) loop response qname qtype) s
      (followReferral C loop' response qname qtype s) := by
  unfold DnsWorkers.RecursiveDnsResolver.followReferral followReferral
  refine FollowsOutcome.bind (follows_random_tick hC (n := C.random s.ticks)) ?_
  cases response.getResolvedNs (C.random s.ticks) qname with
  | some newNs => exact FollowsOutcome.bind (follows_storeResponse hC) (hloop newNs qname qtype _)
  | none =>
    refine FollowsOutcome.bind (follows_random_tick hC (n := C.random s.tick.ticks)) ?_
    dsimp only
    cases response.getUnresolvedNs (C.random s.tick.ticks) qname with
    | none => exact followsOutcome_some follows_refl
    | some newNsName =>
      -- the address of the name server is resolved with the same loop, on less fuel
      have hnested := followsOutcome_resolve hC (followsOutcome_performWith hC hloop) newNsName .a true
        s.tick.tick
      dsimp only
      generalize DnsResolver.resolve C (performWith C loop') newNsName .a true s.tick.tick = nested
        at hnested
      obtain ⟨o, s'⟩ := nested
      cases o with
      | none => exact fun result h => by cases h
      | some o =>
        refine FollowsOutcome.bind (hnested o rfl) ?_
        cases o with
        | error e => exact followsOutcome_some follows_refl
        | ok recursiveResponse =>
          refine FollowsOutcome.bind (follows_random_tick hC (n := C.random s'.ticks)) ?_
          unfold afterNested
          dsimp only
          cases recursiveResponse.getRandomA (C.random s'.ticks) with
          | some newNs => exact hloop newNs qname qtype s'.tick
          | none => exact followsOutcome_some follows_refl

/-- One round of the recursion. -/
theorem followsOutcome_iteration (hC : Clocked C) (hloop : SameLoop C loop loop') (s : Resolving ε) :
    FollowsOutcome C (DnsWorkers.RecursiveDnsResolver.iteration (settingsOf C) loop ns qname qtype) s
      (iteration C loop' ns qname qtype s) := by
  unfold DnsWorkers.RecursiveDnsResolver.iteration iteration
  refine FollowsOutcome.bind follows_sendQuery ?_
  dsimp only
  cases C.sendQuery s.sent (queryTo ns qname qtype) with
  | error e => exact followsOutcome_some follows_refl
  | ok response =>
    dsimp only
    split_ifs
    · exact followsOutcome_some ((follows_storeResponse hC).bind follows_refl)
    · cases response.getTtlFromSoa with
      | none => exact followsOutcome_some follows_refl
      | some ttl => exact followsOutcome_some ((follows_storeNxdomain hC).bind follows_refl)
    · exact followsOutcome_followReferral hC hloop _

/-- **The loop of the resolver**, with the same fuel. -/
theorem sameLoop_queryLoop (hC : Clocked C) (fuel : ℕ) :
    SameLoop C (DnsWorkers.RecursiveDnsResolver.queryLoop (settingsOf C) fuel) (queryLoop C fuel) := by
  induction fuel with
  | zero => exact fun _ _ _ _ _ h => by cases h
  | succ fuel ih => exact fun ns qname qtype s => followsOutcome_iteration hC ih s

end RecursiveDnsResolver

/-! ## The server -/

/-- The resolver of a context as the server calls it, with so much fuel for each resolution. -/
def RecursiveDnsResolver.resolver {ε : Type} (C : ServerContext ε) (fuel : ℕ) : Resolve (Resolving ε) :=
  fun qname qtype recursive s =>
    match DnsResolver.resolve C (performWith C (queryLoop C fuel)) qname qtype recursive s with
    | (none, _) => .error .unfinished
    | (some (.error _), s) => .ok (none, s)
    | (some (.ok packet), s) => .ok (some packet, s)

/-- Requests are served one after the other, from one state to the next. -/
def RecursiveDnsResolver.serveAll {ε : Type} (C : ServerContext ε) (requests : List DnsWorkers.Request) :
    StateT (Resolving ε) Exec (List DnsPacket) :=
  requests.mapM fun request => executeQuery C.allowRecursive (resolver C request.fuel) request.packet

section

variable {ε : Type} {C : ServerContext ε} {s s' : Resolving ε} {fuel : ℕ}

/-- What the server learns of a resolution, the worker learns too. -/
theorem follows_resolver (hC : Clocked C) {qname : String} {qtype : QueryType} {recursive : Bool}
    {packet : Option DnsPacket}
    (h : RecursiveDnsResolver.resolver C fuel qname qtype recursive s = .ok (packet, s')) :
    ∃ result, result.toOption = packet ∧
      Follows C (DnsWorkers.createResolver (settingsOf C) fuel qname qtype recursive) s result s' := by
  have hfollows := followsOutcome_resolve hC (RecursiveDnsResolver.followsOutcome_performWith hC
    (RecursiveDnsResolver.sameLoop_queryLoop hC fuel)) qname qtype recursive s
  unfold RecursiveDnsResolver.resolver at h
  generalize DnsResolver.resolve C _ qname qtype recursive s = o at hfollows h
  obtain ⟨result, t⟩ := o
  cases result with
  | none => cases h
  | some result =>
    cases result with
    | error e =>
      cases h
      exact ⟨.error e, rfl, hfollows _ rfl⟩
    | ok packet =>
      cases h
      exact ⟨.ok packet, rfl, hfollows _ rfl⟩

/-- The chain of CNAMEs, by induction on how deep it may go, and on each level over the list. -/
theorem follows_resolveCnames (hC : Clocked C) {qtype : QueryType} (levels : ℕ)
    {lookupList : List DnsRecord} {results results' : List DnsPacket}
    (h : resolveCnames (RecursiveDnsResolver.resolver C fuel) qtype levels lookupList results s
      = .ok (results', s')) :
    Follows C (DnsWorkers.resolveCnames (DnsWorkers.createResolver (settingsOf C) fuel) qtype levels
      lookupList results) s results' s' := by
  induction levels generalizing lookupList results results' s s' with
  | zero =>
    cases h
    exact follows_refl
  | succ levels ih =>
    rw [resolveCnames] at h
    rw [DnsWorkers.resolveCnames]
    induction lookupList generalizing results s with
    | nil =>
      cases h
      exact follows_refl
    | cons rec lookupList ihlist =>
      rw [List.foldlM_cons] at h ⊢
      obtain ⟨⟨between, t⟩, hround, h⟩ := Exec.bind_eq_ok.mp h
      refine Follows.bind ?_ (ihlist h)
      cases hhost : rec.targetHost? with
      | none =>
        rw [hhost] at hround
        cases hround
        exact follows_refl
      | some host =>
        rw [hhost] at hround
        obtain ⟨⟨packet, u⟩, hresolve, hround⟩ := Exec.bind_eq_ok.mp hround
        obtain ⟨result, rfl, hfollows⟩ := follows_resolver hC hresolve
        refine hfollows.bind ?_
        cases result with
        | error e =>
          cases hround
          exact follows_refl
        | ok result2 => exact ih hround

/-- **The server** does what the function does. -/
theorem follows_executeQuery (hC : Clocked C) {request packet : DnsPacket}
    (h : executeQuery C.allowRecursive (RecursiveDnsResolver.resolver C fuel) request s
      = .ok (packet, s')) :
    Follows C (DnsWorkers.serve (settingsOf C) ⟨request, fuel⟩) s packet s' := by
  unfold DnsWorkers.serve DnsWorkers.executeQuery
  rw [show (settingsOf C).allowRecursive = C.allowRecursive from rfl]
  unfold executeQuery at h
  dsimp only at h ⊢
  split_ifs at h ⊢
  · cases h
    exact follows_refl
  · cases hquestions : request.questions with
    | nil =>
      rw [hquestions] at h
      cases h
      exact follows_refl
    | cons question rest =>
      rw [hquestions] at h
      obtain ⟨⟨first, t⟩, hfirst, h⟩ := Exec.bind_eq_ok.mp h
      obtain ⟨result, rfl, hfollows⟩ := follows_resolver hC hfirst
      refine hfollows.bind ?_
      cases result with
      | error e =>
        cases h
        exact follows_refl
      | ok result =>
        obtain ⟨⟨results, u⟩, hresults, h⟩ := Exec.bind_eq_ok.mp h
        cases h
        exact (follows_resolveCnames hC 11 hresults).bind follows_refl

end

namespace DnsWorkers

variable {ε : Type}

/-- One after the other, from any pool on that nobody works in. -/
theorem exists_run_serveAll {C : ServerContext ε} {s s' : Resolving ε} {threads : ℕ} (hC : Clocked C)
    {p : Server ε threads} (run : Runs (settingsOf C) (answersOf C) (C.now 0) p)
    (hidle : ∀ i, p.workers i = .waiting) (hcache : p.shared.cache = s.cache)
    (hclock : p.shared.clock ≤ C.now s.ticks) (handed : List (Fin threads × Request))
    {packets : List DnsPacket} (h : RecursiveDnsResolver.serveAll C (handed.map Prod.snd) s = .ok (packets, s')) :
    ∃ q : Server ε threads, Runs (settingsOf C) (answersOf C) (C.now 0) q ∧
      (∀ i, q.workers i = .waiting) ∧ q.shared.cache = s'.cache ∧
      (∃ acts, Pool.acted q.record = Pool.acted p.record ++ acts ∧
        s'.sent = (queries acts).reverse ++ s.sent) ∧
      Pool.served q.record = Pool.served p.record ++
        (handed.zip packets).map fun (x, packet) => (x.1, x.2, packet) := by
  induction handed generalizing p s packets with
  | nil =>
    cases h
    exact ⟨p, run, hidle, hcache, ⟨[], (List.append_nil _).symm, rfl⟩, (List.append_nil _).symm⟩
  | cons x handed ih =>
    obtain ⟨i, request⟩ := x
    rw [RecursiveDnsResolver.serveAll, List.map_cons, List.mapM_cons] at h
    obtain ⟨⟨packet, t⟩, hfirst, h⟩ := Exec.bind_eq_ok.mp h
    obtain ⟨⟨rest, u⟩, hrest, h⟩ := Exec.bind_eq_ok.mp h
    cases h
    obtain ⟨acts, clock, hyields, hclock', hpath, hsent⟩ :=
      follows_executeQuery hC hfirst p.shared.clock hclock
    -- nobody else works, so the pool may take the path of this worker
    rw [← hcache] at hpath
    obtain ⟨record, hrun, hacted, hserved, -⟩ := Pool.run_alone run (hidle i) hyields hpath
    obtain ⟨q, hrunq, hidleq, hcacheq, ⟨acts', hacted', hsent'⟩, hserved'⟩ :=
      ih (s := t) hrun hidle rfl hclock' hrest
    refine ⟨q, hrunq, hidleq, hcacheq, ⟨acts ++ acts', ?_, ?_⟩, ?_⟩
    · rw [hacted', hacted, List.append_assoc]
    · rw [hsent', hsent, queries_append, List.reverse_append, List.append_assoc]
    · rw [hserved', hserved, List.append_assoc, List.zip_cons_cons, List.map_cons,
        List.singleton_append]

/-- **The resolver as a function is one of the runs of the workers.**  Requests that are handed to
workers one after the other are answered with the packets of the function; the queries sent to
upstream servers, and the cache in the end, are those of the function. -/
theorem run_sequential (C : ServerContext ε) (hC : Clocked C) {threads : ℕ}
    (handed : List (Fin threads × Request)) {packets : List DnsPacket} {s : Resolving ε}
    (h : RecursiveDnsResolver.serveAll C (handed.map Prod.snd) ⟨Cache.new, 0, []⟩ = .ok (packets, s)) :
    ∃ p : Server ε threads, Runs (settingsOf C) (answersOf C) (C.now 0) p ∧
      (∀ i, p.workers i = .waiting) ∧ p.shared.cache = s.cache ∧
      queries (Pool.acted p.record) = s.sent.reverse ∧
      Pool.served p.record = (handed.zip packets).map fun (x, packet) => (x.1, x.2, packet) := by
  obtain ⟨p, run, hidle, hcache, ⟨acts, hacted, hsent⟩, hserved⟩ :=
    exists_run_serveAll hC (p := Pool.idle ⟨Cache.new, C.now 0⟩) (.refl _) (fun _ => rfl) rfl le_rfl
      handed h
  refine ⟨p, run, hidle, hcache, ?_, hserved⟩
  rw [hsent, hacted, List.append_nil, List.reverse_reverse]
  rfl

namespace Sample

/-- The name server of the root, which the filter knows, and no other. -/
def rootServer : List DnsRecord := [.ns "" "a.root" 3600, .a "a.root" ⟨#v[198, 51, 100, 8]⟩ 3600]

/-- A filter that only knows the root, and a name server that knows everything. -/
def rooted : ServerContext Empty where
  authority := settings.authority
  filters := [fun _ qname _ => if qname = "" then some { answers := rootServer } else none]
  allowRecursive := true
  sendQuery _ _ := .ok { answers := [record] }
  now k := k
  random _ := 0

/-- Its clock goes by the ticks. -/
theorem clocked_rooted : Clocked rooted := fun k => Int.ofNat_le.mpr k.le_succ

/-- A client asks for the root, and then another one for a name. -/
def handed : List (Fin 2 × Request) :=
  [(⟨0, Nat.two_pos⟩, ⟨{ header := { recursionDesired := true }, questions := [⟨"", .ns⟩] }, 1⟩),
    (⟨1, Nat.one_lt_two⟩, ⟨query.packet, 1⟩)]

end Sample

/-- The second client makes its worker ask the name server that the first one has made known. -/
theorem run_sequential_rooted : ∃ p : Server Empty 2,
    Runs (settingsOf Sample.rooted) (answersOf Sample.rooted) 0 p ∧ (∀ i, p.workers i = .waiting) ∧
      (queries (Pool.acted p.record)).map (fun x => (x.1.server, x.1.qname)) =
        [("198.51.100.8:53", "a.b")] ∧
      (Pool.served p.record).map (fun x => (x.1, x.2.2.answers)) =
        [(0, Sample.rootServer), (1, [Sample.record])] := by
  obtain ⟨⟨packets, s⟩, h, hpackets, hsent⟩ : ∃ r, RecursiveDnsResolver.serveAll Sample.rooted
      (Sample.handed.map Prod.snd) ⟨Cache.new, 0, []⟩ = .ok r ∧
      (Sample.handed.zip r.1).map (fun x => (x.1.1, x.2.answers))
        = [(0, Sample.rootServer), (1, [Sample.record])] ∧
      r.2.sent.map (fun x => (x.1.server, x.1.qname)) = [("198.51.100.8:53", "a.b")] := by
    decide +kernel
  obtain ⟨p, hrun, hidle, -, hqueries, hserved⟩ :=
    run_sequential Sample.rooted Sample.clocked_rooted Sample.handed h
  refine ⟨p, hrun, hidle, ?_, ?_⟩
  · rw [hqueries, List.map_reverse, hsent]
    rfl
  · rw [hserved, List.map_map]
    exact hpackets

end DnsWorkers
