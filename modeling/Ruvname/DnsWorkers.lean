/-
# The workers of the DNS server

`execute_query` of `dns/server.rs` with the resolvers of `dns/resolve.rs`, as threads run them.  All
workers share one cache, each of whose methods takes its lock, and nothing else: between two calls of
a worker the others make theirs.  So a worker is a program that calls for a lookup, for a record to
be stored, for the answer of a filter or of an upstream server, and for a random number; and the
server is a pool of such workers.

The clock does not run backwards.  Upstream servers may answer anything; what the filters answer is a
parameter, and may change with time.  The local zones are read once, at the start.  The loop of the
recursive resolver runs on fuel, which a request brings along: whatever a worker has done so far is
done with fuel enough.
-/
import Ruvname.DnsServer
import Ruvname.Referrals
import Ruvname.Workers

namespace DnsWorkers

/-- `ResolveStrategy`. -/
inductive ResolveStrategy where
  | recursive
  | forward (upstreams : List String)

/-- The clients of `ServerContext`: `old_client` and `doh_client`. -/
inductive Client where
  | old
  | doh

/-- `ServerContext`, with what is shared left out: of the filters how many there are, of the clients
whether there is one for URLs. -/
structure Settings where
  authority : Zones
  filters : ℕ
  dohClient : Bool
  resolveStrategy : ResolveStrategy
  allowRecursive : Bool

/-- What a worker calls for. -/
inductive Command where
  | lookup (qname : String) (qtype : QueryType)
  /-- The lookup that `perform` of the forwarding resolver makes once more. -/
  | lookupAgain (qname : String) (qtype : QueryType)
  | store (records : List DnsRecord)
  | storeNxdomain (qname : String) (qtype : QueryType) (ttl : UInt32)
  /-- `lookup` of the filter with this number. -/
  | filter (n : ℕ) (qname : String) (qtype : QueryType)
  | sendQuery (client : Client) (query : UpstreamQuery) (recursive : Bool)
  | random
  /-- The thread stops, or runs on beyond its fuel. -/
  | stop

variable (ε : Type)

/-- The replies; `ε` is `ClientError`. -/
abbrev Reply : Command → Type
  | .lookup _ _ => Option DnsPacket
  | .lookupAgain _ _ => Option DnsPacket
  | .store _ => Unit
  | .storeNxdomain _ _ _ => Unit
  | .filter _ _ _ => Option DnsPacket
  | .sendQuery _ _ _ => Except ε DnsPacket
  | .random => ℕ
  | .stop => Empty

/-- What a worker has left to do. -/
abbrev Task (α : Type) := Program Command (Reply ε) α

/-- `Result<DnsPacket>` of `dns/resolve.rs`. -/
abbrev Resolved := Except (ResolveError ε) DnsPacket

variable {ε}

/-- `context.cache.lookup`. -/
def lookup (qname : String) (qtype : QueryType) : Task ε (Option DnsPacket) :=
  Program.ask (Command.lookup qname qtype)

def lookupAgain (qname : String) (qtype : QueryType) : Task ε (Option DnsPacket) :=
  Program.ask (Command.lookupAgain qname qtype)

/-- `context.cache.store`. -/
def store (records : List DnsRecord) : Task ε Unit := Program.ask (Command.store records)

/-- `context.cache.store_nxdomain`. -/
def storeNxdomain (qname : String) (qtype : QueryType) (ttl : UInt32) : Task ε Unit :=
  Program.ask (Command.storeNxdomain qname qtype ttl)

/-- `filter.lookup`. -/
def askFilter (n : ℕ) (qname : String) (qtype : QueryType) : Task ε (Option DnsPacket) :=
  Program.ask (Command.filter n qname qtype)

/-- `send_query`. -/
def sendQuery (client : Client) (query : UpstreamQuery) (recursive : Bool) :
    Task ε (Except ε DnsPacket) :=
  Program.ask (Command.sendQuery client query recursive)

def random : Task ε ℕ := Program.ask Command.random

/-- `panic!`, or a loop that runs on. -/
def stop {α : Type} : Task ε α := Program.call Command.stop fun r => r.elim

/-- The records of a response. -/
def storeResponse (response : DnsPacket) : Task ε Unit := do
  store response.answers
  store response.authorities
  store response.resources

/-! ## `dns/resolve.rs` -/

/-- The loop over the filters: the first one that answers. -/
def lookupFilters (qname : String) (qtype : QueryType) : List ℕ → Task ε (Option DnsPacket)
  | [] => pure none
  | n :: rest => do
    match ← askFilter n qname qtype with
    | some packet =>
      store packet.answers
      pure (some packet)
    | none => lookupFilters qname qtype rest

/-- An alias will do where an address is asked for. -/
def lookupAlias (qname : String) (qtype : QueryType) : Task ε (Option DnsPacket) :=
  if qtype = .a ∨ qtype = .aaaa then lookup qname .cname else pure none

/-- `resolve`, which every resolver has from its `perform`. -/
def resolve (S : Settings) (perform : String → QueryType → Task ε (Resolved ε)) (qname : String)
    (qtype : QueryType) (recursive : Bool) : Task ε (Resolved ε) :=
  match qtype with
  | .unknown _ => pure (.ok { header := { rescode := .notimp } })
  | qtype =>
    match Authority.query S.authority qname qtype with
    | some qr => pure (.ok qr)
    | none =>
      if ¬ recursive ∨ ¬ S.allowRecursive then pure (.ok { header := { rescode := .refused } })
      else do
        match ← lookup qname qtype with
        | some qr => pure (.ok qr)
        | none =>
          match ← lookupAlias qname qtype with
          | some qr => pure (.ok qr)
          | none =>
            match ← lookupFilters qname qtype (List.range S.filters) with
            | some packet => pure (.ok packet)
            | none => perform qname qtype

namespace RecursiveDnsResolver

/-- The address of a name server of the domain, as far as the cache knows. -/
def knownNs (domain : String) : Task ε (Option String) := do
  match ← lookup domain .ns with
  | none => pure none
  | some qr =>
    match qr.getUnresolvedNs (← random) domain with
    | none => pure none
    | some ns =>
      match ← lookup ns .a with
      | none => pure none
      | some qr => pure (qr.getRandomA (← random))

/-- The address of the closest name server: that of the name, of the name without its first label,
and so on up to the root. -/
def closestNs : List (List String) → Task ε (Option String)
  | [] => pure none
  | labels :: rest => do
    match ← knownNs (".".intercalate labels) with
    | some addr => pure (some addr)
    | none => closestNs rest

/-- What asks name servers, the first one given, for a name and a type. -/
abbrev QueryLoop (ε : Type) := String → String → QueryType → Task ε (Resolved ε)

/-- `perform` up to its loop. -/
def performWith (queryLoop : QueryLoop ε) (qname : String) (qtype : QueryType) :
    Task ε (Resolved ε) := do
  match ← closestNs (splitDots qname).tails with
  | none => pure (.error .noServerFound)
  | some ns => queryLoop ns qname qtype

/-- How the loop of `perform` goes on without an answer. -/
def followReferral (S : Settings) (loop : QueryLoop ε) (response : DnsPacket) (qname : String)
    (qtype : QueryType) : Task ε (Resolved ε) := do
  match response.getResolvedNs (← random) qname with
  | some newNs =>
    storeResponse response
    loop newNs qname qtype
  | none =>
    match response.getUnresolvedNs (← random) qname with
    | none => pure (.ok response)
    | some newNsName =>
      -- the name server has to be found by a resolution of its own
      match ← resolve S (performWith loop) newNsName .a true with
      | .error e => pure (.error e)
      | .ok recursiveResponse =>
        match recursiveResponse.getRandomA (← random) with
        | some newNs => loop newNs qname qtype
        | none => pure (.ok response)

/-- The body of the loop of `perform`; `loop` is what `continue` does. -/
def iteration (S : Settings) (loop : QueryLoop ε) (ns qname : String) (qtype : QueryType) :
    Task ε (Resolved ε) := do
  match ← sendQuery .old (RecursiveDnsResolver.queryTo ns qname qtype) false with
  | .error e => pure (.error (.client e))
  | .ok response =>
    if response.answers ≠ [] ∧ response.header.rescode = .noerror then
      storeResponse response
      pure (.ok response)
    else if response.header.rescode = .nxdomain then
      match response.getTtlFromSoa with
      | some ttl =>
        storeNxdomain qname qtype ttl
        pure (.ok response)
      | none => pure (.ok response)
    else followReferral S loop response qname qtype

/-- The loop of `perform`, until so many iterations follow or are inside one another. -/
def queryLoop (S : Settings) : ℕ → QueryLoop ε
  | 0, _, _, _ => stop
  | fuel + 1, ns, qname, qtype => iteration S (queryLoop S fuel) ns qname qtype

/-- `perform`. -/
def perform (S : Settings) (fuel : ℕ) : String → QueryType → Task ε (Resolved ε) :=
  performWith (queryLoop S fuel)

end RecursiveDnsResolver

namespace ForwardingDnsResolver

/-- `is_url`. -/
def isUrl (url : String) : Bool := "https://".toList.isPrefixOf url.toList

/-- The `result` of `perform`: what another worker has stored in the meantime, or what the upstream
server answers. -/
def result (S : Settings) (upstream qname : String) (qtype : QueryType) : Task ε (Resolved ε) := do
  match ← lookupAgain qname qtype with
  | some packet => pure (.ok packet)
  | none =>
    if isUrl upstream then
      if S.dohClient then
        let answer ← sendQuery .doh ⟨upstream, qname, qtype⟩ true
        pure (answer.mapError .client)
      else pure (.error .noServerFound)
    else
      let answer ← sendQuery .old ⟨upstream, qname, qtype⟩ true
      pure (answer.mapError .client)

/-- `perform`: without upstream servers there is none to choose. -/
def perform (S : Settings) (upstreams : List String) (qname : String) (qtype : QueryType) :
    Task ε (Resolved ε) := do
  match DnsPacket.pick (← random) upstreams with
  | none => stop
  | some upstream =>
    match ← result S upstream qname qtype with
    | .error e => pure (.error e)
    | .ok packet =>
      store packet.answers
      pure (.ok packet)

end ForwardingDnsResolver

/-- `create_resolver`. -/
def createResolver (S : Settings) (fuel : ℕ) : String → QueryType → Bool → Task ε (Resolved ε) :=
  match S.resolveStrategy with
  | .recursive => resolve S (RecursiveDnsResolver.perform S fuel)
  | .forward upstreams => resolve S (ForwardingDnsResolver.perform S upstreams)

/-! ## `dns/server.rs` -/

/-- `resolve_cnames`; the number is how much deeper it may go, 11 less the depth. -/
def resolveCnames (resolver : String → QueryType → Bool → Task ε (Resolved ε)) (qtype : QueryType) :
    ℕ → List DnsRecord → List DnsPacket → Task ε (List DnsPacket)
  | 0, _, results => pure results
  | levels + 1, lookupList, results =>
    lookupList.foldlM (fun results rec =>
      match rec.targetHost? with
      | none => pure results
      | some host => do
        match ← resolver host qtype true with
        | .error _ => pure results
        | .ok result2 =>
          resolveCnames resolver qtype levels (result2.getUnresolvedCnames qtype)
            (results ++ [result2])) results

/-- `execute_query`. -/
def executeQuery (allowRecursive : Bool) (resolver : String → QueryType → Bool → Task ε (Resolved ε))
    (request : DnsPacket) : Task ε DnsPacket :=
  let header : DnsHeader :=
    { id := request.header.id
      recursionAvailable := allowRecursive
      recursionDesired := request.header.recursionDesired
      response := true }
  if request.header.recursionDesired && !allowRecursive then
    pure { header := { header with rescode := .refused } }
  else
    match request.questions with
    | [] => pure { header := { header with rescode := .formerr } }
    | question :: _ => do
      match ← resolver question.name question.qtype request.header.recursionDesired with
      | .error _ => pure { header := { header with rescode := .servfail }, questions := [question] }
      | .ok result =>
        let results ← resolveCnames resolver question.qtype 11
          (result.getUnresolvedCnames question.qtype) [result]
        pure
          { header := { header with
              rescode := result.header.rescode
              authoritativeAnswer := result.header.authoritativeAnswer }
            questions := [question]
            answers := (results.flatMap DnsPacket.answers).foldl pushNew []
            authorities := (results.flatMap DnsPacket.authorities).foldl pushNew []
            resources := (results.flatMap DnsPacket.resources).foldl pushNew [] }

/-- A request, and the fuel for it. -/
structure Request where
  packet : DnsPacket
  fuel : ℕ

/-- What a worker does about a request. -/
def serve (S : Settings) (request : Request) : Task ε DnsPacket :=
  executeQuery S.allowRecursive (createResolver S request.fuel) request.packet

/-! ## The pool -/

/-- What the workers share, and the time of the last call. -/
structure Shared where
  cache : Cache
  clock : ℤ

/-- What a call is to the cache. -/
def Command.cacheCall? : Command → Option CacheCall
  | .lookup qname qtype => some (.lookup qname qtype)
  | .lookupAgain qname qtype => some (.lookup qname qtype)
  | .store records => some (.store records)
  | .storeNxdomain qname qtype ttl => some (.storeNxdomain qname qtype ttl)
  | _ => none

/-- What each filter may answer at a time. -/
abbrev FilterAnswers := ℤ → ℕ → String → QueryType → Option DnsPacket → Prop

/-- The replies that a call may have. -/
def Replies (answers : FilterAnswers) (cache : Cache) : Act ℤ Command (Reply ε) → Prop
  | ⟨now, .lookup qname qtype, reply⟩ => reply = cache.lookup now qname qtype
  | ⟨now, .lookupAgain qname qtype, reply⟩ => reply = cache.lookup now qname qtype
  | ⟨now, .filter n qname qtype, reply⟩ => answers now n qname qtype reply
  | _ => True

/-- A call, and what it does to the cache. -/
structure Acts (answers : FilterAnswers) (s : Shared) (act : Act ℤ Command (Reply ε)) (t : Shared) :
    Prop where
  later : s.clock ≤ act.time
  clock : t.clock = act.time
  replies : Replies answers s.cache act
  cache : t.cache =
    match act.command.cacheCall? with
    | some c => s.cache.call (act.time, c)
    | none => s.cache

/-- The workers of the server. -/
abbrev Server (ε : Type) (threads : ℕ) :=
  Pool (Fin threads) Shared ℤ Command (Reply ε) Request DnsPacket

/-- An act of a worker. -/
abbrev Doing (ε : Type) := Act ℤ Command (Reply ε)

/-- A run of the server from its start, with an empty cache. -/
abbrev Runs (S : Settings) (answers : FilterAnswers) {threads : ℕ} (start : ℤ)
    (p : Server ε threads) : Prop :=
  Pool.Runs (serve S) (Acts answers) (Pool.idle ⟨Cache.new, start⟩) p

end DnsWorkers
