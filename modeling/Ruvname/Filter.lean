/-
# Names answered from the chain

`BlockchainFilter` of `blockchain/filter.rs` with the queries it makes: `hash_identity` and
`check_identity`, `get_domain_transaction_and_state` and `get_domain_info`.  A name is looked up
by the hash of its last two labels.  SHA-256 is a parameter, and so is what the name servers of a
delegated domain answer (`lookup_from_ns` asks them over UDP).
-/
import Ruvname.Packet
import Ruvname.CheckBlock

open Exec

/-! ## Identities -/

section Identity

variable (sha256 : List UInt8 → List UInt8)

/-- `hash_identity`. -/
def hashIdentity (identity : String) (key : Option Bytes) : Bytes :=
  let base := sha256 identity.toUTF8.data.toList
  match key with
  | none => ⟨sha256 base⟩
  | some key => ⟨sha256 (base ++ key.data)⟩

/-- `check_identity`: the identity and the confirmation are those of the domain. -/
def Transaction.checkIdentity (t : Transaction) (domain : String) : Bool :=
  t.identity = hashIdentity sha256 domain none
    ∧ t.confirmation = hashIdentity sha256 domain (some t.signing)

end Identity

namespace Chain

variable (P : Platform) (sha256 : List UInt8 → List UInt8)

/-- `get_domain_transaction_and_state`. -/
def getDomainTransactionAndState (now : UtcTime) (c : Chain) (domain : String) :
    Exec (Option Transaction × DomainState) :=
  if domain = "" then .ok (none, .notFound)
  else do
    let (transaction, state) ← c.getIdentityTransactionAndState P (hashIdentity sha256 domain none)
      c.getHeight now.secs
    match transaction with
    | none => .ok (none, .notFound)
    | some transaction =>
      if transaction.checkIdentity sha256 domain then .ok (some transaction, state)
      else .ok (none, .notFound)

/-- `get_domain_info`: the data of a domain that has not expired. -/
def getDomainInfo (now : UtcTime) (c : Chain) (domain : String) : Exec (Option String) := do
  match ← c.getDomainTransactionAndState P sha256 now domain with
  | (some transaction, .alive _ _) => .ok (some transaction.data)
  | _ => .ok none

/-- `is_available_zone`. -/
def isAvailableZone (c : Chain) (zone : String) : Bool := c.zones.any fun z => z.name = zone

/-- `get_soa_serial`. -/
def getSoaSerial (c : Chain) : UInt32 :=
  match c.lastFullBlock with
  | none => 0
  | some block => block.timestamp.toUInt64.toUInt32

end Chain

/-! ## Labels -/

/-- `str::rsplitn` at dots: the labels from the last one on, at most `n` of them, the rest of the
name as it is. -/
def rsplitn : ℕ → List Char → List (List Char)
  | 0, _ => []
  | 1, s => [s]
  | n + 2, s =>
    match s.reverse.dropWhile (· ≠ '.') with
    | [] => [s]
    | _ :: rest => (s.reverse.takeWhile (· ≠ '.')).reverse :: rsplitn (n + 1) rest.reverse

/-! ## The filter -/

namespace BlockchainFilter

def nameServer : String := "ns.ruvcha.in"
def serverAdmin : String := "admin.ruvcha.in"

/-- `add_soa_record`. -/
def addSoaRecord (zone : String) (serial : UInt32) (packet : DnsPacket) : DnsPacket :=
  { packet with authorities := packet.authorities
      ++ [.soa zone nameServer serverAdmin serial 3600 300 604800 60 60] }

/-- `get_zone_response`: the packet with its SOA record, if the zone is ours. -/
def getZoneResponse (c : Chain) (zone : String) (serial : UInt32) (packet : DnsPacket) :
    Option DnsPacket :=
  if c.isAvailableZone zone then some (addSoaRecord zone serial packet) else none

/-- `create_packet`. -/
def createPacket (c : Chain) (qname : String) (qtype : QueryType) (zone : String)
    (answers : List DnsRecord) : DnsPacket :=
  if answers ≠ [] then
    { header := { authoritativeAnswer := true }
      questions := [⟨qname, qtype⟩]
      answers := answers
      authorities := [.ns zone nameServer 600] }
  else
    addSoaRecord zone c.getSoaSerial
      { header := { authoritativeAnswer := true, rescode := .nxdomain }
        questions := [⟨qname, qtype⟩] }

/-! ### Delegation -/

/-- The hosts of the NS records of the domain itself. -/
def nsHosts (records : List DnsRecord) : List String :=
  records.filterMap fun
    | .ns domain host _ => if domain = "@" then some host else none
    | _ => none

/-- The addresses that glue records give to the hosts, one for each host that matches. -/
def glueServers (topDomain : String) (hosts : List String) (records : List DnsRecord) :
    List IpAddr :=
  records.flatMap fun
    | .a domain addr _ =>
      (hosts.filter fun host => domain ++ "." ++ topDomain = host).map fun _ => .v4 addr
    | .aaaa domain addr _ =>
      (hosts.filter fun host => domain ++ "." ++ topDomain = host).map fun _ => .v6 addr
    | _ => []

/-- What the name servers answer. -/
abbrev LookupFromNs := String → QueryType → List IpAddr → Option DnsPacket

/-- `resolve_by_ns`: whether the domain is delegated, and the answer if it is. -/
def resolveByNs (lookupFromNs : LookupFromNs) (qname : String) (qtype : QueryType)
    (topDomain : String) (data : DomainData) : Bool × Option DnsPacket :=
  let hosts := nsHosts data.records
  if hosts = [] then (false, none)
  else
    let servers := glueServers topDomain hosts data.records
    if servers ≠ [] then (true, lookupFromNs qname qtype servers) else (false, none)

/-! ### Own records -/

/-- The domain of a record is overwritten; PTR and OPT records are left as they are. -/
def rename (qname : String) : DnsRecord → DnsRecord
  | .unknown _ qtype dataLen ttl => .unknown qname qtype dataLen ttl
  | .a _ addr ttl => .a qname addr ttl
  | .ns _ host ttl => .ns qname host ttl
  | .cname _ host ttl => .cname qname host ttl
  | .soa _ mName rName serial refresh retry expire minimum ttl =>
    .soa qname mName rName serial refresh retry expire minimum ttl
  | .ptr domain data ttl => .ptr domain data ttl
  | .mx _ priority host ttl => .mx qname priority host ttl
  | .txt _ data ttl => .txt qname data ttl
  | .aaaa _ addr ttl => .aaaa qname addr ttl
  | .srv _ priority weight port host ttl => .srv qname priority weight port host ttl
  | .opt packetLen flags data => .opt packetLen flags data
  | .tlsa _ usage selector matching data ttl => .tlsa qname usage selector matching data ttl

/-- What the first pass over the records has done so far: the records, some of them renamed, the
answers and the last alias. -/
structure Search where
  records : List DnsRecord := []
  answers : List DnsRecord := []
  cname : Option DnsRecord := none

/-- The first pass over the records, one record: if it is of the type asked for or an alias, it is
renamed when it stands for the queried name, and collected when its domain then matches. -/
def searchStep (qname : String) (qtype : QueryType) (subdomain : String) (acc : Search)
    (record : DnsRecord) : Search :=
  if record.getQuerytype = qtype ∨ record.getQuerytype = .cname then
    let record :=
      if (record.getDomain = some "@" ∧ subdomain = "") ∨ record.getDomain = some subdomain then
        rename qname record
      else record
    let acc := { acc with records := acc.records ++ [record] }
    if record.getDomain = some qname ∨ record.getDomain = some subdomain then
      if record.getQuerytype = .cname then { acc with cname := some record }
      else { acc with answers := acc.answers ++ [record] }
    else acc
  else { acc with records := acc.records ++ [record] }

/-- The second pass, one record: `*` stands for every subdomain. -/
def wildcardStep (qname : String) (qtype : QueryType) (subdomain : String)
    (acc : List DnsRecord × Bool) (record : DnsRecord) : List DnsRecord × Bool :=
  let recordDomain := record.getDomain.getD ""
  (if record.getQuerytype = qtype ∧ recordDomain = "*" then acc.1 ++ [rename qname record]
    else acc.1,
    acc.2 || decide (recordDomain = subdomain ∨ recordDomain = "*"))

/-- The answers that the records of a domain give, and whether the name exists. -/
def findAnswers (qname : String) (qtype : QueryType) (subdomain : String)
    (records : List DnsRecord) : List DnsRecord × Bool :=
  let search := records.foldl (searchStep qname qtype subdomain) {}
  let answers :=
    if search.answers = [] then search.cname.toList else search.answers
  let domainExists := answers ≠ [] ∨ subdomain = ""
  if answers = [] then search.records.foldl (wildcardStep qname qtype subdomain) ([], domainExists)
  else (answers, domainExists)

/-! ### Lookup -/

section Lookup

variable (P : Platform) (sha256 : List UInt8 → List UInt8) (lookupFromNs : LookupFromNs)

/-- The part of `lookup` after the name has been split. -/
def lookupDomain (now : UtcTime) (c : Chain) (qname : String) (qtype : QueryType)
    (topDomain subdomain zone : String) : Exec (Option DnsPacket) := do
  match ← c.getDomainInfo P sha256 now topDomain with
  | none =>
    if c.isAvailableZone zone then
      .ok (some (addSoaRecord zone c.getSoaSerial
        { header := { authoritativeAnswer := true, rescode := .nxdomain }
          questions := [⟨qname, qtype⟩] }))
    else .ok none
  | some info =>
    match ← P.parseDomainData info with
    | none => .ok none
    | some data =>
      let (hasNs, result) := resolveByNs lookupFromNs qname qtype topDomain data
      if hasNs then .ok result
      else
        let (answers, domainExists) := findAnswers qname qtype subdomain data.records
        let packet := createPacket c qname qtype zone answers
        .ok (some (if domainExists ∧ packet.answers = [] then
          { packet with header := { packet.header with rescode := .noerror } } else packet))

/-- `BlockchainFilter::lookup`. -/
def lookup (now : UtcTime) (c : Chain) (qname : String) (qtype : QueryType) :
    Exec (Option DnsPacket) :=
  match (rsplitn 3 qname.toList).map String.ofList with
  | [] => .ok none
  | [zone] => .ok (getZoneResponse c zone c.getSoaSerial {})
  | [zone, name] =>
    lookupDomain P sha256 lookupFromNs now c qname qtype (name ++ "." ++ zone) "" zone
  | zone :: name :: subdomain :: _ =>
    lookupDomain P sha256 lookupFromNs now c qname qtype (name ++ "." ++ zone) subdomain zone

end Lookup

end BlockchainFilter
