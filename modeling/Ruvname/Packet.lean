/-
# DNS packets

The types of `dns/protocol.rs` that an answer is made of, and what the filters ask of a record:
its query type, its domain, and its address if it has one.
-/
import Ruvname.Record

/-- `QueryType`. -/
inductive QueryType where
  | unknown (num : UInt16)
  | a
  | ns
  | cname
  | soa
  | ptr
  | mx
  | txt
  | aaaa
  | srv
  | opt
  | tlsa
  deriving DecidableEq, Repr

/-- `ResultCode`. -/
inductive ResultCode where
  | noerror
  | formerr
  | servfail
  | nxdomain
  | notimp
  | refused
  deriving DecidableEq, Repr

/-- `DnsHeader`; the defaults are those of `DnsHeader::new`. -/
structure DnsHeader where
  id : UInt16 := 0
  recursionDesired : Bool := false
  truncatedMessage : Bool := false
  authoritativeAnswer : Bool := false
  opcode : UInt8 := 0
  response : Bool := false
  rescode : ResultCode := .noerror
  checkingDisabled : Bool := false
  authedData : Bool := false
  z : Bool := false
  recursionAvailable : Bool := false
  questions : UInt16 := 0
  answers : UInt16 := 0
  authoritativeEntries : UInt16 := 0
  resourceEntries : UInt16 := 0
  deriving DecidableEq, Repr

/-- `DnsQuestion`. -/
structure DnsQuestion where
  name : String
  qtype : QueryType
  deriving DecidableEq, Repr

/-- `DnsPacket`; the defaults are those of `DnsPacket::new`. -/
structure DnsPacket where
  header : DnsHeader := {}
  questions : List DnsQuestion := []
  answers : List DnsRecord := []
  authorities : List DnsRecord := []
  resources : List DnsRecord := []
  deriving DecidableEq, Repr

/-- All records of a packet. -/
def DnsPacket.records (packet : DnsPacket) : List DnsRecord :=
  packet.answers ++ packet.authorities ++ packet.resources

/-- `IpAddr` of the standard library. -/
inductive IpAddr where
  | v4 (addr : Ipv4Addr)
  | v6 (addr : Ipv6Addr)
  deriving DecidableEq, Repr

/-- `is_ruvchain`: an IPv6 address of the network. -/
def isRuvchainAddr : IpAddr → Bool
  | .v4 _ => false
  | .v6 addr => isRuvchain addr

namespace DnsRecord

/-- `get_querytype`. -/
def getQuerytype : DnsRecord → QueryType
  | unknown _ qtype _ _ => .unknown qtype
  | a _ _ _ => .a
  | ns _ _ _ => .ns
  | cname _ _ _ => .cname
  | soa _ _ _ _ _ _ _ _ _ => .soa
  | ptr _ _ _ => .ptr
  | mx _ _ _ _ => .mx
  | txt _ _ _ => .txt
  | aaaa _ _ _ => .aaaa
  | srv _ _ _ _ _ _ => .srv
  | opt _ _ _ => .opt
  | tlsa _ _ _ _ _ _ => .tlsa

/-- `get_domain`: an OPT record has none. -/
def getDomain : DnsRecord → Option String
  | unknown domain _ _ _ => some domain
  | a domain _ _ => some domain
  | ns domain _ _ => some domain
  | cname domain _ _ => some domain
  | soa domain _ _ _ _ _ _ _ _ => some domain
  | ptr domain _ _ => some domain
  | mx domain _ _ _ => some domain
  | txt domain _ _ => some domain
  | aaaa domain _ _ => some domain
  | srv domain _ _ _ _ _ => some domain
  | opt _ _ _ => none
  | tlsa domain _ _ _ _ _ => some domain

/-- `get_ttl`: an OPT record has none. -/
def getTtl : DnsRecord → UInt32
  | unknown _ _ _ ttl => ttl
  | a _ _ ttl => ttl
  | ns _ _ ttl => ttl
  | cname _ _ ttl => ttl
  | soa _ _ _ _ _ _ _ _ ttl => ttl
  | ptr _ _ ttl => ttl
  | mx _ _ _ ttl => ttl
  | txt _ _ ttl => ttl
  | aaaa _ _ ttl => ttl
  | srv _ _ _ _ _ ttl => ttl
  | opt _ _ _ => 0
  | tlsa _ _ _ _ _ ttl => ttl

/-- The address of an A or AAAA record. -/
def address? : DnsRecord → Option IpAddr
  | a _ addr _ => some (.v4 addr)
  | aaaa _ addr _ => some (.v6 addr)
  | _ => none

/-- A record passes `is_ruvchain_record` when its address, if any, passes `is_ruvchain`. -/
theorem isRuvchainRecord_iff (r : DnsRecord) :
    isRuvchainRecord r ↔ ∀ addr, r.address? = some addr → isRuvchainAddr addr := by
  cases r <;> simp [isRuvchainRecord, address?, isRuvchainAddr]

end DnsRecord
