/-
# DNS records as a domain transaction carries them

`DnsRecord` of `dns/protocol.rs` with the two functions the block validator asks of a
record: the text of its data (`get_data`) and whether its address belongs to the
Ruvchain network (`is_ruvchain_record` of `commons/mod.rs`).
-/
import Ruvname.Bytes

/-! ## Addresses -/

/-- An IPv4 address, as its four octets. -/
structure Ipv4Addr where
  octets : Vector UInt8 4
  deriving DecidableEq, Repr

/-- The dotted form. -/
def Ipv4Addr.toText (addr : Ipv4Addr) : String :=
  ".".intercalate (addr.octets.toList.map fun x => toString x.toNat)

/-- An IPv6 address, as its eight segments. -/
structure Ipv6Addr where
  segments : Vector UInt16 8
  deriving DecidableEq, Repr

/-- The first byte of the address. -/
def Ipv6Addr.firstByte (addr : Ipv6Addr) : UInt8 := (addr.segments.toList.headD 0 >>> 8).toUInt8

/-- The IPv4 address that an IPv4-mapped IPv6 address `::ffff:a.b.c.d` carries. -/
def Ipv6Addr.toIpv4Mapped (addr : Ipv6Addr) : Option Ipv4Addr :=
  match addr.segments.toList with
  | [0, 0, 0, 0, 0, 0xffff, x, y] =>
    some ⟨#v[(x >>> 8).toUInt8, x.toUInt8, (y >>> 8).toUInt8, y.toUInt8]⟩
  | _ => none

/-- One segment in lower-case hexadecimal, without leading zeros. -/
def segmentText (x : UInt16) : String := String.ofList (Nat.toDigits 16 x.toNat)

/-- The first of the longest runs of zero segments, as its start and its length. -/
def longestZeroRun (segments : List UInt16) : ℕ × ℕ :=
  let step := fun (acc : (ℕ × ℕ) × (ℕ × ℕ)) (p : UInt16 × ℕ) =>
    let (longest, current) := acc
    if p.1 = 0 then
      let current := (if current.2 = 0 then p.2 else current.1, current.2 + 1)
      (if current.2 > longest.2 then current else longest, current)
    else (longest, (0, 0))
  (segments.zipIdx.foldl step ((0, 0), (0, 0))).1

/-- The text form of the standard library: IPv4-mapped addresses keep their dotted tail,
otherwise the longest run of at least two zero segments becomes `::`. -/
def Ipv6Addr.toText (addr : Ipv6Addr) : String :=
  match addr.toIpv4Mapped with
  | some ipv4 => "::ffff:" ++ ipv4.toText
  | none =>
    let segments := addr.segments.toList
    let join := fun (l : List UInt16) => ":".intercalate (l.map segmentText)
    let (start, len) := longestZeroRun segments
    if len > 1 then join (segments.take start) ++ "::" ++ join (segments.drop (start + len))
    else join segments

/-! ## Records -/

/-- `DnsRecord`: one constructor for each record type. -/
inductive DnsRecord where
  | unknown (domain : String) (qtype : UInt16) (dataLen : UInt16) (ttl : UInt32)
  | a (domain : String) (addr : Ipv4Addr) (ttl : UInt32)
  | ns (domain : String) (host : String) (ttl : UInt32)
  | cname (domain : String) (host : String) (ttl : UInt32)
  | soa (domain : String) (mName : String) (rName : String) (serial : UInt32) (refresh : UInt32)
      (retry : UInt32) (expire : UInt32) (minimum : UInt32) (ttl : UInt32)
  | ptr (domain : String) (data : String) (ttl : UInt32)
  | mx (domain : String) (priority : UInt16) (host : String) (ttl : UInt32)
  | txt (domain : String) (data : String) (ttl : UInt32)
  | aaaa (domain : String) (addr : Ipv6Addr) (ttl : UInt32)
  | srv (domain : String) (priority : UInt16) (weight : UInt16) (port : UInt16) (host : String)
      (ttl : UInt32)
  | opt (packetLen : UInt16) (flags : UInt32) (data : String)
  | tlsa (domain : String) (certificateUsage : UInt8) (selector : UInt8) (matchingType : UInt8)
      (data : List UInt8) (ttl : UInt32)
  deriving DecidableEq, Repr

namespace DnsRecord

/-- `get_data`: the data of a record as text; an OPT record has none. -/
def getData : DnsRecord → Option String
  | a _ addr _ => some addr.toText
  | aaaa _ addr _ => some addr.toText
  | ns _ host _ => some host
  | cname _ host _ => some host
  | srv _ _ _ _ host _ => some host
  | ptr _ data _ => some data
  | mx _ _ host _ => some host
  | txt _ data _ => some data
  | soa _ mName rName _ _ _ _ _ _ => some (mName ++ " @ " ++ rName)
  | unknown domain _ _ _ => some domain
  | tlsa domain usage selector matching data _ =>
    some (domain ++ " " ++ toString usage.toNat ++ " " ++ toString selector.toNat ++ " "
      ++ toString matching.toNat ++ " " ++ toHex data)
  | opt _ _ _ => none

end DnsRecord

/-- `is_ruvchain` on IPv6: the networks `fa00::/8` and `fb00::/8`. -/
def isRuvchain (addr : Ipv6Addr) : Bool := addr.firstByte = 0xfa ∨ addr.firstByte = 0xfb

/-- `is_ruvchain_record`: no IPv4 address at all, IPv6 addresses of the network only,
records without an address always. -/
def isRuvchainRecord : DnsRecord → Bool
  | .a _ _ _ => false
  | .aaaa _ addr _ => isRuvchain addr
  | _ => true
