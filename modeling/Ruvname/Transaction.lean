/-
# Transactions and domain data

`Transaction`, `DomainData` and `DomainState` of `transaction.rs`.  A transaction is
stored in the `blocks` table as JSON text.  `TransactionJson` is that text up to the JSON
and hexadecimal codecs: the members that are present and their values.  The serializer
skips a `Bytes` member that `is_zero` and an empty `data` string, the deserializer fills
a missing member with its default, so that a non-empty all-zero `Bytes` is read back as
the empty one (`TransactionJson.fromJson_toJson`).
-/
import Ruvname.Record

/-! ## Constants of `commons/constants.rs` -/

def chainVersion : UInt32 := 1

def originDifficulty : UInt32 := 28
def domainDifficulty : UInt32 := 24
def signerDifficulty : UInt32 := 16
def keystoreDifficulty : UInt32 := 23
def blocksWithoutDiscount : UInt64 := 4999

/-- Blocks start to be signed starting from this index. -/
def blockSignersStart : UInt64 := 35

/-- How many signers are chosen for signing. -/
def blockSignersAll : ℕ := 7

/-- Minimal signatures needed. -/
def blockSignersMin : UInt64 := 4

/-- Limited Confidence depth. -/
def limitedConfidenceDepth : UInt64 := 4

/-- One day in seconds. -/
def newDomainsInterval : Int64 := 86400

/-- One week in seconds. -/
def oneWeek : Int64 := 604800

/-- One year. -/
def domainLifetime : Int64 := 31536000

/-- One month: time for the owner to remine his domain and not to lose it. -/
def domainRenewTime : Int64 := 2592000

def maxRecords : ℕ := 30
def maxDataLen : ℕ := 255

def classOrigin : String := "origin"
def classDomain : String := "domain"

/-! ## Transactions -/

/-- `Transaction`: what a full block carries. -/
structure Transaction where
  class' : String
  identity : Bytes
  confirmation : Bytes
  signing : Bytes
  encryption : Bytes
  data : String
  deriving DecidableEq, Repr

/-- `TransactionType`. -/
inductive TransactionType where
  | unknown
  | signing
  | domain
  | origin
  deriving DecidableEq, Repr

/-- `Transaction::get_type`. -/
def Transaction.getType : Option Transaction → TransactionType
  | none => .signing
  | some t =>
    if t.class' = classDomain then .domain
    else if t.class' = classOrigin then .origin
    else .unknown

/-- `ContactsData`. -/
structure ContactsData where
  name : String
  value : String
  deriving DecidableEq, Repr

/-- `DomainData`: the parsed `data` of a domain transaction. -/
structure DomainData where
  encrypted : Bytes
  zone : String
  info : String
  records : List DnsRecord
  contacts : List ContactsData
  deriving DecidableEq, Repr

/-- `DomainState`. -/
inductive DomainState where
  /-- Not in blockchain, free to mine. -/
  | notFound
  /-- Active, not expired domain. -/
  | alive (renewedTime : Int64) (until' : Int64)
  /-- Expired, but can be renewed only by owner. -/
  | expired (renewedTime : Int64) (until' : Int64)
  /-- Expired and can be recaptured by anyone. -/
  | free (renewedTime : Int64)
  deriving DecidableEq, Repr

/-- `ZoneData`. -/
structure ZoneData where
  name : String
  ruvchain : Bool
  deriving DecidableEq, Repr

/-- `load_zones`: the names of `data/zones.txt`, seven of them bound to Ruvchain addresses. -/
def loadZones : List ZoneData :=
  ["ruv", "mesh", "node", "dnet", "p2p", "tamb", "tmb", "dweb", "dht", "hub"].map fun zone =>
    { name := zone
      ruvchain := zone ∈ ["ruv", "mesh", "node", "dnet", "p2p", "tamb", "tmb"] }

/-! ## The stored text of a transaction -/

/-- The JSON object written for a transaction: a member is `none` when it was skipped. -/
structure TransactionJson where
  class' : String
  identity : Option Bytes
  confirmation : Option Bytes
  signing : Option Bytes
  encryption : Option Bytes
  data : Option String
  deriving DecidableEq, Repr

/-- `skip_serializing_if = "Bytes::is_zero"`. -/
def Bytes.unlessZero (b : Bytes) : Option Bytes := if b.isZero then none else some b

/-- `Bytes` as read back: a skipped member becomes the default. -/
def Bytes.orDefault (b : Option Bytes) : Bytes := b.getD Bytes.default

namespace TransactionJson

/-- `Transaction::to_string`. -/
def toJson (t : Transaction) : TransactionJson where
  class' := t.class'
  identity := t.identity.unlessZero
  confirmation := t.confirmation.unlessZero
  signing := t.signing.unlessZero
  encryption := t.encryption.unlessZero
  data := if t.data = "" then none else some t.data

/-- `Transaction::from_json` on text written by `to_string`. -/
def fromJson (j : TransactionJson) : Transaction where
  class' := j.class'
  identity := Bytes.orDefault j.identity
  confirmation := Bytes.orDefault j.confirmation
  signing := Bytes.orDefault j.signing
  encryption := Bytes.orDefault j.encryption
  data := j.data.getD ""

end TransactionJson

/-- An all-zero byte string collapses to the empty one, any other is kept. -/
def Bytes.collapse (b : Bytes) : Bytes := if b.isZero then Bytes.default else b

/-- A member is read back without its zero bytes. -/
theorem Bytes.orDefault_unlessZero (b : Bytes) : Bytes.orDefault b.unlessZero = b.collapse := by
  unfold Bytes.orDefault Bytes.unlessZero Bytes.collapse
  split <;> rfl

/-- A transaction with its all-zero members emptied. -/
def Transaction.collapse (t : Transaction) : Transaction :=
  { t with
    identity := t.identity.collapse
    confirmation := t.confirmation.collapse
    signing := t.signing.collapse
    encryption := t.encryption.collapse }

/-- **What is read back from the stored text.**  Everything but all-zero byte strings
survives. -/
theorem TransactionJson.fromJson_toJson (t : Transaction) : fromJson (toJson t) = t.collapse := by
  have hdata : (if t.data = "" then none else some t.data).getD "" = t.data := by
    split
    · rename_i h
      rw [h]
      rfl
    · rfl
  simp only [fromJson, toJson, Transaction.collapse, Bytes.orDefault_unlessZero, hdata]

@[simp] theorem Transaction.collapse_class (t : Transaction) : t.collapse.class' = t.class' := rfl

/-- Dropping zero bytes twice drops nothing more. -/
theorem Bytes.collapse_collapse (b : Bytes) : b.collapse.collapse = b.collapse := by
  unfold collapse
  by_cases h : b.isZero
  · rw [if_pos h]
    rfl
  · rw [if_neg h, if_neg h]

/-- The same for a transaction. -/
theorem Transaction.collapse_collapse (t : Transaction) : t.collapse.collapse = t.collapse := by
  unfold collapse
  simp only [Bytes.collapse_collapse]
