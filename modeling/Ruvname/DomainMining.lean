/-
# Mining a domain

What the interface does before a domain is mined: `check_domain` and `get_domain_zone` of
`commons/mod.rs`, the gate `can_mine_domain` of `chain.rs`, and `create_domain` of `web_ui.rs`, which
builds the block.

SHA-256, the box that encrypts the name and the writer of JSON are parameters, and so is
`char::is_numeric`.
-/
import Ruvname.Buffer
import Ruvname.Filter
import Ruvname.Mining

open Exec

/-! ## Names -/

section Names

-- `char::is_numeric`: the digits, and numbers of other scripts
variable (isNumericChar : Char → Bool)

/-- `is_numeric`. -/
def isNumeric (s : List Char) : Bool := s.all isNumericChar

/-- The loop of `check_domain`, with `last_dot` and `last_hyphen`.  A hyphen leaves the one of them
as it is, and a dot the other. -/
def checkDomainChars (allowDots : Bool) : Bool → Bool → List Char → Bool
  | _, _, [] => true
  | lastDot, lastHyphen, char :: chars =>
    if allowDots ∧ char = '.' then
      if lastDot then false else checkDomainChars allowDots true lastHyphen chars
    else if char = '-' then
      if lastHyphen then false else checkDomainChars allowDots lastDot true chars
    else if ¬ char.isAlphanum then false
    else checkDomainChars allowDots false false chars

/-- `check_domain`. -/
def checkDomain (name : String) (allowDots : Bool) : Bool :=
  let chars := name.toList
  if chars.head? = some '.' ∨ chars.head? = some '-'
      ∨ chars.getLast? = some '.' ∨ chars.getLast? = some '-' then false
  else
    match rsplitn 2 chars with
    | [_, rest] =>
      if (String.ofList rest).utf8ByteSize < 3 ∧ isNumeric isNumericChar rest then false
      else checkDomainChars allowDots false false chars
    | _ => checkDomainChars allowDots false false chars

end Names

/-- `get_domain_zone`. -/
def getDomainZone (domain : String) : String :=
  match rsplitn 2 domain.toList with
  | [] => ""
  | zone :: _ => String.ofList zone

/-! ## The gate -/

section Gate

variable (P : Platform) (U : Unicode) (isNumericChar : Char → Bool)
  (sha256 : List UInt8 → List UInt8)

/-- A registration that is alive or can be renewed, and belongs to another key. -/
def takenByOther (pubKey : Bytes) : Option Transaction → DomainState → Bool
  | some transaction, .alive _ _ => transaction.signing ≠ pubKey
  | some transaction, .expired _ _ => transaction.signing ≠ pubKey
  | _, _ => false

/-- `can_mine_domain`, at the reading `now` of the clock. -/
def Chain.canMineDomain (now : UtcTime) (c : Chain) (height : UInt64) (domain : String)
    (pubKey : Bytes) : Exec MineResult :=
  let name := U.toLowercase domain
  if ¬ checkDomain isNumericChar name true then .ok .wrongName
  else if ¬ c.isAvailableZone (getDomainZone name) then .ok .wrongZone
  else do
    let (transaction, state) ← c.getDomainTransactionAndState P sha256 now name
    if takenByOther pubKey transaction state then .ok .notOwned
    else c.canMineIdentity P (hashIdentity sha256 name none) height now.secs pubKey

end Gate

/-! ## The block -/

section Create

variable (P : Platform) (sha256 : List UInt8 → List UInt8)

/-- `Transaction::from_str`. -/
def Transaction.fromStr (identity method data : String) (signing encryption : Bytes) : Transaction where
  class' := method
  identity := hashIdentity sha256 identity none
  confirmation := hashIdentity sha256 identity (some signing)
  signing := signing
  encryption := encryption
  data := data

/-- What `create_domain` is given of a keystore besides the signing key, and the libraries it uses:
`CryptoBox::encrypt` and `serde_json::to_string`. -/
structure DomainWriter where
  /-- `get_encryption_public`. -/
  encryptionPublic : Bytes
  encrypt : Bytes → List UInt8 → Option Bytes
  toJson : DomainData → String

/-- `create_domain`, up to the queue of the miner. -/
def Chain.createDomain (W : DomainWriter) (now : UtcTime) (c : Chain) (class' name : String)
    (data : DomainData) (difficulty : UInt32) (keystore : Keystore P) (signing encryption : Bytes)
    (renewal : Bool) : Exec Block :=
  match W.encrypt encryption name.toUTF8.data.toList with
  | none => .error (.expect "Error encrypting domain name!")
  | some encrypted => do
    let data := W.toJson { data with encrypted := encrypted }
    let (signing, encryption) :=
      if signing.isEmpty ∨ encryption.isEmpty then (keystore.getPublic, W.encryptionPublic)
      else (signing, encryption)
    let transaction := Transaction.fromStr sha256 name class' data signing encryption
    -- If this domain is already in blockchain we approve slightly smaller difficulty
    let discount ← c.getIdentityDiscount P transaction.identity renewal c.getHeight now.secs
    let difficulty ← subU32 P.checks difficulty discount
    .ok (Block.new (some transaction) keystore.getPublic Bytes.default difficulty)

end Create
