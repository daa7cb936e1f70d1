/-
# The sizes of records

How many bytes a name, a question or a record takes depends on which names have been written
before, not on where they are (`Size`).
-/
import Ruvname.Encoding

open PacketBuffer

/-! ## Sizes -/

/-- A number of bytes, given the labels that have been written, and the labels afterwards. -/
abbrev Size := List String → ℕ × List String

namespace Size

def fixed (n : ℕ) : Size := fun known => (n, known)

def andThen (f g : Size) : Size := fun known =>
  ((f known).1 + (g (f known).2).1, (g (f known).2).2)

/-- All of a list, one after the other. -/
def all {α : Type} (f : α → Size) : List α → Size
  | [] => fixed 0
  | a :: as => (f a).andThen (all f as)

/-- The labels of a name that are left. -/
def labels : List String → Size
  | [] => fixed 1
  | label :: rest => fun known =>
    if ".".intercalate (label :: rest) ∈ known then (2, known)
    else (fixed (1 + label.utf8ByteSize)).andThen (labels rest)
      (".".intercalate (label :: rest) :: known)

/-- Items of one fixed size. -/
theorem all_fixed {α : Type} (n : ℕ) (as : List α) :
    all (fun _ => fixed n) as = fixed (n * as.length) := by
  induction as with
  | nil => rfl
  | cons a as ih =>
    rw [all, ih, List.length_cons, Nat.mul_succ, Nat.add_comm]
    rfl

/-- A suffix that is known costs a pointer. -/
theorem labels_of_mem {label : String} {rest known : List String}
    (h : ".".intercalate (label :: rest) ∈ known) : labels (label :: rest) known = (2, known) :=
  if_pos h

/-- One that is not costs its first label, and is known from there on. -/
theorem labels_of_not_mem {label : String} {rest known : List String}
    (h : ".".intercalate (label :: rest) ∉ known) :
    labels (label :: rest) known = (fixed (1 + label.utf8ByteSize)).andThen (labels rest)
      (".".intercalate (label :: rest) :: known) :=
  if_neg h

/-- A name. -/
def name (qname : String) : Size := labels (splitDots qname)

end Size

/-- A question. -/
def DnsQuestion.size (question : DnsQuestion) : Size := (Size.name question.name).andThen (.fixed 4)

namespace DnsRecord

/-- The names of a record, in the order in which they are written. -/
def names : DnsRecord → List String
  | unknown _ _ _ _ => []
  | a domain _ _ => [domain]
  | ns domain host _ => [domain, host]
  | cname domain host _ => [domain, host]
  | soa domain mName rName _ _ _ _ _ _ => [domain, mName, rName]
  | ptr domain data _ => [domain, data]
  | mx domain _ host _ => [domain, host]
  | txt domain _ _ => [domain]
  | aaaa domain _ _ => [domain]
  | srv domain _ _ _ host _ => [domain, host]
  | opt _ _ _ => []
  | tlsa domain _ _ _ _ _ => [domain]

/-- The bytes of a record besides its names. -/
def fixedSize : DnsRecord → ℕ
  | unknown _ _ _ _ => 0
  | a _ _ _ => 14
  | ns _ _ _ => 10
  | cname _ _ _ => 10
  | soa _ _ _ _ _ _ _ _ _ => 30
  | ptr _ _ _ => 10
  | mx _ _ _ _ => 12
  | txt _ data _ => 11 + data.utf8ByteSize
  | aaaa _ _ _ => 26
  | srv _ _ _ _ _ _ => 16
  | opt _ _ data => 11 + data.utf8ByteSize
  | tlsa _ _ _ _ data _ => 13 + data.length

/-- A record. -/
def size (rec : DnsRecord) : Size := (Size.all Size.name rec.names).andThen (.fixed rec.fixedSize)

/-- A record of an unknown type. -/
def IsUnknown : DnsRecord → Prop
  | unknown _ _ _ _ => True
  | _ => False

instance (rec : DnsRecord) : Decidable rec.IsUnknown := by
  cases rec <;> first | exact isTrue trivial | exact isFalse id

end DnsRecord

/-! ## Encoders have sizes -/

/-- The table has exactly the labels that are known. -/
def Labels.Knows (table : Labels) (known : List String) : Prop :=
  ∀ s, (∃ p, table s = some p) ↔ s ∈ known

/-- What the encoder writes has the size, wherever it is written. -/
def Encoder.HasSize (e : Encoder) (f : Size) : Prop :=
  ∀ pos table known, Labels.Knows table known →
    (e pos table).1.length = (f known).1 ∧ Labels.Knows (e pos table).2 (f known).2

namespace Encoder.HasSize

variable {e e' : Encoder} {f f' g : Size}

/-- Bytes that are there have a size. -/
theorem emit (bytes : List UInt8) : (Encoder.emit bytes).HasSize (.fixed bytes.length) :=
  fun _ _ _ h => ⟨rfl, h⟩

/-- Sizes add up, and the second encoder knows the suffixes that the first one wrote. -/
theorem andThen (he : e.HasSize f) (he' : e'.HasSize f') : (e.andThen e').HasSize (f.andThen f') := by
  intro pos table known h
  obtain ⟨hlen, hknown⟩ := he pos table known h
  obtain ⟨hlen', hknown'⟩ := he' (pos + (e pos table).1.length) _ _ hknown
  refine ⟨?_, hknown'⟩
  show ((e pos table).1 ++ _).length = _
  rw [List.length_append, hlen', hlen]
  rfl

/-- A size may be replaced by one that is equal for all known suffixes. -/
theorem congr (he : e.HasSize f) (h : ∀ known, f known = g known) : e.HasSize g :=
  (funext h : f = g) ▸ he

/-- The length in front costs two bytes. -/
theorem sized (he : e.HasSize f) : e.sized.HasSize ((Size.fixed 2).andThen f) := by
  intro pos table known h
  obtain ⟨hlen, hknown⟩ := he (pos + 2) table known h
  refine ⟨?_, hknown⟩
  show (bytesU16 _ ++ (e (pos + 2) table).1).length = 2 + (f known).1
  rw [List.length_append, hlen]
  rfl

/-- The sizes of all items add up. -/
theorem all {α : Type} {F : α → Encoder} {G : α → Size} (h : ∀ a, (F a).HasSize (G a))
    (as : List α) : (Encoder.all F as).HasSize (.all G as) := by
  induction as with
  | nil => exact emit []
  | cons a as ih => exact (h a).andThen ih

theorem u16 (v : UInt16) : (Encoder.u16 v).HasSize (.fixed 2) := emit _

theorem u32 (v : UInt32) : (Encoder.u32 v).HasSize (.fixed 4) := emit _

/-- A text has as many bytes as Rust counts for it. -/
theorem length_utf8 (s : String) : s.toUTF8.data.toList.length = s.utf8ByteSize := by
  rw [Array.length_toList]
  rfl

theorem length_bytesLabel (label : String) :
    (bytesLabel label).length = 1 + label.utf8ByteSize := by
  rw [bytesLabel, List.length_cons, length_utf8, Nat.add_comm]

/-- The size of a name depends on which of its suffixes are known. -/
theorem labels (ls : List String) : (Encoder.labels ls).HasSize (.labels ls) := by
  induction ls with
  | nil => exact emit [0]
  | cons label rest ih =>
    intro pos table known h
    cases htable : table (".".intercalate (label :: rest)) with
    | some prevPos =>
      have hmem := (h _).mp ⟨prevPos, htable⟩
      rw [labels_of_some htable, Size.labels_of_mem hmem]
      exact u16 _ pos table known h
    | none =>
      have hmem : ".".intercalate (label :: rest) ∉ known := fun hmem => by
        obtain ⟨p, hp⟩ := (h _).mpr hmem
        rw [htable] at hp
        cases hp
      rw [labels_of_none htable, Size.labels_of_not_mem hmem]
      refine (((emit (bytesLabel label)).andThen ih).congr fun known => ?_) pos _ _ fun s => ?_
      · rw [length_bytesLabel]
      · rw [List.mem_cons, ← h s]
        by_cases hs : s = ".".intercalate (label :: rest)
        · rw [hs, Function.update_self]
          simp
        · rw [Function.update_of_ne hs]
          simp [hs]

theorem qname (name : String) : (Encoder.qname name).HasSize (.name name) := labels _

/-- A header is twelve bytes long. -/
theorem header (header : DnsHeader) : header.encoder.HasSize (.fixed DnsHeader.binaryLen) :=
  ((u16 _).andThen <| (emit [_]).andThen <| (emit [_]).andThen <| (u16 _).andThen <|
    (u16 _).andThen <| (u16 _).andThen (u16 _)).congr fun _ => rfl

theorem question (question : DnsQuestion) : question.encoder.HasSize question.size :=
  (qname _).andThen ((u16 _).andThen (u16 _))

/-- The head of a record is its owner and eight bytes. -/
theorem head (domain : String) (qtype : QueryType) (ttl : UInt32) :
    (DnsRecord.headEncoder domain qtype ttl).HasSize ((Size.name domain).andThen (.fixed 8)) :=
  (qname _).andThen ((u16 _).andThen ((u16 _).andThen (u32 _)))

/-- The data of a record that is one name. -/
theorem nameRecord (domain host : String) (qtype : QueryType) (ttl : UInt32) :
    ((DnsRecord.headEncoder domain qtype ttl).andThen (Encoder.qname host).sized).HasSize
      ((Size.all Size.name [domain, host]).andThen (.fixed 10)) :=
  ((head domain qtype ttl).andThen (qname host).sized).congr fun known => by
    simp [Size.andThen, Size.all, Size.fixed]
    omega

/-- **Every record has its size**, whatever is known before. -/
theorem record (rec : DnsRecord) : rec.encoder.HasSize rec.size := by
  cases rec with
  | unknown => exact emit []
  | a domain addr ttl =>
    refine ((head domain .a ttl).andThen ((u16 4).andThen (emit addr.octets.toList))).congr
      fun known => ?_
    simp [Size.andThen, Size.all, Size.fixed, DnsRecord.size, DnsRecord.names, DnsRecord.fixedSize]
  | ns domain host ttl => exact nameRecord domain host .ns ttl
  | cname domain host ttl => exact nameRecord domain host .cname ttl
  | soa domain mName rName serial refresh retry expire minimum ttl =>
    refine ((head domain .soa ttl).andThen <| sized <| (qname mName).andThen <|
      (qname rName).andThen <| (u32 serial).andThen <| (u32 refresh).andThen <|
      (u32 retry).andThen <| (u32 expire).andThen (u32 minimum)).congr fun known => ?_
    simp [Size.andThen, Size.all, Size.fixed, DnsRecord.size, DnsRecord.names, DnsRecord.fixedSize]
    omega
  | ptr domain data ttl => exact nameRecord domain data .ptr ttl
  | mx domain priority host ttl =>
    refine ((head domain .mx ttl).andThen <| sized <| (u16 priority).andThen (qname host)).congr
      fun known => ?_
    simp [Size.andThen, Size.all, Size.fixed, DnsRecord.size, DnsRecord.names, DnsRecord.fixedSize]
    omega
  | txt domain data ttl =>
    refine ((head domain .txt ttl).andThen <| (u16 _).andThen <| (emit [_]).andThen
      (emit data.toUTF8.data.toList)).congr fun known => ?_
    rw [length_utf8]
    simp [Size.andThen, Size.all, Size.fixed, DnsRecord.size, DnsRecord.names, DnsRecord.fixedSize]
    omega
  | aaaa domain addr ttl =>
    refine ((head domain .aaaa ttl).andThen <| (u16 16).andThen
      (all u16 addr.segments.toList)).congr fun known => ?_
    rw [Size.all_fixed, Vector.length_toList]
    simp [Size.andThen, Size.all, Size.fixed, DnsRecord.size, DnsRecord.names, DnsRecord.fixedSize]
  | srv domain priority weight port host ttl =>
    refine ((head domain .srv ttl).andThen <| sized <| (u16 priority).andThen <|
      (u16 weight).andThen <| (u16 port).andThen (qname host)).congr fun known => ?_
    simp [Size.andThen, Size.all, Size.fixed, DnsRecord.size, DnsRecord.names, DnsRecord.fixedSize]
    omega
  | opt packetLen flags data =>
    refine ((emit [0]).andThen <| (u16 _).andThen <| (u16 packetLen).andThen <|
      (u32 flags).andThen <| (u16 _).andThen (emit data.toUTF8.data.toList)).congr fun known => ?_
    rw [length_utf8]
    simp [Size.andThen, Size.all, Size.fixed, DnsRecord.size, DnsRecord.names, DnsRecord.fixedSize]
    omega
  | tlsa domain certificateUsage selector matchingType data ttl =>
    refine ((head domain .tlsa ttl).andThen <| (u16 _).andThen <| (emit [certificateUsage]).andThen <|
      (emit [selector]).andThen <| (emit [matchingType]).andThen (emit data)).congr fun known => ?_
    simp [Size.andThen, Size.all, Size.fixed, DnsRecord.size, DnsRecord.names, DnsRecord.fixedSize]
    omega

end Encoder.HasSize
