/-
# The layout of DNS messages

What it means that bytes hold a name, a question, a record or a message from one position to
another.  Nothing is said here about how they are read or written: the decoder is shown to read
what is laid out, and the encoder to write what has this layout.

A name is laid out in pieces: a pointer goes on with the name at another position, but what comes
after the name comes after the pointer.

The parameter `slack` is how many bytes have to follow a range of bytes that is read as a whole.
-/
import Ruvname.Codec

open PacketBuffer

/-- What a label says. -/
def Unicode.label (U : Unicode) (bytes : List UInt8) : String :=
  U.toLowercase (U.fromUtf8Lossy bytes)

/-- What a name says. -/
def Unicode.name (U : Unicode) (labels : List (List UInt8)) : String :=
  ".".intercalate (labels.map U.label)

/-! ## Numbers, ranges and names -/

/-- A `u16` at a position. -/
def U16At (data : List UInt8) (p : ℕ) (v : UInt16) : Prop :=
  ∃ x y, data[p]? = some x ∧ data[p + 1]? = some y ∧ v = (x.toUInt16 <<< 8) ||| y.toUInt16

/-- A `u32` at a position. -/
def U32At (data : List UInt8) (p : ℕ) (v : UInt32) : Prop :=
  ∃ x y z w, data[p]? = some x ∧ data[p + 1]? = some y ∧ data[p + 2]? = some z ∧
    data[p + 3]? = some w ∧
    v = (x.toUInt32 <<< 24) ||| (y.toUInt32 <<< 16) ||| (z.toUInt32 <<< 8) ||| w.toUInt32

/-- A range of bytes, with `slack` more behind it. -/
def RangeAt (slack : ℕ) (data : List UInt8) (p len : ℕ) (xs : List UInt8) : Prop :=
  p + len + slack ≤ data.length ∧ xs = (data.drop p).take len

/-- The labels of the name at a position, and where the data goes on behind it. -/
inductive NameAt (data : List UInt8) : ℕ → List (List UInt8) → ℕ → Prop
  | stop {p : ℕ} (hlen : data[p]? = some 0) : NameAt data p [] (p + 1)
  | label {p next : ℕ} {len : UInt8} {labels : List (List UInt8)} (hlen : data[p]? = some len)
      (hpointer : ¬ isPointer len) (hne : len ≠ 0)
      (rest : NameAt data (p + 1 + len.toNat) labels next) :
      NameAt data p ((data.drop (p + 1)).take len.toNat :: labels) next
  | pointer {p next : ℕ} {len b2 : UInt8} {labels : List (List UInt8)}
      (hlen : data[p]? = some len) (hpointer : isPointer len) (hb2 : data[p + 1]? = some b2)
      (target : NameAt data (pointerOffset len b2) labels next) :
      NameAt data p labels (p + 2)

/-- Two bytes are one number. -/
theorem U16At.unique {data : List UInt8} {p : ℕ} {v w : UInt16} (h : U16At data p v) (h' : U16At data p w) : v = w := by
  obtain ⟨x, y, hx, hy, rfl⟩ := h
  obtain ⟨x', y', hx', hy', rfl⟩ := h'
  rw [hx, Option.some.injEq] at hx'
  rw [hy, Option.some.injEq] at hy'
  rw [hx', hy']

/-- What is at a position says which labels are there, and where the data goes on. -/
theorem NameAt.unique {data : List UInt8} {p next next' : ℕ} {labels labels' : List (List UInt8)}
    (h : NameAt data p labels next) (h' : NameAt data p labels' next') :
    labels = labels' ∧ next = next' := by
  induction h generalizing labels' next' with
  | stop hlen =>
    cases h' with
    | stop => exact ⟨rfl, rfl⟩
    | label hlen' _ hne =>
      rw [hlen, Option.some.injEq] at hlen'
      exact absurd hlen'.symm hne
    | pointer hlen' hpointer =>
      rw [hlen, Option.some.injEq] at hlen'
      rw [← hlen'] at hpointer
      exact absurd hpointer (by decide)
  | label hlen hpointer hne _ ih =>
    cases h' with
    | stop hlen' =>
      rw [hlen, Option.some.injEq] at hlen'
      exact absurd hlen' hne
    | label hlen' _ _ rest' =>
      rw [hlen, Option.some.injEq] at hlen'
      subst hlen'
      obtain ⟨rfl, rfl⟩ := ih rest'
      exact ⟨rfl, rfl⟩
    | pointer hlen' hpointer' =>
      rw [hlen, Option.some.injEq] at hlen'
      rw [hlen'] at hpointer
      exact absurd hpointer' hpointer
  | pointer hlen hpointer hb2 _ ih =>
    cases h' with
    | stop hlen' =>
      rw [hlen, Option.some.injEq] at hlen'
      rw [hlen'] at hpointer
      exact absurd hpointer (by decide)
    | label hlen' hpointer' =>
      rw [hlen, Option.some.injEq] at hlen'
      rw [hlen'] at hpointer
      exact absurd hpointer hpointer'
    | pointer hlen' _ hb2' target' =>
      rw [hlen, Option.some.injEq] at hlen'
      rw [hb2, Option.some.injEq] at hb2'
      subst hlen' hb2'
      exact ⟨(ih target').1, rfl⟩

/-- Items of one kind, one after the other. -/
inductive ManyAt {α : Type} (item : ℕ → α → ℕ → Prop) : ℕ → List α → ℕ → Prop
  | nil {p : ℕ} : ManyAt item p [] p
  | cons {p q next : ℕ} {a : α} {as : List α} (first : item p a q) (rest : ManyAt item q as next) :
      ManyAt item p (a :: as) next

namespace ManyAt

variable {α : Type} {item item' : ℕ → α → ℕ → Prop}

theorem mono (h : ∀ p a q, item p a q → item' p a q) {p q : ℕ} {as : List α}
    (hmany : ManyAt item p as q) : ManyAt item' p as q := by
  induction hmany with
  | nil => exact .nil
  | cons first _ ih => exact .cons (h _ _ _ first) ih

/-- A sequence is laid out as its two parts are. -/
theorem append_iff {p q : ℕ} {as bs : List α} :
    ManyAt item p (as ++ bs) q ↔ ∃ m, ManyAt item p as m ∧ ManyAt item m bs q := by
  induction as generalizing p with
  | nil =>
    constructor
    · intro h
      exact ⟨p, .nil, h⟩
    · rintro ⟨m, hnil, h⟩
      cases hnil
      exact h
  | cons a as ih =>
    constructor
    · rintro (_ | ⟨first, rest⟩)
      obtain ⟨m, has, hbs⟩ := ih.mp rest
      exact ⟨m, .cons first has, hbs⟩
    · rintro ⟨m, hcons, hbs⟩
      cases hcons with
      | cons first rest => exact .cons first (ih.mpr ⟨m, rest, hbs⟩)

theorem map_iff {β : Type} {f : β → α} {p q : ℕ} {bs : List β} :
    ManyAt item p (bs.map f) q ↔ ManyAt (fun p b q => item p (f b) q) p bs q := by
  induction bs generalizing p with
  | nil =>
    constructor
    · rintro ⟨⟩
      exact .nil
    · rintro ⟨⟩
      exact .nil
  | cons b bs ih =>
    constructor
    · rintro (_ | ⟨first, rest⟩)
      exact .cons first (ih.mp rest)
    · rintro (_ | ⟨first, rest⟩)
      exact .cons first (ih.mpr rest)

end ManyAt

/-! ## Messages -/

section

variable (U : Unicode) (checks : Bool) (slack : ℕ) (data : List UInt8)

/-- A header. -/
def HeaderAt (p : ℕ) (header : DnsHeader) : Prop :=
  ∃ id flags questions answers authoritativeEntries resourceEntries,
    U16At data p id ∧ U16At data (p + 2) flags ∧ U16At data (p + 4) questions ∧
    U16At data (p + 6) answers ∧ U16At data (p + 8) authoritativeEntries ∧
    U16At data (p + 10) resourceEntries ∧
    header = .ofWords id flags questions answers authoritativeEntries resourceEntries

/-- A question. -/
inductive QuestionAt : ℕ → DnsQuestion → ℕ → Prop
  | mk {p m : ℕ} {labels : List (List UInt8)} {qtype klass : UInt16}
      (name : NameAt data p labels m) (hqtype : U16At data m qtype)
      (hklass : U16At data (m + 2) klass) :
      QuestionAt p ⟨U.name labels, .fromNum qtype⟩ (m + 4)

/-- The data of a record, given what comes before it. -/
inductive DataAt (domain : String) (qtypeNum klass : UInt16) (ttl : UInt32) (dataLen : UInt16) :
    QueryType → ℕ → DnsRecord → ℕ → Prop
  | a {p : ℕ} {raw : UInt32} (addr : U32At data p raw) :
      DataAt domain qtypeNum klass ttl dataLen .a p (.a domain (DnsRecord.ipv4OfU32 raw) ttl) (p + 4)
  | aaaa {p : ℕ} {raw₁ raw₂ raw₃ raw₄ : UInt32} (h₁ : U32At data p raw₁)
      (h₂ : U32At data (p + 4) raw₂) (h₃ : U32At data (p + 8) raw₃)
      (h₄ : U32At data (p + 12) raw₄) :
      DataAt domain qtypeNum klass ttl dataLen .aaaa p
        (.aaaa domain (DnsRecord.ipv6OfU32 raw₁ raw₂ raw₃ raw₄) ttl) (p + 16)
  | ns {p next : ℕ} {host : List (List UInt8)} (name : NameAt data p host next) :
      DataAt domain qtypeNum klass ttl dataLen .ns p (.ns domain (U.name host) ttl) next
  | cname {p next : ℕ} {host : List (List UInt8)} (name : NameAt data p host next) :
      DataAt domain qtypeNum klass ttl dataLen .cname p (.cname domain (U.name host) ttl) next
  | srv {p next : ℕ} {priority weight port : UInt16} {host : List (List UInt8)}
      (hpriority : U16At data p priority) (hweight : U16At data (p + 2) weight)
      (hport : U16At data (p + 4) port) (name : NameAt data (p + 6) host next) :
      DataAt domain qtypeNum klass ttl dataLen .srv p
        (.srv domain priority weight port (U.name host) ttl) next
  | ptr {p next : ℕ} {host : List (List UInt8)} (name : NameAt data p host next) :
      DataAt domain qtypeNum klass ttl dataLen .ptr p (.ptr domain (U.name host) ttl) next
  | mx {p next : ℕ} {priority : UInt16} {host : List (List UInt8)}
      (hpriority : U16At data p priority) (name : NameAt data (p + 2) host next) :
      DataAt domain qtypeNum klass ttl dataLen .mx p (.mx domain priority (U.name host) ttl) next
  | soa {p q r : ℕ} {mName rName : List (List UInt8)}
      {serial refresh retry expire minimum : UInt32}
      (hmName : NameAt data p mName q) (hrName : NameAt data q rName r)
      (hserial : U32At data r serial) (hrefresh : U32At data (r + 4) refresh)
      (hretry : U32At data (r + 8) retry) (hexpire : U32At data (r + 12) expire)
      (hminimum : U32At data (r + 16) minimum) :
      DataAt domain qtypeNum klass ttl dataLen .soa p
        (.soa domain (U.name mName) (U.name rName) serial refresh retry expire minimum ttl) (r + 20)
  | txt {p : ℕ} {xs : List UInt8} (range : RangeAt slack data p dataLen.toNat xs) :
      DataAt domain qtypeNum klass ttl dataLen .txt p (.txt domain (U.fromUtf8Lossy xs) ttl)
        (p + dataLen.toNat)
  | opt {p : ℕ} {xs : List UInt8} (range : RangeAt slack data p dataLen.toNat xs) :
      DataAt domain qtypeNum klass ttl dataLen .opt p (.opt klass ttl (U.fromUtf8Lossy xs))
        (p + dataLen.toNat)
  | tlsa {p : ℕ} {certificateUsage selector matchingType : UInt8} {len : UInt16} {xs : List UInt8}
      (husage : data[p]? = some certificateUsage) (hselector : data[p + 1]? = some selector)
      (hmatching : data[p + 2]? = some matchingType) (hlen : Exec.subU16 checks dataLen 3 = .ok len)
      (range : RangeAt slack data (p + 3) len.toNat xs) :
      DataAt domain qtypeNum klass ttl dataLen .tlsa p
        (.tlsa domain certificateUsage selector matchingType xs ttl) (p + 3 + len.toNat)
  | unknown {p : ℕ} {num : UInt16} :
      DataAt domain qtypeNum klass ttl dataLen (.unknown num) p
        (.unknown domain qtypeNum dataLen ttl) (p + dataLen.toNat)

/-- A record. -/
inductive RecordAt : ℕ → DnsRecord → ℕ → Prop
  | mk {p m next : ℕ} {labels : List (List UInt8)} {qtypeNum klass dataLen : UInt16} {ttl : UInt32}
      {rec : DnsRecord} (domain : NameAt data p labels m) (hqtype : U16At data m qtypeNum)
      (hklass : U16At data (m + 2) klass) (httl : U32At data (m + 4) ttl)
      (hdataLen : U16At data (m + 8) dataLen)
      (rdata : DataAt U checks slack data (U.name labels) qtypeNum klass ttl dataLen
        (.fromNum qtypeNum) (m + 10) rec next) :
      RecordAt p rec next

/-- A message: the header, and as many questions and records as it says. -/
inductive PacketAt : ℕ → DnsPacket → ℕ → Prop
  | mk {p q₁ q₂ q₃ next : ℕ} {packet : DnsPacket} (header : HeaderAt data p packet.header)
      (hquestions : packet.questions.length = packet.header.questions.toNat)
      (hanswers : packet.answers.length = packet.header.answers.toNat)
      (hauthorities : packet.authorities.length = packet.header.authoritativeEntries.toNat)
      (hresources : packet.resources.length = packet.header.resourceEntries.toNat)
      (questions : ManyAt (QuestionAt U data) (p + 12) packet.questions q₁)
      (answers : ManyAt (RecordAt U checks slack data) q₁ packet.answers q₂)
      (authorities : ManyAt (RecordAt U checks slack data) q₂ packet.authorities q₃)
      (resources : ManyAt (RecordAt U checks slack data) q₃ packet.resources next) :
      PacketAt p packet next

/-- The records of a message follow each other through all sections. -/
theorem packetAt_iff {p next : ℕ} {packet : DnsPacket} :
    PacketAt U checks slack data p packet next ↔
      HeaderAt data p packet.header ∧
      packet.questions.length = packet.header.questions.toNat ∧
      packet.answers.length = packet.header.answers.toNat ∧
      packet.authorities.length = packet.header.authoritativeEntries.toNat ∧
      packet.resources.length = packet.header.resourceEntries.toNat ∧
      ∃ q, ManyAt (QuestionAt U data) (p + 12) packet.questions q ∧
        ManyAt (RecordAt U checks slack data) q packet.records next := by
  constructor
  · rintro ⟨hheader, hn₁, hn₂, hn₃, hn₄, h₁, h₂, h₃, h₄⟩
    exact ⟨hheader, hn₁, hn₂, hn₃, hn₄, _, h₁,
      ManyAt.append_iff.mpr ⟨_, ManyAt.append_iff.mpr ⟨_, h₂, h₃⟩, h₄⟩⟩
  · rintro ⟨hheader, hn₁, hn₂, hn₃, hn₄, q, h₁, hrecords⟩
    obtain ⟨q₃, h, h₄⟩ := ManyAt.append_iff.mp hrecords
    obtain ⟨q₂, h₂, h₃⟩ := ManyAt.append_iff.mp h
    exact .mk hheader hn₁ hn₂ hn₃ hn₄ h₁ h₂ h₃ h₄

end
