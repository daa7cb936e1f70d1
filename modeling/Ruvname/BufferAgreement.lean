/-
# Datagrams and streams

A message of 512 bytes is read from a datagram through one kind of buffer and from a stream through
another.  They differ in the last byte only: the datagram refuses a range of bytes that ends with
it.  So they agree on all messages but those that end with the last byte inside the data of a TXT,
OPT or TLSA record (`DnsPacket.buffers_agree_iff`); these the stream accepts and the datagram does
not.
-/
import Ruvname.Decoding

open PacketBuffer ReadableBuffer

/-- The data of these records is read as one range of bytes. -/
def DnsRecord.ReadAsRange : DnsRecord → Prop
  | .txt _ _ _ => True
  | .opt _ _ _ => True
  | .tlsa _ _ _ _ _ _ => True
  | _ => False

/-- The bytes hold a message that ends with their last byte, in a range that is read as a whole. -/
def EndsFlush (U : Unicode) (checks : Bool) (data : List UInt8) : Prop :=
  ∃ packet rec, PacketAt U checks 0 data 0 packet data.length ∧
    packet.records.getLast? = some rec ∧ rec.ReadAsRange

section

variable {U : Unicode} {checks : Bool} {data : List UInt8}

/-! ## The last byte -/

/-- A range with a byte after it is a range. -/
theorem rangeAt_of_slack {p len : ℕ} {xs : List UInt8} (h : RangeAt 1 data p len xs) :
    RangeAt 0 data p len xs := by
  obtain ⟨hlen, rfl⟩ := h
  exact ⟨by omega, rfl⟩

/-- A range ends with the last byte, or with one before it. -/
theorem rangeAt_or_flush {p len : ℕ} {xs : List UInt8} (h : RangeAt 0 data p len xs) :
    RangeAt 1 data p len xs ∨ p + len = data.length := by
  obtain ⟨hlen, rfl⟩ := h
  by_cases hflush : p + len = data.length
  · exact .inr hflush
  · exact .inl ⟨by omega, rfl⟩

section

variable {domain : String} {qtypeNum klass : UInt16} {ttl : UInt32} {dataLen : UInt16}
  {qtype : QueryType} {p q : ℕ} {rec : DnsRecord}

/-- So what a datagram holds is laid out for the other buffers as well. -/
theorem dataAt_of_slack (h : DataAt U checks 1 data domain qtypeNum klass ttl dataLen qtype p rec q) :
    DataAt U checks 0 data domain qtypeNum klass ttl dataLen qtype p rec q := by
  cases h with
  | a h => exact .a h
  | aaaa h₁ h₂ h₃ h₄ => exact .aaaa h₁ h₂ h₃ h₄
  | ns h => exact .ns h
  | cname h => exact .cname h
  | srv h₁ h₂ h₃ h => exact .srv h₁ h₂ h₃ h
  | ptr h => exact .ptr h
  | mx h₁ h => exact .mx h₁ h
  | soa hm hr h₁ h₂ h₃ h₄ h₅ => exact .soa hm hr h₁ h₂ h₃ h₄ h₅
  | txt h => exact .txt (rangeAt_of_slack h)
  | opt h => exact .opt (rangeAt_of_slack h)
  | tlsa h₁ h₂ h₃ hlen h => exact .tlsa h₁ h₂ h₃ hlen (rangeAt_of_slack h)
  | unknown => exact .unknown

/-- Only a range that ends with the last byte is laid out without its slack. -/
theorem dataAt_or_flush
    (h : DataAt U checks 0 data domain qtypeNum klass ttl dataLen qtype p rec q) :
    DataAt U checks 1 data domain qtypeNum klass ttl dataLen qtype p rec q ∨
      (q = data.length ∧ rec.ReadAsRange) := by
  cases h with
  | a h => exact .inl (.a h)
  | aaaa h₁ h₂ h₃ h₄ => exact .inl (.aaaa h₁ h₂ h₃ h₄)
  | ns h => exact .inl (.ns h)
  | cname h => exact .inl (.cname h)
  | srv h₁ h₂ h₃ h => exact .inl (.srv h₁ h₂ h₃ h)
  | ptr h => exact .inl (.ptr h)
  | mx h₁ h => exact .inl (.mx h₁ h)
  | soa hm hr h₁ h₂ h₃ h₄ h₅ => exact .inl (.soa hm hr h₁ h₂ h₃ h₄ h₅)
  | txt h => exact (rangeAt_or_flush h).imp .txt fun hflush => ⟨hflush, trivial⟩
  | opt h => exact (rangeAt_or_flush h).imp .opt fun hflush => ⟨hflush, trivial⟩
  | tlsa h₁ h₂ h₃ hlen h =>
    exact (rangeAt_or_flush h).imp (.tlsa h₁ h₂ h₃ hlen) fun hflush => ⟨hflush, trivial⟩
  | unknown => exact .inl .unknown

/-- A range that is read from a datagram has a byte after it. -/
theorem lt_length_of_readAsRange
    (h : DataAt U checks 1 data domain qtypeNum klass ttl dataLen qtype p rec q)
    (hrec : rec.ReadAsRange) : q < data.length := by
  cases h with
  | txt h => exact h.1
  | opt h => exact h.1
  | tlsa h₁ h₂ h₃ hlen h => exact h.1
  | _ => exact hrec.elim

end

/-- The same for records. -/
theorem recordAt_of_slack {p q : ℕ} {rec : DnsRecord} (h : RecordAt U checks 1 data p rec q) :
    RecordAt U checks 0 data p rec q := by
  obtain ⟨hname, h₁, h₂, h₃, h₄, h⟩ := h
  exact .mk hname h₁ h₂ h₃ h₄ (dataAt_of_slack h)

/-- The other way round a record may fail to fit only by ending with the data. -/
theorem recordAt_or_flush {p q : ℕ} {rec : DnsRecord} (h : RecordAt U checks 0 data p rec q) :
    RecordAt U checks 1 data p rec q ∨ (q = data.length ∧ rec.ReadAsRange) := by
  obtain ⟨hname, h₁, h₂, h₃, h₄, h⟩ := h
  exact (dataAt_or_flush h).imp (.mk hname h₁ h₂ h₃ h₄) id

/-- A record starts inside the data. -/
theorem recordAt_lt_length {slack p q : ℕ} {rec : DnsRecord}
    (h : RecordAt U checks slack data p rec q) : p < data.length := by
  obtain ⟨hname, -⟩ := h
  exact name_lt_length hname

/-- Among records that follow each other only the last one can end with the last byte. -/
theorem records_or_flush {p q : ℕ} {recs : List DnsRecord}
    (h : ManyAt (RecordAt U checks 0 data) p recs q) :
    ManyAt (RecordAt U checks 1 data) p recs q ∨
      (q = data.length ∧ ∃ rec, recs.getLast? = some rec ∧ rec.ReadAsRange) := by
  induction h with
  | nil => exact .inl .nil
  | @cons p m q rec recs first rest ih =>
    rcases ih with ih | ⟨hq, last, hlast, hrange⟩
    · rcases recordAt_or_flush first with hfirst | ⟨hm, hrange⟩
      · exact .inl (.cons hfirst ih)
      · cases ih with
        | nil => exact .inr ⟨hm, rec, rfl, hrange⟩
        | cons second _ => exact absurd (recordAt_lt_length second) (by omega)
    · refine .inr ⟨hq, last, ?_, hrange⟩
      rw [List.getLast?_cons, hlast]
      rfl

/-- If the last record is a range then there are bytes after all of them. -/
theorem records_lt_length {p q : ℕ} {recs : List DnsRecord} {last : DnsRecord}
    (h : ManyAt (RecordAt U checks 1 data) p recs q) (hlast : recs.getLast? = some last)
    (hrange : last.ReadAsRange) : q < data.length := by
  induction h with
  | nil => cases hlast
  | @cons p m q rec recs first rest ih =>
    cases rest with
    | nil =>
      cases hlast
      obtain ⟨-, -, -, -, -, h⟩ := first
      exact lt_length_of_readAsRange h hrange
    | cons second rest => exact ih (by rwa [List.getLast?_cons_cons] at hlast)

end

/-! ## The two buffers -/

namespace DnsPacket

variable (U : Unicode) (checks : Bool)

/-- What is read from a datagram. -/
def ReadFromDatagram (bytes : Vector UInt8 512) (packet : DnsPacket) : Prop :=
  ∃ t, (fromBuffer U checks).Yields (⟨bytes, 0⟩ : BytePacketBuffer) packet t

/-- What is read from a stream that delivers the bytes and ends. -/
def ReadFromStream (bytes : List UInt8) (packet : DnsPacket) : Prop :=
  ∃ t, (fromBuffer U checks).Yields ({ stream := bytes } : StreamPacketBuffer) packet t

variable {U checks}

/-- A datagram is read as what it is laid out as. -/
theorem readFromDatagram_iff {bytes : Vector UInt8 512} {packet : DnsPacket} :
    ReadFromDatagram U checks bytes packet ↔
      ∃ q, PacketAt U checks 1 bytes.toList 0 packet q := by
  constructor
  · rintro ⟨t, ht⟩
    exact ⟨_, ((reads_fromBuffer U checks).sound _ _ _ ht).2⟩
  · rintro ⟨q, hq⟩
    obtain ⟨t, ht, -, -⟩ := (reads_fromBuffer U checks).complete (⟨bytes, 0⟩ : BytePacketBuffer) _ _ hq
    exact ⟨t, ht⟩

/-- So is a stream. -/
theorem readFromStream_iff {bytes : List UInt8} {packet : DnsPacket} :
    ReadFromStream U checks bytes packet ↔ ∃ q, PacketAt U checks 0 bytes 0 packet q := by
  constructor
  · rintro ⟨t, ht⟩
    exact ⟨_, ((reads_fromBuffer U checks).sound _ _ _ ht).2⟩
  · rintro ⟨q, hq⟩
    obtain ⟨t, ht, -, -⟩ := (reads_fromBuffer U checks).complete
      ({ stream := bytes } : StreamPacketBuffer) _ _ hq
    exact ⟨t, ht⟩

/-- Bytes hold one message at most. -/
theorem packetAt_unique {data : List UInt8} {packet packet' : DnsPacket} {q q' : ℕ}
    (h : PacketAt U checks 0 data 0 packet q) (h' : PacketAt U checks 0 data 0 packet' q') :
    packet = packet' ∧ q = q' := by
  obtain ⟨t, ht, -, hq⟩ := (reads_fromBuffer U checks).complete
    ({ stream := data } : StreamPacketBuffer) _ _ h
  obtain ⟨t', ht', -, hq'⟩ := (reads_fromBuffer U checks).complete
    ({ stream := data } : StreamPacketBuffer) _ _ h'
  obtain ⟨rfl, rfl⟩ := ht.unique ht'
  exact ⟨rfl, hq.symm.trans hq'⟩

/-- What a datagram holds a stream holds. -/
theorem packetAt_of_slack {data : List UInt8} {packet : DnsPacket} {p q : ℕ}
    (h : PacketAt U checks 1 data p packet q) : PacketAt U checks 0 data p packet q := by
  obtain ⟨hheader, hn₁, hn₂, hn₃, hn₄, h₁, h₂, h₃, h₄⟩ := h
  exact .mk hheader hn₁ hn₂ hn₃ hn₄ h₁ (h₂.mono fun _ _ _ => recordAt_of_slack)
    (h₃.mono fun _ _ _ => recordAt_of_slack) (h₄.mono fun _ _ _ => recordAt_of_slack)

/-- A message that ends flush is not read from a datagram. -/
theorem not_packetAt_of_flush {data : List UInt8} {packet : DnsPacket} {rec : DnsRecord} {next q : ℕ}
    (h : PacketAt U checks 0 data 0 packet next) (hnext : next = data.length)
    (hlast : packet.records.getLast? = some rec) (hrange : rec.ReadAsRange) :
    ¬ PacketAt U checks 1 data 0 packet q := by
  intro h₁
  obtain ⟨-, rfl⟩ := packetAt_unique h (packetAt_of_slack h₁)
  obtain ⟨-, -, -, -, -, m, -, hrecords⟩ := (packetAt_iff _ _ _ _).mp h₁
  exact absurd (records_lt_length hrecords hlast hrange) (by omega)

/-- **Datagrams and streams agree** on the bytes that hold no message which ends flush. -/
theorem buffers_agree_iff (U : Unicode) (checks : Bool) (bytes : Vector UInt8 512) :
    (∀ packet, ReadFromDatagram U checks bytes packet ↔ ReadFromStream U checks bytes.toList packet) ↔
      ¬ EndsFlush U checks bytes.toList := by
  constructor
  · rintro hagree ⟨packet, rec, h, hlast, hrange⟩
    obtain ⟨q, hq⟩ := readFromDatagram_iff.mp
      ((hagree packet).mpr (readFromStream_iff.mpr ⟨_, h⟩))
    exact not_packetAt_of_flush h rfl hlast hrange hq
  · intro hflush packet
    rw [readFromDatagram_iff, readFromStream_iff]
    constructor
    · rintro ⟨q, hq⟩
      exact ⟨q, packetAt_of_slack hq⟩
    · rintro ⟨q, hq⟩
      obtain ⟨hheader, hn₁, hn₂, hn₃, hn₄, m, h₁, hrecords⟩ := (packetAt_iff _ _ _ _).mp hq
      rcases records_or_flush hrecords with hrecords | ⟨rfl, rec, hlast, hrange⟩
      · exact ⟨q, (packetAt_iff _ _ _ _).mpr
          ⟨hheader, hn₁, hn₂, hn₃, hn₄, m, h₁, hrecords⟩⟩
      · exact absurd ⟨packet, rec, hq, hlast, hrange⟩ hflush

/-- An answer that is a TXT record of 489 zero bytes, up to the last byte of a datagram. -/
def flushDatagram : Vector UInt8 512 :=
  ⟨(([0, 0, 0, 0, 0, 0, 0, 1, 0, 0, 0, 0] ++ [0, 0, 16, 0, 1, 0, 0, 0, 0, 0x01, 0xe9] : List UInt8)
    ++ List.replicate 489 0).toArray, by decide +kernel⟩

/-- The stream delivers the record, the datagram is refused. -/
theorem not_buffers_agree_flushDatagram :
    ¬ ∀ bytes : Vector UInt8 512,
      (fromBuffer .ascii true).Halts (⟨bytes, 0⟩ : BytePacketBuffer) →
      ∀ packet, ReadFromDatagram .ascii true bytes packet ↔
        ReadFromStream .ascii true bytes.toList packet := by
  intro hagree
  have hhalts : (fromBuffer .ascii true).Halts (⟨flushDatagram, 0⟩ : BytePacketBuffer) :=
    ⟨2, by decide +kernel⟩
  have hqtype : U16At flushDatagram.toList 13 16 := ⟨0, 16, rfl, rfl, rfl⟩
  have hklass : U16At flushDatagram.toList 15 1 := ⟨0, 1, rfl, rfl, rfl⟩
  have httl : U32At flushDatagram.toList 17 0 := ⟨0, 0, 0, 0, rfl, rfl, rfl, rfl, rfl⟩
  have hdataLen : U16At flushDatagram.toList 21 489 := ⟨1, 0xe9, rfl, rfl, rfl⟩
  have hrange : RangeAt 0 flushDatagram.toList 23 489 (List.replicate 489 0) :=
    ⟨by decide +kernel, by decide +kernel⟩
  let txt := DnsRecord.txt (Unicode.ascii.name [])
    (Unicode.ascii.fromUtf8Lossy (List.replicate 489 0)) 0
  have hrecord : RecordAt .ascii true 0 flushDatagram.toList 12 txt 512 :=
    .mk (.stop rfl) hqtype hklass httl hdataLen (.txt hrange)
  have hheader : HeaderAt flushDatagram.toList 0 (.ofWords 0 0 0 1 0 0) :=
    ⟨0, 0, 0, 1, 0, 0, ⟨0, 0, rfl, rfl, rfl⟩, ⟨0, 0, rfl, rfl, rfl⟩, ⟨0, 0, rfl, rfl, rfl⟩,
      ⟨0, 1, rfl, rfl, rfl⟩, ⟨0, 0, rfl, rfl, rfl⟩, ⟨0, 0, rfl, rfl, rfl⟩, rfl⟩
  have hpacket : PacketAt .ascii true 0 flushDatagram.toList 0
      ⟨.ofWords 0 0 0 1 0 0, [], [txt], [], []⟩ 512 :=
    .mk hheader rfl rfl rfl rfl .nil (.cons hrecord .nil) .nil .nil
  obtain ⟨q, hq⟩ := readFromDatagram_iff.mp
    ((hagree flushDatagram hhalts _).mpr (readFromStream_iff.mpr ⟨512, hpacket⟩))
  exact not_packetAt_of_flush hpacket flushDatagram.length_toList.symm rfl trivial hq

end DnsPacket
