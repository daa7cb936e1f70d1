/-
# What is read of records

Where a header, a question or a record has been written, there is what is read of it in the sense of
the layout (`DnsRecord.laysOut_asRead`).  This is not always what has been written: names come back in
lower case, and a text comes back behind the byte that tells its length.  But the data goes on where it
has been written on, if the labels of all names can be told from pointers and from the end of a name,
and if the length of a range of bytes fits its two bytes (`DnsRecord.Legible`).
-/
import Ruvname.Decoding
import Ruvname.NameCompression

open PacketBuffer

/-! ## Numbers -/

/-- One branch of `from_num`. -/
theorem QueryType.toNum_ite {num n : UInt16} {qtype rest : QueryType} (h : qtype.toNum = n)
    (hrest : rest.toNum = num) : (if num = n then qtype else rest).toNum = num := by
  split_ifs with heq
  · rw [h, heq]
  · exact hrest

theorem QueryType.toNum_fromNum (num : UInt16) : (QueryType.fromNum num).toNum = num := by
  unfold fromNum
  repeat' apply toNum_ite
  all_goals rfl

namespace DnsHeader

/-- The first byte of flags has its fields in their places. -/
theorem flagsA_fields (header : DnsHeader) : header.opcode < 16 →
    decide (header.flagsA &&& 1 > 0) = header.recursionDesired ∧
    decide (header.flagsA &&& 2 > 0) = header.truncatedMessage ∧
    decide (header.flagsA &&& 4 > 0) = header.authoritativeAnswer ∧
    (header.flagsA >>> 3) &&& 0x0f = header.opcode ∧
    decide (header.flagsA &&& 0x80 > 0) = header.response := by
  unfold flagsA
  generalize header.recursionDesired = rd, header.truncatedMessage = tc,
    header.authoritativeAnswer = aa, header.opcode = op, header.response = r
  revert rd tc aa op r
  decide +kernel

theorem flagsB_fields (header : DnsHeader) :
    ResultCode.fromNum (header.flagsB &&& 0x0f) = header.rescode ∧
    decide (header.flagsB &&& 0x10 > 0) = header.checkingDisabled ∧
    decide (header.flagsB &&& 0x20 > 0) = header.authedData ∧
    decide (header.flagsB &&& 0x40 > 0) = header.z ∧
    decide (header.flagsB &&& 0x80 > 0) = header.recursionAvailable := by
  unfold flagsB
  generalize header.rescode = rc, header.checkingDisabled = cd, header.authedData = ad,
    header.z = z, header.recursionAvailable = ra
  revert cd ad z ra
  cases rc <;> decide +kernel

/-- What is read of a header: of the opcode there are four bits. -/
def asRead (header : DnsHeader) : DnsHeader :=
  ofWords header.id ((header.flagsA.toUInt16 <<< 8) ||| header.flagsB.toUInt16) header.questions
    header.answers header.authoritativeEntries header.resourceEntries

/-- A header is what its six words stand for. -/
theorem asRead_of_opcode_lt {header : DnsHeader} (h : header.opcode < 16) : header.asRead = header := by
  obtain ⟨h₁, h₂, h₃, h₄, h₅⟩ := header.flagsA_fields h
  obtain ⟨k₁, k₂, k₃, k₄, k₅⟩ := header.flagsB_fields
  unfold asRead ofWords
  simp only [upperByte16_joinBytes, lowerByte16_joinBytes, h₁, h₂, h₃, h₄, h₅, k₁, k₂, k₃, k₄, k₅]

theorem laysOut_encoder (header : DnsHeader) :
    header.encoder.LaysOut fun data p q => HeaderAt data p header.asRead ∧ q = p + 12 := by
  refine ((Encoder.LaysOut.u16 _).andThen <| (Encoder.LaysOut.byte _).andThen <|
    (Encoder.LaysOut.byte _).andThen <| (Encoder.LaysOut.u16 _).andThen <|
    (Encoder.LaysOut.u16 _).andThen <| (Encoder.LaysOut.u16 _).andThen
    (Encoder.LaysOut.u16 _)).mono fun data p q => ?_
  rintro ⟨_, ⟨hid, rfl⟩, _, ⟨hA, rfl⟩, _, ⟨hB, rfl⟩, _, ⟨h₁, rfl⟩, _, ⟨h₂, rfl⟩, _, ⟨h₃, rfl⟩,
    h₄, rfl⟩
  exact ⟨⟨_, _, _, _, _, _, hid, ⟨_, _, hA, hB, rfl⟩, h₁, h₂, h₃, h₄, rfl⟩, rfl⟩

end DnsHeader

/-! ## Addresses -/

theorem vector_four {α : Type} (v : Vector α 4) : #v[v[0], v[1], v[2], v[3]] = v := by
  apply Vector.ext
  intro i hi
  interval_cases i <;> rfl

theorem vector_eight {α : Type} (v : Vector α 8) :
    #v[v[0], v[1], v[2], v[3], v[4], v[5], v[6], v[7]] = v := by
  apply Vector.ext
  intro i hi
  interval_cases i <;> rfl

/-- The bytes of a number are those that it is joined from. -/
theorem DnsRecord.ipv4OfU32_joinBytes (x y z w : UInt8) :
    ipv4OfU32 ((x.toUInt32 <<< 24) ||| (y.toUInt32 <<< 16) ||| (z.toUInt32 <<< 8) ||| w.toUInt32)
      = ⟨#v[x, y, z, w]⟩ := by
  have hnum := toNat_joinBytes32 x y z w
  generalize (x.toUInt32 <<< 24) ||| (y.toUInt32 <<< 16) ||| (z.toUInt32 <<< 8) ||| w.toUInt32 = raw
    at hnum ⊢
  have hx := x.toNat_lt
  have hy := y.toNat_lt
  have hz := z.toNat_lt
  have hw := w.toNat_lt
  have h₀ : ((raw >>> 24) &&& 0xff).toUInt8 = x := by
    apply UInt8.toNat_inj.mp
    rw [toNat_byte32 raw 24 (by decide), hnum, show (24 : UInt32).toNat = 24 from rfl]
    omega
  have h₁ : ((raw >>> 16) &&& 0xff).toUInt8 = y := by
    apply UInt8.toNat_inj.mp
    rw [toNat_byte32 raw 16 (by decide), hnum, show (16 : UInt32).toNat = 16 from rfl]
    omega
  have h₂ : ((raw >>> 8) &&& 0xff).toUInt8 = z := by
    apply UInt8.toNat_inj.mp
    rw [toNat_byte32 raw 8 (by decide), hnum, show (8 : UInt32).toNat = 8 from rfl]
    omega
  have h₃ : (raw &&& 0xff).toUInt8 = w := by
    apply UInt8.toNat_inj.mp
    rw [toNat_lowerByte32, hnum]
    omega
  unfold ipv4OfU32
  simp only [h₀, h₁, h₂, h₃]

theorem BytesAt.ipv4At {data : List UInt8} {p : ℕ} {addr : Ipv4Addr}
    (h : BytesAt data p addr.octets.toList) :
    ∃ raw, U32At data p raw ∧ DnsRecord.ipv4OfU32 raw = addr := by
  have hbyte : ∀ i (hi : i < 4), data[p + i]? = some addr.octets[i] := by
    intro i hi
    apply h.getElem?
    rw [Vector.getElem?_toList]
    exact Vector.getElem?_eq_getElem hi
  refine ⟨_, ⟨_, _, _, _, hbyte 0 (by decide), hbyte 1 (by decide), hbyte 2 (by decide),
    hbyte 3 (by decide), rfl⟩, ?_⟩
  rw [DnsRecord.ipv4OfU32_joinBytes, vector_four]

/-- Two `u16` after each other are the halves of a `u32`. -/
theorem U16At.u32At {data : List UInt8} {p : ℕ} {v w : UInt16} (hv : U16At data p v)
    (hw : U16At data (p + 2) w) :
    ∃ raw, U32At data p raw ∧ DnsRecord.upperHalf raw = v ∧ DnsRecord.lowerHalf raw = w := by
  obtain ⟨x, y, hx, hy, rfl⟩ := hv
  obtain ⟨z, t, hz, ht, rfl⟩ := hw
  refine ⟨_, ⟨x, y, z, t, hx, hy, hz, ht, rfl⟩, ?_, ?_⟩
  all_goals
    have := y.toNat_lt
    have := z.toNat_lt
    have := t.toNat_lt
    apply UInt16.toNat_inj.mp
  · rw [DnsRecord.upperHalf, toNat_upperHalf32, toNat_joinBytes32, toNat_joinBytes16]
    omega
  · rw [DnsRecord.lowerHalf, toNat_lowerHalf32, toNat_joinBytes32, toNat_joinBytes16]
    omega

/-- A sequence of `u16`. -/
theorem ManyAt.u16At {data : List UInt8} {p q : ℕ} {vs : List UInt16}
    (h : ManyAt (fun p v q => U16At data p v ∧ q = p + 2) p vs q) :
    (∀ i (hi : i < vs.length), U16At data (p + 2 * i) vs[i]) ∧ q = p + 2 * vs.length := by
  induction h with
  | nil => exact ⟨fun i hi => absurd hi (Nat.not_lt_zero i), rfl⟩
  | cons first rest ih =>
    obtain ⟨hfirst, rfl⟩ := first
    refine ⟨fun i hi => ?_, by rw [ih.2, List.length_cons]; omega⟩
    cases i with
    | zero => exact hfirst
    | succ i =>
      have hi' := ih.1 i (Nat.lt_of_succ_lt_succ hi)
      rwa [Nat.add_assoc, Nat.add_comm 2, ← Nat.mul_succ] at hi'

theorem ManyAt.ipv6At {data : List UInt8} {p q : ℕ} {addr : Ipv6Addr}
    (h : ManyAt (fun p v q => U16At data p v ∧ q = p + 2) p addr.segments.toList q) :
    q = p + 16 ∧ ∃ raw₁ raw₂ raw₃ raw₄, U32At data p raw₁ ∧ U32At data (p + 4) raw₂ ∧
      U32At data (p + 8) raw₃ ∧ U32At data (p + 12) raw₄ ∧
      DnsRecord.ipv6OfU32 raw₁ raw₂ raw₃ raw₄ = addr := by
  obtain ⟨hall, hend⟩ := h.u16At
  rw [Vector.length_toList] at hend
  have hsegment : ∀ i (hi : i < 8), U16At data (p + 2 * i) addr.segments[i] := by
    intro i hi
    have hi' := hall i (by rwa [Vector.length_toList])
    rwa [Vector.getElem_toList] at hi'
  obtain ⟨raw₁, h₁, hu₁, hl₁⟩ := (hsegment 0 (by decide)).u32At (hsegment 1 (by decide))
  obtain ⟨raw₂, h₂, hu₂, hl₂⟩ := (hsegment 2 (by decide)).u32At (hsegment 3 (by decide))
  obtain ⟨raw₃, h₃, hu₃, hl₃⟩ := (hsegment 4 (by decide)).u32At (hsegment 5 (by decide))
  obtain ⟨raw₄, h₄, hu₄, hl₄⟩ := (hsegment 6 (by decide)).u32At (hsegment 7 (by decide))
  refine ⟨hend, raw₁, raw₂, raw₃, raw₄, h₁, h₂, h₃, h₄, ?_⟩
  unfold DnsRecord.ipv6OfU32
  simp only [hu₁, hl₁, hu₂, hl₂, hu₃, hl₃, hu₄, hl₄, vector_eight]

/-! ## What is read -/

/-- What is read of a name. -/
def Unicode.asRead (U : Unicode) (name : String) : String := U.name (nameBytes name)

/-- What is read of a question. -/
def DnsQuestion.asRead (U : Unicode) (question : DnsQuestion) : DnsQuestion :=
  ⟨U.asRead question.name, .fromNum question.qtype.toNum⟩

namespace DnsRecord

/-- What is read of a record.  The length of a text becomes its first character. -/
def asRead (U : Unicode) : DnsRecord → DnsRecord
  | unknown domain qtype dataLen ttl => unknown domain qtype dataLen ttl
  | a domain addr ttl => a (U.asRead domain) addr ttl
  | ns domain host ttl => ns (U.asRead domain) (U.asRead host) ttl
  | cname domain host ttl => cname (U.asRead domain) (U.asRead host) ttl
  | soa domain mName rName serial refresh retry expire minimum ttl =>
    soa (U.asRead domain) (U.asRead mName) (U.asRead rName) serial refresh retry expire minimum ttl
  | ptr domain data ttl => ptr (U.asRead domain) (U.asRead data) ttl
  | mx domain priority host ttl => mx (U.asRead domain) priority (U.asRead host) ttl
  | txt domain data ttl =>
    txt (U.asRead domain) (U.fromUtf8Lossy (data.utf8ByteSize.toUInt8 :: utf8 data)) ttl
  | aaaa domain addr ttl => aaaa (U.asRead domain) addr ttl
  | srv domain priority weight port host ttl =>
    srv (U.asRead domain) priority weight port (U.asRead host) ttl
  | opt packetLen flags data => opt packetLen flags data
  | tlsa domain certificateUsage selector matchingType data ttl =>
    tlsa (U.asRead domain) certificateUsage selector matchingType data ttl

/-- The bytes of a record whose number tells the reader where they end. -/
def rangeSize : DnsRecord → ℕ
  | txt _ data _ => data.utf8ByteSize + 1
  | opt _ _ data => data.utf8ByteSize
  | tlsa _ _ _ _ data _ => data.length + 3
  | unknown .. | a .. | ns .. | cname .. | soa .. | ptr .. | mx .. | aaaa .. | srv .. => 0

/-- A record that a reader gets over. -/
structure Legible (rec : DnsRecord) : Prop where
  names : ∀ name ∈ rec.names, LegibleName name
  range_lt : rec.rangeSize < 2 ^ 16

end DnsRecord

section

open Encoder

variable (U : Unicode) (checks : Bool)

theorem DnsQuestion.laysOut_asRead {question : DnsQuestion} (h : LegibleName question.name) :
    question.encoder.LaysOut fun data p q => QuestionAt U data p (question.asRead U) q := by
  refine ((LaysOut.qname h).andThen <| (LaysOut.u16 _).andThen (LaysOut.u16 _)).mono
    fun data p q => ?_
  rintro ⟨m, hname, _, ⟨hqtype, rfl⟩, hklass, rfl⟩
  exact .mk hname hqtype hklass

namespace DnsRecord

variable {domain host : String} {ttl : UInt32}

/-- The first four fields of a record. -/
theorem laysOut_head (qtype : QueryType) (ttl : UInt32) (h : LegibleName domain) :
    (headEncoder domain qtype ttl).LaysOut fun data p q => ∃ m, q = m + 8 ∧
      NameAt data p (nameBytes domain) m ∧ U16At data m qtype.toNum ∧ U16At data (m + 2) 1 ∧
      U32At data (m + 4) ttl := by
  refine ((LaysOut.qname h).andThen <| (LaysOut.u16 _).andThen <| (LaysOut.u16 _).andThen
    (LaysOut.u32 _)).mono fun data p q => ?_
  rintro ⟨m, hname, _, ⟨hqtype, rfl⟩, _, ⟨hklass, rfl⟩, httl, rfl⟩
  exact ⟨m, rfl, hname, hqtype, hklass, httl⟩

/-- A record is its first four fields, the length of its data and its data. -/
theorem laysOut_of_data {qtype : QueryType} {rec : DnsRecord} {e : Encoder}
    {F : List UInt8 → ℕ → ℕ → Prop} (hdomain : LegibleName domain)
    (hqtype : QueryType.fromNum qtype.toNum = qtype) (he : e.LaysOut F)
    (hF : ∀ data p q, F data p q → ∃ len, U16At data p len ∧
      DataAt U checks 0 data (U.asRead domain) qtype.toNum 1 ttl len qtype (p + 2) rec q) :
    ((headEncoder domain qtype ttl).andThen e).LaysOut fun data p q =>
      RecordAt U checks 0 data p rec q := by
  refine ((laysOut_head qtype ttl hdomain).andThen he).mono fun data p q => ?_
  rintro ⟨_, ⟨m, rfl, hname, hnum, hklass, httl⟩, hdata⟩
  obtain ⟨len, hlen, hdata⟩ := hF _ _ _ hdata
  refine .mk hname hnum hklass httl hlen ?_
  rw [hqtype]
  exact hdata

/-- A record whose data is one name. -/
theorem laysOut_nameRecord {qtype : QueryType} {rec : DnsRecord}
    (hdomain : LegibleName domain) (hhost : LegibleName host)
    (hqtype : QueryType.fromNum qtype.toNum = qtype)
    (hrec : ∀ data p q len, NameAt data p (nameBytes host) q →
      DataAt U checks 0 data (U.asRead domain) qtype.toNum 1 ttl len qtype p rec q) :
    ((headEncoder domain qtype ttl).andThen (Encoder.qname host).sized).LaysOut fun data p q =>
      RecordAt U checks 0 data p rec q := by
  refine laysOut_of_data U checks hdomain hqtype (LaysOut.qname hhost).sized fun data p q => ?_
  rintro ⟨⟨len, hlen⟩, hname⟩
  exact ⟨len, hlen, hrec _ _ _ len hname⟩

theorem laysOut_a (hdomain : LegibleName domain) (addr : Ipv4Addr) :
    (a domain addr ttl).encoder.LaysOut fun data p q =>
      RecordAt U checks 0 data p (a (U.asRead domain) addr ttl) q := by
  refine laysOut_of_data U checks hdomain rfl ((LaysOut.u16 4).andThen (LaysOut.emit _))
    fun data p q => ?_
  rintro ⟨_, ⟨hlen, rfl⟩, haddr, rfl⟩
  obtain ⟨raw, hraw, rfl⟩ := haddr.ipv4At
  rw [Vector.length_toList]
  exact ⟨4, hlen, .a hraw⟩

theorem laysOut_aaaa (hdomain : LegibleName domain) (addr : Ipv6Addr) :
    (aaaa domain addr ttl).encoder.LaysOut fun data p q =>
      RecordAt U checks 0 data p (aaaa (U.asRead domain) addr ttl) q := by
  refine laysOut_of_data U checks hdomain rfl
    ((LaysOut.u16 16).andThen (LaysOut.all fun v _ => LaysOut.u16 v)) fun data p q => ?_
  rintro ⟨_, ⟨hlen, rfl⟩, haddr⟩
  obtain ⟨rfl, raw₁, raw₂, raw₃, raw₄, h₁, h₂, h₃, h₄, rfl⟩ := haddr.ipv6At
  exact ⟨16, hlen, .aaaa h₁ h₂ h₃ h₄⟩

theorem laysOut_mx (hdomain : LegibleName domain) (priority : UInt16) (hhost : LegibleName host) :
    (mx domain priority host ttl).encoder.LaysOut fun data p q =>
      RecordAt U checks 0 data p (mx (U.asRead domain) priority (U.asRead host) ttl) q := by
  refine laysOut_of_data U checks hdomain rfl
    ((LaysOut.u16 priority).andThen (LaysOut.qname hhost)).sized fun data p q => ?_
  rintro ⟨⟨len, hlen⟩, _, ⟨hpriority, rfl⟩, hname⟩
  exact ⟨len, hlen, .mx hpriority hname⟩

theorem laysOut_srv (hdomain : LegibleName domain) (priority weight port : UInt16)
    (hhost : LegibleName host) :
    (srv domain priority weight port host ttl).encoder.LaysOut fun data p q =>
      RecordAt U checks 0 data p (srv (U.asRead domain) priority weight port (U.asRead host) ttl) q := by
  refine laysOut_of_data U checks hdomain rfl
    ((LaysOut.u16 priority).andThen <| (LaysOut.u16 weight).andThen <|
      (LaysOut.u16 port).andThen (LaysOut.qname hhost)).sized fun data p q => ?_
  rintro ⟨⟨len, hlen⟩, _, ⟨hpriority, rfl⟩, _, ⟨hweight, rfl⟩, _, ⟨hport, rfl⟩, hname⟩
  exact ⟨len, hlen, .srv hpriority hweight hport hname⟩

theorem laysOut_soa {mName rName : String} (hdomain : LegibleName domain) (hmName : LegibleName mName)
    (hrName : LegibleName rName) (serial refresh retry expire minimum : UInt32) :
    (soa domain mName rName serial refresh retry expire minimum ttl).encoder.LaysOut fun data p q =>
      RecordAt U checks 0 data p (soa (U.asRead domain) (U.asRead mName) (U.asRead rName) serial
        refresh retry expire minimum ttl) q := by
  refine laysOut_of_data U checks hdomain rfl
    ((LaysOut.qname hmName).andThen <| (LaysOut.qname hrName).andThen <|
      (LaysOut.u32 serial).andThen <| (LaysOut.u32 refresh).andThen <|
      (LaysOut.u32 retry).andThen <| (LaysOut.u32 expire).andThen (LaysOut.u32 minimum)).sized
    fun data p q => ?_
  rintro ⟨⟨len, hlen⟩, _, hm, r, hr, _, ⟨h₁, rfl⟩, _, ⟨h₂, rfl⟩, _, ⟨h₃, rfl⟩, _, ⟨h₄, rfl⟩,
    h₅, rfl⟩
  exact ⟨len, hlen, .soa hm hr h₁ h₂ h₃ h₄ h₅⟩

/-- Data that is one range. -/
theorem rangeAt_bytes {data xs : List UInt8} {p : ℕ} {len : UInt16} (h : BytesAt data p xs)
    (hlen : len.toNat = xs.length) : RangeAt 0 data p len.toNat xs := by
  rw [hlen]
  exact h

/-- The length of the data of a text record counts the byte with the length of the text. -/
theorem toNat_txtLen {data : String} (hsize : data.utf8ByteSize + 1 < 2 ^ 16) :
    (data.utf8ByteSize + 1).toUInt16.toNat = (data.utf8ByteSize.toUInt8 :: utf8 data).length := by
  rw [List.length_cons, utf8, HasSize.length_utf8]
  exact Nat.mod_eq_of_lt hsize

theorem laysOut_txt {data : String} (hdomain : LegibleName domain)
    (hsize : data.utf8ByteSize + 1 < 2 ^ 16) :
    (txt domain data ttl).encoder.LaysOut fun bytes p q => RecordAt U checks 0 bytes p
      (txt (U.asRead domain) (U.fromUtf8Lossy (data.utf8ByteSize.toUInt8 :: utf8 data)) ttl) q := by
  have htext : ((emit [data.utf8ByteSize.toUInt8]).andThen (emit data.toUTF8.data.toList)).LaysOut _ :=
    LaysOut.emit (data.utf8ByteSize.toUInt8 :: utf8 data)
  refine laysOut_of_data U checks hdomain rfl ((LaysOut.u16 _).andThen htext) fun bytes p q => ?_
  rintro ⟨_, ⟨hlen, rfl⟩, hbytes, rfl⟩
  refine ⟨_, hlen, ?_⟩
  rw [← toNat_txtLen hsize]
  exact .txt (rangeAt_bytes hbytes (toNat_txtLen hsize))

theorem laysOut_opt {data : String} (packetLen : UInt16) (flags : UInt32)
    (hsize : data.utf8ByteSize < 2 ^ 16) :
    (opt packetLen flags data).encoder.LaysOut fun bytes p q =>
      RecordAt U checks 0 bytes p (opt packetLen flags data) q := by
  refine ((LaysOut.byte 0).andThen <| (LaysOut.u16 _).andThen <| (LaysOut.u16 packetLen).andThen <|
    (LaysOut.u32 flags).andThen <| (LaysOut.u16 _).andThen (LaysOut.emit (utf8 data))).mono
    fun bytes p q => ?_
  rintro ⟨_, ⟨hroot, rfl⟩, _, ⟨hqtype, rfl⟩, _, ⟨hklass, rfl⟩, _, ⟨httl, rfl⟩, _, ⟨hlen, rfl⟩,
    hdata, rfl⟩
  have hlength : data.utf8ByteSize.toUInt16.toNat = (utf8 data).length :=
    (Nat.mod_eq_of_lt hsize).trans (HasSize.length_utf8 data).symm
  have hopt : DataAt U checks 0 bytes (U.name []) QueryType.opt.toNum packetLen flags
      data.utf8ByteSize.toUInt16 .opt (p + 1 + 10) _ _ := .opt (rangeAt_bytes hdata hlength)
  rw [utf8, U.fromUtf8Lossy_toUTF8, hlength] at hopt
  exact .mk (.stop hroot) hqtype hklass httl hlen hopt

/-- The length of what follows the first three bytes of TLSA data. -/
theorem subU16_three {n : ℕ} (h : n + 3 < 2 ^ 16) :
    Exec.subU16 checks (n + 3).toUInt16 3 = .ok n.toUInt16 := by
  have hsum : (n + 3).toUInt16.toNat = n + 3 := Nat.mod_eq_of_lt h
  unfold Exec.subU16
  rw [Exec.guarded_of_false]
  · apply congrArg Except.ok
    apply UInt16.toNat_inj.mp
    rw [UInt16.toNat_sub_of_le _ _ (UInt16.le_iff_toNat_le.mpr (by rw [hsum]; exact le_add_self)), hsum]
    exact (Nat.mod_eq_of_lt (by omega)).symm
  · rw [hsum]
    exact decide_eq_false (by simp)

theorem laysOut_tlsa {data : List UInt8} (hdomain : LegibleName domain)
    (certificateUsage selector matchingType : UInt8) (hsize : data.length + 3 < 2 ^ 16) :
    (tlsa domain certificateUsage selector matchingType data ttl).encoder.LaysOut fun bytes p q =>
      RecordAt U checks 0 bytes p
        (tlsa (U.asRead domain) certificateUsage selector matchingType data ttl) q := by
  refine laysOut_of_data U checks hdomain rfl
    ((LaysOut.u16 _).andThen <| (LaysOut.byte certificateUsage).andThen <|
      (LaysOut.byte selector).andThen <| (LaysOut.byte matchingType).andThen
      (LaysOut.emit data)) fun bytes p q => ?_
  rintro ⟨_, ⟨hlen, rfl⟩, _, ⟨h₁, rfl⟩, _, ⟨h₂, rfl⟩, _, ⟨h₃, rfl⟩, hdata, rfl⟩
  have hlength : data.length.toUInt16.toNat = data.length := Nat.mod_eq_of_lt (by omega)
  have htlsa : DataAt U checks 0 bytes (U.asRead domain) QueryType.tlsa.toNum 1 ttl
      (data.length + 3).toUInt16 .tlsa (p + 2) _ _ :=
    .tlsa h₁ h₂ h₃ (subU16_three checks hsize) (rangeAt_bytes hdata hlength)
  rw [hlength] at htlsa
  exact ⟨_, hlen, htlsa⟩

/-- **Records are laid out**, as they are read. -/
theorem laysOut_asRead {rec : DnsRecord} (hknown : ¬ rec.IsUnknown) (h : rec.Legible) :
    rec.encoder.LaysOut fun data p q => RecordAt U checks 0 data p (rec.asRead U) q := by
  obtain ⟨hnames, hrange⟩ := h
  cases rec with
  | unknown => exact absurd trivial hknown
  | a => exact laysOut_a U checks (hnames _ List.mem_cons_self) _
  | ns =>
    exact laysOut_nameRecord U checks (hnames _ List.mem_cons_self)
      (hnames _ (List.mem_cons_of_mem _ List.mem_cons_self)) rfl fun _ _ _ _ hname => .ns hname
  | cname =>
    exact laysOut_nameRecord U checks (hnames _ List.mem_cons_self)
      (hnames _ (List.mem_cons_of_mem _ List.mem_cons_self)) rfl fun _ _ _ _ hname => .cname hname
  | soa =>
    exact laysOut_soa U checks (hnames _ List.mem_cons_self)
      (hnames _ (List.mem_cons_of_mem _ List.mem_cons_self))
      (hnames _ (List.mem_cons_of_mem _ (List.mem_cons_of_mem _ List.mem_cons_self))) _ _ _ _ _
  | ptr =>
    exact laysOut_nameRecord U checks (hnames _ List.mem_cons_self)
      (hnames _ (List.mem_cons_of_mem _ List.mem_cons_self)) rfl fun _ _ _ _ hname => .ptr hname
  | mx =>
    exact laysOut_mx U checks (hnames _ List.mem_cons_self) _
      (hnames _ (List.mem_cons_of_mem _ List.mem_cons_self))
  | txt => exact laysOut_txt U checks (hnames _ List.mem_cons_self) hrange
  | aaaa => exact laysOut_aaaa U checks (hnames _ List.mem_cons_self) _
  | srv =>
    exact laysOut_srv U checks (hnames _ List.mem_cons_self) _ _ _
      (hnames _ (List.mem_cons_of_mem _ List.mem_cons_self))
  | opt => exact laysOut_opt U checks _ _ hrange
  | tlsa => exact laysOut_tlsa U checks (hnames _ List.mem_cons_self) _ _ _ hrange

end DnsRecord

end

/-! ## What comes back -/

/-- A question that comes back: its type is one that is read. -/
structure DnsQuestion.Valid (question : DnsQuestion) : Prop where
  name : ValidName question.name
  qtype : ∃ num, question.qtype = .fromNum num

/-- A text record. -/
def DnsRecord.IsTxt : DnsRecord → Prop
  | txt _ _ _ => True
  | _ => False

/-- A record that comes back. -/
structure DnsRecord.Valid (rec : DnsRecord) : Prop where
  names : ∀ name ∈ rec.names, ValidName name
  not_txt : ¬ rec.IsTxt
  not_unknown : ¬ rec.IsUnknown

theorem DnsQuestion.Valid.asRead {question : DnsQuestion} (h : question.Valid) (U : Unicode) :
    question.asRead U = question := by
  obtain ⟨num, hnum⟩ := h.qtype
  rw [DnsQuestion.asRead, Unicode.asRead, U.name_nameBytes h.name, hnum, QueryType.toNum_fromNum,
    ← hnum]

/-- A valid record comes back as it is. -/
theorem DnsRecord.Valid.asRead {rec : DnsRecord} (h : rec.Valid) (U : Unicode) :
    rec.asRead U = rec := by
  have hname : ∀ name ∈ rec.names, U.asRead name = name :=
    fun name hmem => U.name_nameBytes (h.names name hmem)
  cases rec with
  | txt => exact absurd trivial h.not_txt
  | unknown | opt => rfl
  | a | aaaa | tlsa | ns | cname | ptr | mx | srv | soa =>
    simp only [DnsRecord.names, List.mem_cons, List.not_mem_nil, or_false, forall_eq_or_imp,
      forall_eq] at hname
    simp only [DnsRecord.asRead, hname]

/-- Valid records come back as they are. -/
theorem DnsRecord.map_asRead_of_valid {records : List DnsRecord} (h : ∀ rec ∈ records, rec.Valid)
    (U : Unicode) : (records.filter fun rec => ¬ rec.IsUnknown).map (asRead U) = records := by
  rw [List.filter_eq_self.mpr fun rec hrec => decide_eq_true (h rec hrec).not_unknown]
  exact (List.map_congr_left fun rec hrec => (h rec hrec).asRead U).trans (List.map_id _)

/-- The data of a record is written. -/
theorem DnsRecord.rangeSize_le (rec : DnsRecord) (p : ℕ) (table : Labels) :
    rec.rangeSize ≤ (rec.encoder p table).1.length := by
  cases rec with
  | txt domain data ttl | opt packetLen flags data =>
    have hlength := Encoder.HasSize.length_utf8 data
    simp only [rangeSize, encoder, Encoder.andThen, Encoder.emit, Encoder.u16, List.length_append,
      List.length_singleton]
    omega
  | tlsa =>
    simp only [rangeSize, encoder, Encoder.andThen, Encoder.emit, Encoder.u16, List.length_append,
      List.length_singleton]
    omega
  | _ => exact Nat.zero_le _

/-- Wherever one encoder writes, the other one has written no more at some place. -/
def Encoder.Within (f e : Encoder) : Prop :=
  ∀ p table, ∃ p' table', (f p' table').1.length ≤ (e p table).1.length

namespace Encoder.Within

variable {e f g : Encoder}

theorem trans (hf : f.Within g) (hg : g.Within e) : f.Within e := by
  intro p table
  obtain ⟨p', table', hle⟩ := hg p table
  obtain ⟨p'', table'', hle'⟩ := hf p' table'
  exact ⟨p'', table'', hle'.trans hle⟩

/-- What comes first is written. -/
theorem fst (e f : Encoder) : e.Within (e.andThen f) := by
  intro p table
  refine ⟨p, table, ?_⟩
  rw [andThen, List.length_append]
  exact Nat.le_add_right _ _

/-- What comes last is written. -/
theorem snd (e f : Encoder) : f.Within (e.andThen f) := by
  intro p table
  refine ⟨p + (e p table).1.length, (e p table).2, ?_⟩
  rw [andThen, List.length_append]
  exact Nat.le_add_left _ _

/-- Each of a list is written. -/
theorem item {α : Type} (g : α → Encoder) {as : List α} {a : α} (h : a ∈ as) :
    (g a).Within (.all g as) := by
  induction as with
  | nil => exact absurd h List.not_mem_nil
  | cons b as ih =>
    rcases List.mem_cons.mp h with rfl | h
    · exact fst _ _
    · exact (ih h).trans (snd _ _)

end Encoder.Within

/-- Valid records are legible if they are among what is written and pointers reach all of it. -/
theorem DnsRecord.Valid.legible {rec : DnsRecord} (h : rec.Valid) {e : Encoder} {p : ℕ}
    {table : Labels} (hwithin : rec.encoder.Within e) (hsize : (e p table).1.length ≤ 0x4000) :
    rec.Legible := by
  obtain ⟨p', table', hle⟩ := hwithin p table
  have hrange := rec.rangeSize_le p' table'
  exact ⟨fun name hname => (h.names name hname).legible, by omega⟩

/-- **Valid records are laid out.** -/
theorem DnsRecord.laysOut_encoder (U : Unicode) (checks : Bool) {rec : DnsRecord} (h : rec.Valid)
    (hlegible : rec.Legible) :
    rec.encoder.LaysOut fun data p q => RecordAt U checks 0 data p rec q := by
  have hlays := laysOut_asRead U checks h.not_unknown hlegible
  rwa [h.asRead] at hlays

theorem DnsQuestion.laysOut_encoder (U : Unicode) {question : DnsQuestion} (h : question.Valid) :
    question.encoder.LaysOut fun data p q => QuestionAt U data p question q := by
  have hlays := laysOut_asRead U h.name.legible
  rwa [h.asRead] at hlays
