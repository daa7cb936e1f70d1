/-
# Faults while parsing

What is parsed comes from the network.  Datagrams and streams answer a read beyond their end with an
error; a vector, which holds the body of an HTTPS response, does not check, and the access is out of
range.  Whatever the buffer is, one number in a message is used without a check: the length of the
data of a TLSA record, of which three bytes have been read before the three are taken away from it.

So a datagram or a stream is parsed without a fault exactly if the parser does not come to a TLSA
record with a smaller length, and a vector is exactly if it holds a whole message.
-/
import Ruvname.NameTermination
import Ruvname.RoundTrip

open PacketBuffer ReadableBuffer

open Procedure (Closed)

variable {β : Type} [PacketBuffer β]

/-! ## What the reading methods keep -/

/-- The reading methods that a kind of buffer has of its own have a property. -/
structure KeptBy (C : Closed β BufferError) : Prop where
  read : C.holds (read : BufferM β UInt8)
  get : ∀ i, C.holds (get i : BufferM β UInt8)
  getRange : ∀ start len, C.holds (getRange start len : BufferM β (List UInt8))
  seek : ∀ i, C.holds (seek i : BufferM β Unit)
  step : ∀ n, C.holds (step n : BufferM β Unit)

namespace KeptBy

variable {C : Closed β BufferError} (h : KeptBy C)

include h

/-- What the basic methods have, the numbers have. -/
theorem readU16 : C.holds (readU16 : BufferM β UInt16) :=
  C.bind h.read fun _ => C.bind h.read fun _ => C.pure _

theorem readU32 : C.holds (readU32 : BufferM β UInt32) :=
  C.bind h.read fun _ => C.bind h.read fun _ => C.bind h.read fun _ => C.bind h.read fun _ =>
    C.pure _

/-- A change of the position. -/
theorem seekUnless (jumped : Bool) (i : ℕ) : C.holds (seekUnless jumped i : BufferM β Unit) := by
  cases jumped with
  | false => exact h.seek i
  | true => exact C.pure ()

/-- One round of the loop over the labels. -/
theorem readLabel (U : Unicode) (c : NameCursor) :
    C.holds (readLabel U c : BufferM β (NameCursor ⊕ NameCursor)) := by
  refine C.bind (h.get _) fun len => ?_
  split_ifs
  · exact C.bind (h.seekUnless _ _) fun _ => C.bind (h.get _) fun _ => C.pure _
  · exact C.pure _
  · exact C.bind (h.getRange _ _) fun _ => C.pure _

/-- A name, which is the loop over its labels. -/
theorem readQname (U : Unicode) (outstr : String) :
    C.holds (readQname U outstr : BufferM β String) :=
  C.bind (C.gets _) fun _ => C.bind (C.loop (h.readLabel U) _) fun _ =>
    C.bind (h.seekUnless _ _) fun _ => C.pure _

/-- A header, which is six numbers. -/
theorem header : C.holds (DnsHeader.read : BufferM β DnsHeader) :=
  C.bind h.readU16 fun _ => C.bind h.readU16 fun _ => C.bind h.readU16 fun _ =>
    C.bind h.readU16 fun _ => C.bind h.readU16 fun _ => C.bind h.readU16 fun _ => C.pure _

/-- A question, which is a name and two numbers. -/
theorem question (U : Unicode) : C.holds (DnsQuestion.read U : BufferM β DnsQuestion) :=
  C.bind (h.readQname U "") fun _ => C.bind h.readU16 fun _ => C.bind h.readU16 fun _ => C.pure _

/-- A range, which is stepped over. -/
theorem readRange (len : ℕ) : C.holds (DnsRecord.readRange len : BufferM β (List UInt8)) :=
  C.bind (C.gets _) fun _ => C.bind (h.getRange _ _) fun _ => C.bind (h.step _) fun _ => C.pure _

/-- The data of a record, but for the subtraction in TLSA data. -/
theorem readData (U : Unicode) (checks : Bool) (domain : String) (qtypeNum klass : UInt16)
    (ttl : UInt32) (dataLen : UInt16) {qtype : QueryType}
    (hsub : qtype = .tlsa → C.holds (Procedure.exec (Exec.subU16 checks dataLen 3))) :
    C.holds (DnsRecord.readData U checks domain qtypeNum klass ttl dataLen qtype) := by
  have hname {mk : String → DnsRecord} :
      C.holds (PacketBuffer.readQname U "" >>= fun name => pure (mk name) : BufferM β DnsRecord) :=
    C.bind (h.readQname U "") fun _ => C.pure _
  cases qtype with
  | unknown num => exact C.bind (h.step _) fun _ => C.pure _
  | a => exact C.bind h.readU32 fun _ => C.pure _
  | ns => exact hname
  | cname => exact hname
  | soa =>
    exact C.bind (h.readQname U "") fun _ => C.bind (h.readQname U "") fun _ =>
      C.bind h.readU32 fun _ => C.bind h.readU32 fun _ => C.bind h.readU32 fun _ =>
      C.bind h.readU32 fun _ => C.bind h.readU32 fun _ => C.pure _
  | ptr => exact hname
  | mx => exact C.bind h.readU16 fun _ => hname
  | txt => exact C.bind (h.readRange _) fun _ => C.pure _
  | aaaa =>
    exact C.bind h.readU32 fun _ => C.bind h.readU32 fun _ => C.bind h.readU32 fun _ =>
      C.bind h.readU32 fun _ => C.pure _
  | srv => exact C.bind h.readU16 fun _ => C.bind h.readU16 fun _ => C.bind h.readU16 fun _ => hname
  | opt => exact C.bind (h.readRange _) fun _ => C.pure _
  | tlsa =>
    exact C.bind h.read fun _ => C.bind h.read fun _ => C.bind h.read fun _ =>
      C.bind (hsub rfl) fun _ => C.bind (h.readRange _) fun _ => C.pure _

/-- A message, if the subtraction never stands in the way. -/
theorem fromBuffer (U : Unicode) (checks : Bool)
    (hsub : ∀ n, C.holds (Procedure.exec (Exec.subU16 checks n 3))) :
    C.holds (DnsPacket.fromBuffer U checks : BufferM β DnsPacket) := by
  have hrecord : C.holds (DnsRecord.read U checks : BufferM β DnsRecord) :=
    C.bind (h.readQname U "") fun _ => C.bind h.readU16 fun _ => C.bind h.readU16 fun _ =>
      C.bind h.readU32 fun _ => C.bind h.readU16 fun _ =>
      h.readData U checks _ _ _ _ _ fun _ => hsub _
  exact C.bind h.header fun _ => C.bind (C.times (h.question U) _) fun _ =>
    C.bind (C.times hrecord _) fun _ => C.bind (C.times hrecord _) fun _ =>
    C.bind (C.times hrecord _) fun _ => C.pure _

end KeptBy

/-! ## Buffers that check their bounds -/

/-- No fault stops the reading methods that a datagram has of its own. -/
theorem BytePacketBuffer.keptBy_safe : KeptBy (Procedure.safe BytePacketBuffer BufferError) where
  read := prompt_read.safe
  get i := (prompt_get i).safe
  getRange start len := (prompt_getRange start len).safe
  seek i := (prompt_seek i).safe
  step n := (prompt_step n).safe

namespace StreamPacketBuffer

/-- The stream ends with an error, not with a panic. -/
theorem safe_fill (n : ℕ) : (fill n).Safe := by
  refine (Procedure.prompt_act fun b => ?_).safe
  cases pull n b.stream b.buffer with
  | error e => exact Exec.returns_ok _
  | ok r => exact Exec.returns_ok _

/-- Once the stream has been read so far, a lookup that stays below does not fail. -/
theorem safeAt_fill_bind {α : Type} {n : ℕ}
    {f : StreamPacketBuffer → Exec (Except BufferError (α × StreamPacketBuffer))}
    {b : StreamPacketBuffer}
    (h : ∀ t : StreamPacketBuffer, t.pos = b.pos → n ≤ t.buffer.length → Exec.Returns (f t)) :
    (fill n >>= fun _ => (.act f : BufferM StreamPacketBuffer α)).SafeAt b := by
  refine Procedure.safeAt_bind.mpr ⟨(safe_fill n).safeAt b, fun _ t ht => ?_⟩
  obtain ⟨-, hpos, hlen⟩ := yields_fill ht
  obtain ⟨r, hr⟩ := h t hpos hlen
  refine Procedure.safeAt_act.mpr fun fault hfault => ?_
  rw [hr] at hfault
  cases hfault

end StreamPacketBuffer

/-- A byte inside is had. -/
theorem returns_indexByte {xs : List UInt8} {i : ℕ} (h : i < xs.length) :
    Exec.Returns (indexByte xs i) :=
  ⟨xs[i], indexByte_eq_ok.mpr (List.getElem?_eq_getElem h)⟩

/-- So is a slice inside. -/
theorem returns_sliceBytes {xs : List UInt8} {start len : ℕ} (h : start + len ≤ xs.length) :
    Exec.Returns (sliceBytes xs start len) :=
  ⟨_, sliceBytes_eq_ok.mpr ⟨h, rfl⟩⟩

/-- After the buffer has been filled the byte is inside. -/
theorem StreamPacketBuffer.safe_read : (read : BufferM StreamPacketBuffer UInt8).Safe := by
  refine Procedure.safe_of_safeAt fun b => Procedure.safeAt_bind.mpr
    ⟨(Procedure.prompt_act fun _ => Exec.returns_ok _).safe.safeAt b, fun p u hu => ?_⟩
  obtain ⟨rfl, rfl⟩ := Procedure.yields_gets.mp hu
  refine safeAt_fill_bind fun t hpos hlen => ?_
  obtain ⟨x, hx⟩ := returns_indexByte (hpos ▸ Nat.lt_of_succ_le hlen : t.pos < t.buffer.length)
  exact Exec.returns_bind.mpr ⟨x, hx, Exec.returns_ok _⟩

/-- Nor does one stop those of a stream. -/
theorem StreamPacketBuffer.keptBy_safe :
    KeptBy (Procedure.safe StreamPacketBuffer BufferError) where
  read := StreamPacketBuffer.safe_read
  get i := Procedure.safe_of_safeAt fun _ => StreamPacketBuffer.safeAt_fill_bind fun _ _ hlen => by
    obtain ⟨x, hx⟩ := returns_indexByte (Nat.lt_of_succ_le hlen)
    exact Exec.returns_bind.mpr ⟨x, hx, Exec.returns_ok _⟩
  getRange start len :=
    Procedure.safe_of_safeAt fun _ => StreamPacketBuffer.safeAt_fill_bind fun _ _ hlen => by
      obtain ⟨xs, hxs⟩ := returns_sliceBytes hlen
      exact Exec.returns_bind.mpr ⟨xs, hxs, Exec.returns_ok _⟩
  seek _ := (Procedure.prompt_act fun _ => Exec.returns_ok _).safe
  step _ := (Procedure.prompt_act fun _ => Exec.returns_ok _).safe

/-- Taking three away is a fault in a build with checks if there are less. -/
theorem safeAt_subU16 {σ ε : Type} (checks : Bool) (n : UInt16) (s : σ) :
    (Procedure.exec (Exec.subU16 checks n 3) : Procedure σ ε UInt16).SafeAt s ↔
      ¬ (checks = true ∧ n.toNat < 3) := by
  rw [Procedure.safeAt_exec, Exec.subU16, Exec.guarded]
  split_ifs with h
  · rw [Bool.and_eq_true, decide_eq_true_eq] at h
    refine iff_of_false (fun hfault => ?_) (not_not_intro h)
    exact absurd (hfault .overflow rfl) (by decide)
  · rw [Bool.and_eq_true, decide_eq_true_eq] at h
    exact iff_of_true (fun fault hfault => by cases hfault) h

/-! ## Short TLSA records -/

/-- Wherever there are two bytes there is a number. -/
theorem exists_u16At {data : List UInt8} {p : ℕ} (h : p + 2 ≤ data.length) : ∃ v, U16At data p v :=
  ⟨_, _, _, List.getElem?_eq_getElem (by omega), List.getElem?_eq_getElem (by omega), rfl⟩

theorem exists_u32At {data : List UInt8} {p : ℕ} (h : p + 4 ≤ data.length) : ∃ v, U32At data p v :=
  ⟨_, _, _, _, _, List.getElem?_eq_getElem (by omega), List.getElem?_eq_getElem (by omega),
    List.getElem?_eq_getElem (by omega), List.getElem?_eq_getElem (by omega), rfl⟩

/-- At the position there is the head of a TLSA record that says its data has less than three bytes,
and three bytes behind it. -/
def TlsaTooShort (data : List UInt8) (p : ℕ) : Prop :=
  ∃ labels m dataLen, NameAt data p labels m ∧ U16At data m QueryType.tlsa.toNum ∧
    U16At data (m + 8) dataLen ∧ dataLen.toNat < 3 ∧ m + 13 ≤ data.length

/-- A message has such a record where the next record is read: all questions and some records are
laid out before it, and the header counts one more. -/
inductive ComesToShortTlsa (U : Unicode) (checks : Bool) (slack : ℕ) (data : List UInt8) (p : ℕ) :
    Prop
  | mk {header : DnsHeader} {qs : List DnsQuestion} {recs : List DnsRecord} {q r : ℕ}
      (hheader : HeaderAt data p header) (questions : ManyAt (QuestionAt U data) (p + 12) qs q)
      (hquestions : qs.length = header.questions.toNat)
      (records : ManyAt (RecordAt U checks slack data) q recs r)
      (hlt : recs.length < header.answers.toNat + header.authoritativeEntries.toNat
        + header.resourceEntries.toNat)
      (tlsa : TlsaTooShort data r)

/-! ## Messages in checked buffers -/

namespace KeptBy

open Procedure.Judgement

variable [ReadableBuffer β] (h : KeptBy (Procedure.safe β BufferError)) (U : Unicode) (checks : Bool)

include h

/-- **The data of a TLSA record** is read without a fault unless three bytes of it are there and its
length is less than three. -/
theorem when_tlsa (domain : String) (qtypeNum klass : UInt16) (ttl : UInt32) (dataLen : UInt16) :
    (Procedure.safety β BufferError).When
      (DnsRecord.readData U checks domain qtypeNum klass ttl dataLen .tlsa)
      fun data p => ¬ (checks = true ∧ dataLen.toNat < 3 ∧ p + 3 ≤ data.length) := by
  have hread : (PacketBuffer.read : BufferM β UInt8).Safe := h.read
  have hrange : ∀ len, (DnsRecord.readRange len : BufferM β (List UInt8)).Safe := h.readRange
  have hsub : (Procedure.safety β BufferError).When
      (Procedure.exec (Exec.subU16 checks dataLen 3) : BufferM β UInt16)
      fun _ _ => ¬ (checks = true ∧ dataLen.toNat < 3) := safeAt_subU16 checks dataLen
  refine (When.always_bind hread.safeAt reads_read fun usage =>
    When.always_bind hread.safeAt reads_read fun selector =>
    When.always_bind hread.safeAt reads_read fun matching =>
    hsub.bind_always fun len => ((hrange _).bind fun _ =>
      Procedure.safe_pure _).safeAt).congr fun data p => ?_
  constructor
  · rintro hwhen ⟨hchecks, hshort, hlength⟩
    exact hwhen _ _ ⟨List.getElem?_eq_getElem (by omega), rfl⟩ _ _
      ⟨List.getElem?_eq_getElem (by omega), rfl⟩ _ _ ⟨List.getElem?_eq_getElem (by omega), rfl⟩
      ⟨hchecks, hshort⟩
  · rintro hwhen _ _ ⟨h₁, rfl⟩ _ _ ⟨h₂, rfl⟩ _ _ ⟨h₃, rfl⟩ ⟨hchecks, hshort⟩
    exact hwhen ⟨hchecks, hshort, lt_length_of_getElem? h₃⟩

/-- The data of a record is read without a fault unless it is a TLSA record of less than three
bytes. -/
theorem when_readData (domain : String) (qtypeNum klass : UInt16) (ttl : UInt32)
    (dataLen : UInt16) (qtype : QueryType) :
    (Procedure.safety β BufferError).When
      (DnsRecord.readData U checks domain qtypeNum klass ttl dataLen qtype)
      fun data p => ¬ (checks = true ∧ qtype = .tlsa ∧ dataLen.toNat < 3 ∧ p + 3 ≤ data.length) := by
  by_cases htlsa : qtype = .tlsa
  · subst htlsa
    exact (h.when_tlsa U checks domain qtypeNum klass ttl dataLen).congr fun _ _ => by simp
  · have hsafe : (DnsRecord.readData U checks domain qtypeNum klass ttl dataLen qtype :
        BufferM β DnsRecord).Safe :=
      h.readData U checks domain qtypeNum klass ttl dataLen fun heq => absurd heq htlsa
    exact (When.always hsafe.safeAt).congr fun _ _ => by simp [htlsa]

/-- The same for a whole record. -/
theorem when_record :
    (Procedure.safety β BufferError).When (DnsRecord.read U checks)
      fun data p => ¬ (checks = true ∧ TlsaTooShort data p) := by
  have hname : (PacketBuffer.readQname U "" : BufferM β String).Safe := h.readQname U ""
  have hu16 : (PacketBuffer.readU16 : BufferM β UInt16).Safe := h.readU16
  have hu32 : (PacketBuffer.readU32 : BufferM β UInt32).Safe := h.readU32
  refine (When.always_bind hname.safeAt (reads_name U) fun domain =>
    When.always_bind hu16.safeAt reads_readU16 fun qtypeNum =>
    When.always_bind hu16.safeAt reads_readU16 fun klass =>
    When.always_bind hu32.safeAt reads_readU32 fun ttl =>
    When.always_bind hu16.safeAt reads_readU16 fun dataLen =>
    h.when_readData U checks domain qtypeNum klass ttl dataLen _).congr fun data p => ?_
  constructor
  · rintro hwhen ⟨hchecks, labels, m, dataLen, hname, hqtype, hlen, hshort, hlength⟩
    obtain ⟨klass, hklass⟩ := exists_u16At (p := m + 2) (show _ ≤ data.length by omega)
    obtain ⟨ttl, httl⟩ := exists_u32At (p := m + 4) (show _ ≤ data.length by omega)
    exact hwhen _ m ⟨labels, hname, rfl⟩ _ _ ⟨hqtype, rfl⟩ klass _ ⟨hklass, rfl⟩ ttl _ ⟨httl, rfl⟩
      dataLen _ ⟨hlen, rfl⟩ ⟨hchecks, rfl, hshort, hlength⟩
  · rintro hwhen _ m ⟨labels, hname, rfl⟩ qtypeNum _ ⟨hqtype, rfl⟩ klass _ ⟨-, rfl⟩ ttl _ ⟨-, rfl⟩
      dataLen _ ⟨hlen, rfl⟩ ⟨hchecks, htlsa, hshort, hlength⟩
    have hnum := congrArg QueryType.toNum htlsa
    rw [QueryType.toNum_fromNum] at hnum
    exact hwhen ⟨hchecks, labels, m, dataLen, hname, hnum ▸ hqtype, hlen, hshort, hlength⟩

/-- **When `from_buffer` is not stopped**: when it does not come to a TLSA record that is too
short. -/
theorem when_fromBuffer :
    (Procedure.safety β BufferError).When (DnsPacket.fromBuffer U checks)
      fun data p => ¬ (checks = true ∧ ComesToShortTlsa U checks (slack β) data p) := by
  have hheader : (DnsHeader.read : BufferM β DnsHeader).Safe := h.header
  have hquestions : ∀ n, ((DnsQuestion.read U : BufferM β DnsQuestion).times n).Safe :=
    (Procedure.safe β BufferError).times (h.question U)
  have hrecord := h.when_record U checks
  refine (When.always_bind hheader.safeAt reads_header fun header =>
    When.always_bind (hquestions header.questions.toNat).safeAt
      ((reads_question U).times header.questions.toNat) fun qs =>
    (hrecord.times (reads_record U checks) header.answers.toNat).bind
      ((reads_record U checks).times header.answers.toNat) fun answers =>
    (hrecord.times (reads_record U checks) header.authoritativeEntries.toNat).bind
      ((reads_record U checks).times header.authoritativeEntries.toNat) fun authorities =>
    (hrecord.times (reads_record U checks) header.resourceEntries.toNat).bind_always
      fun resources => (Procedure.safe_pure
        (⟨header, qs, answers, authorities, resources⟩ : DnsPacket)).safeAt).congr fun data p => ?_
  simp only [← forall_manyAt_add]
  constructor
  · rintro hwhen ⟨hchecks, hheader, questions, hquestions, records, hlt, tlsa⟩
    exact hwhen _ _ ⟨hheader, rfl⟩ _ _ ⟨hquestions, questions⟩ _ _ records (by omega)
      ⟨hchecks, tlsa⟩
  · rintro hwhen header _ ⟨hheader, rfl⟩ qs q ⟨hquestions, questions⟩ recs r records hlt
      ⟨hchecks, tlsa⟩
    exact hwhen ⟨hchecks, hheader, questions, hquestions, records, by omega, tlsa⟩

/-- What ends returns exactly when it is not stopped. -/
theorem returns_fromBuffer_iff {b : β} (hhalts : (DnsPacket.fromBuffer U checks).Halts b) :
    (DnsPacket.fromBuffer U checks).Returns b ↔
      ¬ (checks = true ∧ ComesToShortTlsa U checks (slack β) (contents b) (pos b)) :=
  (Procedure.returns_iff_safeAt hhalts).trans (h.when_fromBuffer U checks b)

end KeptBy

/-! ## Vectors -/

/-- No reading method of a vector fails with an error. -/
theorem VectorPacketBuffer.keptBy_unfailing :
    KeptBy (Procedure.unfailing VectorPacketBuffer BufferError) where
  read := Procedure.unfailing_act fun b e => by cases indexByte b.buffer b.pos <;> simp
  get i := Procedure.unfailing_act fun b e => by cases indexByte b.buffer i <;> simp
  getRange start len := Procedure.unfailing_act fun b e => by
    cases sliceBytes b.buffer start len <;> simp
  seek _ := Procedure.unfailing_act fun _ _ => by simp
  step _ := Procedure.unfailing_act fun _ _ => by simp

/-- **A vector is parsed exactly if it holds a whole message.** -/
theorem VectorPacketBuffer.returns_fromBuffer_iff (U : Unicode) (checks : Bool)
    (b : VectorPacketBuffer) :
    (DnsPacket.fromBuffer U checks).Returns b ↔
      ∃ packet next, PacketAt U checks 0 b.buffer b.pos packet next := by
  have hreads := ReadableBuffer.reads_fromBuffer (β := VectorPacketBuffer) U checks
  rw [(VectorPacketBuffer.keptBy_unfailing.fromBuffer U checks fun n =>
    Procedure.unfailing_exec _).returns_iff]
  constructor
  · rintro ⟨packet, t, ht⟩
    exact ⟨packet, t.pos, (hreads.sound b packet t ht).2⟩
  · rintro ⟨packet, next, hpacket⟩
    obtain ⟨t, ht, -⟩ := hreads.complete b packet next hpacket
    exact ⟨packet, t, ht⟩

/-! ## The three buffers -/

/-- **When parsing does not panic.**  A datagram and a stream of which parsing comes to an end are
parsed without a fault, with a packet or an error, exactly if a build without checks parses them or
parsing does not come to a TLSA record that is too short; a body in a vector exactly if it holds a
whole message. -/
theorem DnsPacket.fromBuffer_returns_iff (U : Unicode) (checks : Bool) :
    (∀ bytes : Vector UInt8 512, (fromBuffer U checks).Halts (⟨bytes, 0⟩ : BytePacketBuffer) →
      ((fromBuffer U checks).Returns (⟨bytes, 0⟩ : BytePacketBuffer) ↔
        ¬ (checks = true ∧ ComesToShortTlsa U checks 1 bytes.toList 0))) ∧
    (∀ stream : List UInt8, (fromBuffer U checks).Halts ({ stream := stream } : StreamPacketBuffer) →
      ((fromBuffer U checks).Returns ({ stream := stream } : StreamPacketBuffer) ↔
        ¬ (checks = true ∧ ComesToShortTlsa U checks 0 stream 0))) ∧
    (∀ body : List UInt8, (fromBuffer U checks).Halts ({ buffer := body } : VectorPacketBuffer) →
      ((fromBuffer U checks).Returns ({ buffer := body } : VectorPacketBuffer) ↔
        ∃ packet next, PacketAt U checks 0 body 0 packet next)) := by
  refine ⟨fun bytes hhalts => ?_, fun stream hhalts => ?_, fun body _ => ?_⟩
  · exact BytePacketBuffer.keptBy_safe.returns_fromBuffer_iff U checks hhalts
  · exact StreamPacketBuffer.keptBy_safe.returns_fromBuffer_iff U checks hhalts
  · exact VectorPacketBuffer.returns_fromBuffer_iff U checks { buffer := body }

/-- An empty response. -/
def emptyResponse : List UInt8 := [0, 7, 0x80, 0, 0, 0, 0, 0, 0, 0, 0, 0]

/-- A response with one TLSA record that says it has no data, and three bytes behind it. -/
def shortTlsa : List UInt8 :=
  [0, 7, 0x80, 0, 0, 0, 0, 1, 0, 0, 0, 0] ++ [0] ++ [0, 52, 0, 1, 0, 0, 0, 60, 0, 0] ++ [1, 1, 1]

/-- The bytes of a datagram. -/
def datagram (bytes : List UInt8) : Vector UInt8 512 :=
  ⟨((bytes ++ List.replicate 512 0).take 512).toArray, by
    rw [List.size_toArray, List.length_take, List.length_append, List.length_replicate]
    omega⟩

/-- A response without records is read from each of the buffers. -/
theorem DnsPacket.fromBuffer_returns_emptyResponse :
    ((fromBuffer .ascii true).Halts (⟨datagram emptyResponse, 0⟩ : BytePacketBuffer) ∧
      ((fromBuffer .ascii true).Returns (⟨datagram emptyResponse, 0⟩ : BytePacketBuffer) ↔
        ¬ (true = true ∧ ComesToShortTlsa .ascii true 1 (datagram emptyResponse).toList 0))) ∧
    ((fromBuffer .ascii true).Halts ({ stream := emptyResponse } : StreamPacketBuffer) ∧
      ((fromBuffer .ascii true).Returns ({ stream := emptyResponse } : StreamPacketBuffer) ↔
        ¬ (true = true ∧ ComesToShortTlsa .ascii true 0 emptyResponse 0))) ∧
    ((fromBuffer .ascii true).Halts ({ buffer := emptyResponse } : VectorPacketBuffer) ∧
      ((fromBuffer .ascii true).Returns ({ buffer := emptyResponse } : VectorPacketBuffer) ↔
        ∃ packet next, PacketAt .ascii true 0 emptyResponse 0 packet next)) := by
  obtain ⟨hbyte, hstream, hvector⟩ := fromBuffer_returns_iff .ascii true
  have h₁ : (fromBuffer .ascii true).Halts (⟨datagram emptyResponse, 0⟩ : BytePacketBuffer) :=
    Procedure.halts_of_run (n := 0) (by decide +kernel)
  have h₂ : (fromBuffer .ascii true).Halts ({ stream := emptyResponse } : StreamPacketBuffer) :=
    Procedure.halts_of_run (n := 0) (by decide +kernel)
  have h₃ : (fromBuffer .ascii true).Halts ({ buffer := emptyResponse } : VectorPacketBuffer) :=
    Procedure.halts_of_run (n := 0) (by decide +kernel)
  exact ⟨⟨h₁, hbyte _ h₁⟩, ⟨h₂, hstream _ h₂⟩, ⟨h₃, hvector _ h₃⟩⟩

/-- In each of the buffers, something is parsed that stops the parser: the short TLSA record, and, in
a vector, no bytes at all. -/
theorem DnsPacket.fromBuffer_stopped :
    ((fromBuffer .ascii true).Halts (⟨datagram shortTlsa, 0⟩ : BytePacketBuffer) ∧
      ¬ (fromBuffer .ascii true).Returns (⟨datagram shortTlsa, 0⟩ : BytePacketBuffer)) ∧
    ((fromBuffer .ascii true).Halts ({ stream := shortTlsa } : StreamPacketBuffer) ∧
      ¬ (fromBuffer .ascii true).Returns ({ stream := shortTlsa } : StreamPacketBuffer)) ∧
    (fromBuffer .ascii true).Halts ({ buffer := [] } : VectorPacketBuffer) ∧
      ¬ (fromBuffer .ascii true).Returns ({ buffer := [] } : VectorPacketBuffer) :=
  ⟨Procedure.stopped_of_run (n := 2) (by decide +kernel) (by decide : Fault.overflow ≠ _),
    Procedure.stopped_of_run (n := 2) (by decide +kernel) (by decide : Fault.overflow ≠ _),
    Procedure.stopped_of_run (n := 0) (by decide +kernel) (by decide : Fault.outOfRange ≠ _)⟩
