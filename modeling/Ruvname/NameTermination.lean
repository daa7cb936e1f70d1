/-
# When name decoding ends

The loop of `read_qname` goes from length byte to length byte, over labels and through pointers,
and keeps no record of where it has been.  In a datagram it comes to an end exactly when it does
not run into a cycle (`BytePacketBuffer.returns_readQname_iff`), and so `DnsPacket::from_buffer` ends
exactly when none of the names it reads does (`BytePacketBuffer.halts_fromBuffer_iff`).
-/
import Ruvname.Decoding

open PacketBuffer ReadableBuffer

/-! ## The way of the loop -/

/-- From the length byte at one position `read_qname` goes on with the one at another. -/
inductive NameStep (data : List UInt8) : ℕ → ℕ → Prop
  | label {p : ℕ} {len : UInt8} (hlen : data[p]? = some len) (hpointer : ¬ isPointer len)
      (hne : len ≠ 0) (hrange : p + 1 + len.toNat < data.length) :
      NameStep data p (p + 1 + len.toNat)
  | pointer {p : ℕ} {len b2 : UInt8} (hlen : data[p]? = some len) (hpointer : isPointer len)
      (hb2 : data[p + 1]? = some b2) : NameStep data p (pointerOffset len b2)

/-- From a position the steps lead into a cycle. -/
def RunsIntoCycle (data : List UInt8) (p : ℕ) : Prop :=
  ∃ q, Relation.ReflTransGen (NameStep data) p q ∧ Relation.TransGen (NameStep data) q q

/-- Only the positions inside the data have a next one. -/
theorem finite_nameStep (data : List UInt8) : {p | ∃ q, NameStep data p q}.Finite := by
  refine (Set.finite_lt_nat data.length).subset ?_
  rintro p ⟨q, hstep⟩
  cases hstep with
  | label hlen => exact lt_length_of_getElem? hlen
  | pointer hlen => exact lt_length_of_getElem? hlen

/-- The rounds that go on are the steps. -/
theorem nameStep_of_round {U : Unicode} {data : List UInt8} {c c' : NameCursor} {p q : ℕ}
    (h : RoundAt U 1 data c p (.inl c') q) : NameStep data c.pos c'.pos := by
  cases h with
  | pointer hlen hpointer hb2 => exact .pointer hlen hpointer hb2
  | label hlen hpointer hne range => exact .label hlen hpointer hne range.1

/-- A step on the way is a round of the loop. -/
theorem exists_round_of_nameStep (U : Unicode) {data : List UInt8} (c : NameCursor) (p : ℕ) {r : ℕ}
    (h : NameStep data c.pos r) : ∃ c' q, RoundAt U 1 data c p (.inl c') q ∧ c'.pos = r := by
  cases h with
  | label hlen hpointer hne hrange =>
    exact ⟨_, _, .label hlen hpointer hne ⟨hrange, rfl⟩, rfl⟩
  | pointer hlen hpointer hb2 => exact ⟨_, _, .pointer hlen hpointer hb2, rfl⟩

/-! ## Datagrams -/

namespace BytePacketBuffer

/-- On a datagram the basic methods return, with a byte or with an error. -/
theorem prompt_read : (read : BufferM BytePacketBuffer UInt8).Prompt :=
  Procedure.prompt_act fun b => by split <;> exact Exec.returns_ok _

theorem prompt_get (i : ℕ) : (get i : BufferM BytePacketBuffer UInt8).Prompt :=
  Procedure.prompt_act fun b => by split <;> exact Exec.returns_ok _

theorem prompt_getRange (start len : ℕ) :
    (getRange start len : BufferM BytePacketBuffer (List UInt8)).Prompt :=
  Procedure.prompt_act fun b => by
    split_ifs with h
    · exact Exec.returns_ok _
    · rw [sliceBytes, if_pos (by rw [Vector.length_toList]; omega)]
      exact Exec.returns_ok _

theorem prompt_seek (i : ℕ) : (seek i : BufferM BytePacketBuffer Unit).Prompt :=
  Procedure.prompt_act fun _ => Exec.returns_ok _

theorem prompt_seekUnless (jumped : Bool) (i : ℕ) :
    (seekUnless jumped i : BufferM BytePacketBuffer Unit).Prompt := by
  cases jumped with
  | false => exact prompt_seek i
  | true => exact Procedure.prompt_pure ()

/-- A round of the loop ends, whatever the bytes are. -/
theorem prompt_readLabel (U : Unicode) (c : NameCursor) :
    (readLabel U c : BufferM BytePacketBuffer (NameCursor ⊕ NameCursor)).Prompt := by
  refine (prompt_get _).bind fun len => ?_
  split_ifs
  · exact (prompt_seekUnless _ _).bind fun _ =>
      (prompt_get _).bind fun _ => Procedure.prompt_pure _
  · exact Procedure.prompt_pure _
  · exact (prompt_getRange _ _).bind fun _ => Procedure.prompt_pure _

/-- The loop of `read_qname` ends when the steps from its position do not run into a cycle. -/
theorem halts_nameLoop_iff (U : Unicode) (c : NameCursor) (b : BytePacketBuffer) :
    (Procedure.loop (readLabel U) c : BufferM BytePacketBuffer NameCursor).Halts b ↔
      ¬ RunsIntoCycle b.buf.toList c.pos := by
  rw [RunsIntoCycle, ← acc_iff_no_cycle (finite_nameStep _),
    Procedure.halts_loop_iff_acc fun c => (prompt_readLabel U c).halts]
  constructor
  · refine acc_of_simulation (R := fun p here => here.1.pos = p ∧ here.2.buf = b.buf) ?_ ⟨rfl, rfl⟩
    rintro p p' ⟨c, b'⟩ ⟨rfl, hb'⟩ hstep
    rw [← hb'] at hstep
    obtain ⟨c', q, hround, rfl⟩ := exists_round_of_nameStep U c (pos b') hstep
    obtain ⟨t, ht, hcontents, -⟩ := (reads_readLabel U c).complete b' _ _ hround
    exact ⟨(c', t), ht, rfl, (Vector.toList_inj.mp hcontents).trans hb'⟩
  · refine acc_of_simulation (R := fun here p => here.1.pos = p ∧ here.2.buf = b.buf) ?_ ⟨rfl, rfl⟩
    rintro ⟨c, b'⟩ ⟨c', t⟩ p ⟨rfl, hb'⟩ hround
    obtain ⟨hcontents, hround⟩ := (reads_readLabel U c).sound b' _ t hround
    refine ⟨c'.pos, ?_, rfl, (Vector.toList_inj.mp hcontents).trans hb'⟩
    have hstep := nameStep_of_round hround
    rwa [show contents b' = b'.buf.toList from rfl, hb'] at hstep

/-- `read_qname` ends when its loop does. -/
theorem halts_readQname_iff (U : Unicode) (outstr : String) (b : BytePacketBuffer) :
    (readQname U outstr : BufferM BytePacketBuffer String).Halts b ↔
      ¬ RunsIntoCycle b.buf.toList b.pos := by
  rw [← halts_nameLoop_iff U ⟨b.pos, false, "", outstr⟩ b]
  constructor
  · intro h
    have h := (Procedure.halts_bind.mp h).2 b.pos b (Procedure.yields_gets.mpr ⟨rfl, rfl⟩)
    exact (Procedure.halts_bind.mp h).1
  · intro h
    refine Procedure.halts_bind.mpr ⟨(Procedure.prompt_act fun _ => Exec.returns_ok _).halts b, ?_⟩
    intro p t hp
    obtain ⟨rfl, rfl⟩ := Procedure.yields_gets.mp hp
    refine Procedure.halts_bind.mpr ⟨h, fun c u _ => ?_⟩
    exact ((prompt_seekUnless _ _).bind fun _ => Procedure.prompt_pure _).halts u

/-- No fault stops `read_qname`. -/
theorem safe_readQname (U : Unicode) (outstr : String) :
    (readQname U outstr : BufferM BytePacketBuffer String).Safe := by
  refine (Procedure.prompt_act fun _ => Exec.returns_ok _).safe.bind fun start => ?_
  refine (Procedure.Safe.loop (fun c => (prompt_readLabel U c).safe) _).bind fun c => ?_
  exact ((prompt_seekUnless _ _).bind fun _ => Procedure.prompt_pure _).safe

/-- A name is read to its end unless it runs into a cycle. -/
theorem returns_readQname_iff (U : Unicode) (outstr : String) (b : BytePacketBuffer) :
    (readQname U outstr : BufferM BytePacketBuffer String).Returns b ↔
      ¬ RunsIntoCycle b.buf.toList b.pos :=
  (safe_readQname U outstr).returns_iff.trans (halts_readQname_iff U outstr b)

end BytePacketBuffer

/-! ## The names of a message -/

/-- The data of a record of a type, from a position on, has a name at another position. -/
inductive DataName (data : List UInt8) : QueryType → ℕ → ℕ → Prop
  | ns {p : ℕ} : DataName data .ns p p
  | cname {p : ℕ} : DataName data .cname p p
  | ptr {p : ℕ} : DataName data .ptr p p
  | srv {p : ℕ} {priority weight port : UInt16} (hpriority : U16At data p priority)
      (hweight : U16At data (p + 2) weight) (hport : U16At data (p + 4) port) :
      DataName data .srv p (p + 6)
  | mx {p : ℕ} {priority : UInt16} (hpriority : U16At data p priority) :
      DataName data .mx p (p + 2)
  | mName {p : ℕ} : DataName data .soa p p
  | rName {p q : ℕ} {labels : List (List UInt8)} (name : NameAt data p labels q) :
      DataName data .soa p q

/-- A record at a position has a name at another: its owner, or one in its data. -/
inductive RecordName (data : List UInt8) (p : ℕ) : ℕ → Prop
  | owner : RecordName data p p
  | data {m q : ℕ} {labels : List (List UInt8)} {qtypeNum klass dataLen : UInt16} {ttl : UInt32}
      (domain : NameAt data p labels m) (hqtype : U16At data m qtypeNum)
      (hklass : U16At data (m + 2) klass) (httl : U32At data (m + 4) ttl)
      (hdataLen : U16At data (m + 8) dataLen)
      (name : DataName data (.fromNum qtypeNum) (m + 10) q) : RecordName data p q

/-- A message has a name at a position: all questions before it, or all questions and some records,
are laid out, and the header counts one more. -/
inductive PacketName (U : Unicode) (checks : Bool) (data : List UInt8) : ℕ → Prop
  | question {header : DnsHeader} {qs : List DnsQuestion} {q : ℕ} (hheader : HeaderAt data 0 header)
      (questions : ManyAt (QuestionAt U data) 12 qs q)
      (hlt : qs.length < header.questions.toNat) : PacketName U checks data q
  | record {header : DnsHeader} {qs : List DnsQuestion} {q r s : ℕ} {recs : List DnsRecord}
      (hheader : HeaderAt data 0 header) (questions : ManyAt (QuestionAt U data) 12 qs q)
      (hquestions : qs.length = header.questions.toNat)
      (records : ManyAt (RecordAt U checks 1 data) q recs r)
      (hlt : recs.length < header.answers.toNat + header.authoritativeEntries.toNat
        + header.resourceEntries.toNat)
      (name : RecordName data r s) : PacketName U checks data s

/-! ## Messages -/

/-- When a method of a datagram comes to an end, in terms of the bytes and the position. -/
def HaltsWhen {α : Type} (m : BufferM BytePacketBuffer α) (H : List UInt8 → ℕ → Prop) : Prop :=
  ∀ b, m.Halts b ↔ H (contents b) (pos b)

namespace HaltsWhen

open Procedure.Judgement

variable {α γ : Type} {m : BufferM BytePacketBuffer α} {f : α → BufferM BytePacketBuffer γ}
  {H H' : List UInt8 → ℕ → Prop} {K : α → List UInt8 → ℕ → Prop} {F : Format α}

/-- That a method comes to an end is checked part by part. -/
theorem iff_when : HaltsWhen m H ↔ (Procedure.halting BytePacketBuffer BufferError).When m H :=
  Iff.rfl

/-- The condition may be replaced by an equivalent one. -/
theorem congr (h : HaltsWhen m H) (heq : ∀ data p, H data p ↔ H' data p) : HaltsWhen m H' :=
  When.congr (iff_when.mp h) heq

/-- Both parts have to end, the second one from wherever the first one may. -/
theorem bind (hm : HaltsWhen m H) (hr : Reads contents m F) (hf : ∀ a, HaltsWhen (f a) (K a)) :
    HaltsWhen (m >>= f) fun data p => H data p ∧ ∀ a q, F data p a q → K a data q :=
  iff_when.mpr (When.bind (iff_when.mp hm) hr hf)

/-- Only the first part can go on for ever. -/
theorem bind_prompt (hm : HaltsWhen m H) (hf : ∀ a, (f a).Prompt) : HaltsWhen (m >>= f) H :=
  iff_when.mpr (When.bind_always (iff_when.mp hm) fun a => (hf a).halts)

/-- Only the second part can go on for ever. -/
theorem prompt_bind (hm : m.Prompt) (hr : Reads contents m F) (hf : ∀ a, HaltsWhen (f a) (K a)) :
    HaltsWhen (m >>= f) fun data p => ∀ a q, F data p a q → K a data q :=
  iff_when.mpr (When.always_bind hm.halts hr hf)

/-- A repetition ends when each item that is reached does. -/
theorem times {item : Format α} (hm : HaltsWhen m H) (hr : Reads contents m item) (n : ℕ) :
    HaltsWhen (m.times n) fun data p =>
      ∀ as q, ManyAt (item data) p as q → as.length < n → H data q :=
  iff_when.mpr (When.times (iff_when.mp hm) hr n)

end HaltsWhen

namespace BytePacketBuffer

/-- The methods for numbers, headers and ranges return as well. -/
theorem prompt_readU16 : (readU16 : BufferM BytePacketBuffer UInt16).Prompt :=
  prompt_read.bind fun _ => prompt_read.bind fun _ => Procedure.prompt_pure _

theorem prompt_readU32 : (readU32 : BufferM BytePacketBuffer UInt32).Prompt :=
  prompt_read.bind fun _ => prompt_read.bind fun _ => prompt_read.bind fun _ =>
    prompt_read.bind fun _ => Procedure.prompt_pure _

theorem prompt_header : (DnsHeader.read : BufferM BytePacketBuffer DnsHeader).Prompt :=
  prompt_readU16.bind fun _ => prompt_readU16.bind fun _ => prompt_readU16.bind fun _ =>
    prompt_readU16.bind fun _ => prompt_readU16.bind fun _ => prompt_readU16.bind fun _ =>
    Procedure.prompt_pure _

theorem prompt_step (n : ℕ) : (step n : BufferM BytePacketBuffer Unit).Prompt :=
  Procedure.prompt_act fun _ => Exec.returns_ok _

theorem prompt_readRange (len : ℕ) :
    (DnsRecord.readRange len : BufferM BytePacketBuffer (List UInt8)).Prompt :=
  (Procedure.prompt_act fun _ => Exec.returns_ok _).bind fun _ => (prompt_getRange _ _).bind fun _ =>
    (prompt_step _).bind fun _ => Procedure.prompt_pure _

/-- Reading a name ends unless the name runs into a cycle. -/
theorem haltsWhen_name (U : Unicode) :
    HaltsWhen (readQname U "") fun data p => ¬ RunsIntoCycle data p :=
  fun b => halts_readQname_iff U "" b

/-- The name of a question is all that can keep it from ending. -/
theorem haltsWhen_question (U : Unicode) :
    HaltsWhen (DnsQuestion.read U) fun data p => ¬ RunsIntoCycle data p :=
  (haltsWhen_name U).bind_prompt fun _ => prompt_readU16.bind fun _ =>
    prompt_readU16.bind fun _ => Procedure.prompt_pure _

section

variable (U : Unicode) (checks : Bool) (domain : String) (qtypeNum klass : UInt16) (ttl : UInt32)
  (dataLen : UInt16)

/-- The length of the data of a TLSA record may be too small; that ends the reading as well. -/
theorem halts_tlsa (b : BytePacketBuffer) :
    (DnsRecord.readData U checks domain qtypeNum klass ttl dataLen .tlsa).Halts b := by
  refine Procedure.halts_bind.mpr ⟨prompt_read.halts _, fun _ _ _ => ?_⟩
  refine Procedure.halts_bind.mpr ⟨prompt_read.halts _, fun _ _ _ => ?_⟩
  refine Procedure.halts_bind.mpr ⟨prompt_read.halts _, fun _ _ _ => ?_⟩
  refine Procedure.halts_bind.mpr ⟨Procedure.halts_act.mpr ?_, fun _ _ _ => ?_⟩
  · unfold Exec.subU16 Exec.guarded
    split_ifs <;> simp [Except.map]
  · exact ((prompt_readRange _).bind fun _ => Procedure.prompt_pure _).halts _

/-- The data of these types has no names in it. -/
theorem haltsWhen_plainData {m : BufferM BytePacketBuffer DnsRecord} {qtype : QueryType}
    (h : ∀ b, m.Halts b) (hnames : ∀ data p q, ¬ DataName data qtype p q) :
    HaltsWhen m fun data p => ∀ q, DataName data qtype p q → ¬ RunsIntoCycle data q :=
  fun b => iff_of_true (h b) fun q hq => absurd hq (hnames _ _ q)

/-- The data of these types is a name. -/
theorem haltsWhen_nameData {mk : String → DnsRecord} {qtype : QueryType}
    (hnames : ∀ data p q, DataName data qtype p q ↔ q = p) :
    HaltsWhen (readQname U "" >>= fun name => pure (mk name)) fun data p =>
      ∀ q, DataName data qtype p q → ¬ RunsIntoCycle data q :=
  ((haltsWhen_name U).bind_prompt fun _ => Procedure.prompt_pure _).congr fun data p => by
    simp only [hnames, forall_eq]

/-- Two names come first in the data of an SOA record. -/
theorem haltsWhen_soaData :
    HaltsWhen (DnsRecord.readData U checks domain qtypeNum klass ttl dataLen .soa)
      fun data p => ∀ q, DataName data .soa p q → ¬ RunsIntoCycle data q := by
  refine ((haltsWhen_name U).bind (reads_name U) fun mName => (haltsWhen_name U).bind_prompt
    fun rName => prompt_readU32.bind fun _ => prompt_readU32.bind fun _ =>
      prompt_readU32.bind fun _ => prompt_readU32.bind fun _ => prompt_readU32.bind fun _ =>
      Procedure.prompt_pure _).congr fun data p => ?_
  constructor
  · rintro ⟨hfirst, hsecond⟩ q hq
    cases hq with
    | mName => exact hfirst
    | rName name => exact hsecond _ q ⟨_, name, rfl⟩
  · intro h
    refine ⟨h p .mName, ?_⟩
    rintro _ q ⟨labels, name, rfl⟩
    exact h q (.rName name)

/-- The name of an MX record is after its priority. -/
theorem haltsWhen_mxData :
    HaltsWhen (DnsRecord.readData U checks domain qtypeNum klass ttl dataLen .mx)
      fun data p => ∀ q, DataName data .mx p q → ¬ RunsIntoCycle data q := by
  refine (HaltsWhen.prompt_bind prompt_readU16 reads_readU16 fun priority =>
    (haltsWhen_name U).bind_prompt fun _ => Procedure.prompt_pure _).congr fun data p => ?_
  constructor
  · intro h q hq
    cases hq with
    | mx hpriority => exact h _ _ ⟨hpriority, rfl⟩
  · rintro h priority q ⟨hpriority, rfl⟩
    exact h _ (.mx hpriority)

/-- The name of an SRV record is after three numbers. -/
theorem haltsWhen_srvData :
    HaltsWhen (DnsRecord.readData U checks domain qtypeNum klass ttl dataLen .srv)
      fun data p => ∀ q, DataName data .srv p q → ¬ RunsIntoCycle data q := by
  refine (HaltsWhen.prompt_bind prompt_readU16 reads_readU16 fun priority =>
    HaltsWhen.prompt_bind prompt_readU16 reads_readU16 fun weight =>
    HaltsWhen.prompt_bind prompt_readU16 reads_readU16 fun port =>
    (haltsWhen_name U).bind_prompt fun _ => Procedure.prompt_pure _).congr fun data p => ?_
  constructor
  · intro h q hq
    cases hq with
    | srv h₁ h₂ h₃ => exact h _ _ ⟨h₁, rfl⟩ _ _ ⟨h₂, rfl⟩ _ _ ⟨h₃, rfl⟩
  · rintro h priority _ ⟨h₁, rfl⟩ weight _ ⟨h₂, rfl⟩ port _ ⟨h₃, rfl⟩
    exact h _ (.srv h₁ h₂ h₃)

/-- **The reading of the data ends** unless a name in it runs into a cycle. -/
theorem haltsWhen_readData (qtype : QueryType) :
    HaltsWhen (DnsRecord.readData U checks domain qtypeNum klass ttl dataLen qtype)
      fun data p => ∀ q, DataName data qtype p q → ¬ RunsIntoCycle data q := by
  cases qtype with
  | unknown num =>
    refine haltsWhen_plainData
      (fun b => ((prompt_step _).bind fun _ => Procedure.prompt_pure _).halts b) ?_
    rintro data p q ⟨⟩
  | a =>
    refine haltsWhen_plainData
      (fun b => (prompt_readU32.bind fun _ => Procedure.prompt_pure _).halts b) ?_
    rintro data p q ⟨⟩
  | ns =>
    refine haltsWhen_nameData U fun data p q => ⟨?_, ?_⟩
    · rintro ⟨⟩
      rfl
    · rintro rfl
      exact .ns
  | cname =>
    refine haltsWhen_nameData U fun data p q => ⟨?_, ?_⟩
    · rintro ⟨⟩
      rfl
    · rintro rfl
      exact .cname
  | soa => exact haltsWhen_soaData U checks domain qtypeNum klass ttl dataLen
  | ptr =>
    refine haltsWhen_nameData U fun data p q => ⟨?_, ?_⟩
    · rintro ⟨⟩
      rfl
    · rintro rfl
      exact .ptr
  | mx => exact haltsWhen_mxData U checks domain qtypeNum klass ttl dataLen
  | txt =>
    refine haltsWhen_plainData
      (fun b => ((prompt_readRange _).bind fun _ => Procedure.prompt_pure _).halts b) ?_
    rintro data p q ⟨⟩
  | aaaa =>
    refine haltsWhen_plainData (fun b => (prompt_readU32.bind fun _ => prompt_readU32.bind fun _ =>
      prompt_readU32.bind fun _ => prompt_readU32.bind fun _ => Procedure.prompt_pure _).halts b) ?_
    rintro data p q ⟨⟩
  | srv => exact haltsWhen_srvData U checks domain qtypeNum klass ttl dataLen
  | opt =>
    refine haltsWhen_plainData
      (fun b => ((prompt_readRange _).bind fun _ => Procedure.prompt_pure _).halts b) ?_
    rintro data p q ⟨⟩
  | tlsa =>
    refine haltsWhen_plainData (halts_tlsa U checks domain qtypeNum klass ttl dataLen) ?_
    rintro data p q ⟨⟩

end

/-- **The reading of a record ends** unless one of its names runs into a cycle. -/
theorem haltsWhen_record (U : Unicode) (checks : Bool) :
    HaltsWhen (DnsRecord.read U checks)
      fun data p => ∀ q, RecordName data p q → ¬ RunsIntoCycle data q := by
  refine ((haltsWhen_name U).bind (reads_name U) fun domain =>
    HaltsWhen.prompt_bind prompt_readU16 reads_readU16 fun qtypeNum =>
    HaltsWhen.prompt_bind prompt_readU16 reads_readU16 fun klass =>
    HaltsWhen.prompt_bind prompt_readU32 reads_readU32 fun ttl =>
    HaltsWhen.prompt_bind prompt_readU16 reads_readU16 fun dataLen =>
    haltsWhen_readData U checks domain qtypeNum klass ttl dataLen _).congr fun data p => ?_
  constructor
  · rintro ⟨howner, hdata⟩ q hq
    cases hq with
    | owner => exact howner
    | data hdomain h₁ h₂ h₃ h₄ name =>
      exact hdata _ _ ⟨_, hdomain, rfl⟩ _ _ ⟨h₁, rfl⟩ _ _ ⟨h₂, rfl⟩ _ _ ⟨h₃, rfl⟩ _ _ ⟨h₄, rfl⟩ q
        name
  · intro h
    refine ⟨h p .owner, ?_⟩
    rintro _ m ⟨labels, hdomain, rfl⟩ qtypeNum _ ⟨h₁, rfl⟩ klass _ ⟨h₂, rfl⟩ ttl _ ⟨h₃, rfl⟩
      dataLen _ ⟨h₄, rfl⟩ q name
    exact h q (.data hdomain h₁ h₂ h₃ h₄ name)

/-- **`from_buffer` on a datagram** comes to an end exactly when no name it reads runs into a
cycle. -/
theorem halts_fromBuffer_iff (U : Unicode) (checks : Bool) (bytes : Vector UInt8 512) :
    (DnsPacket.fromBuffer U checks).Halts (⟨bytes, 0⟩ : BytePacketBuffer) ↔
      ∀ p, PacketName U checks bytes.toList p → ¬ RunsIntoCycle bytes.toList p := by
  have hrecord := haltsWhen_record U checks
  have hwhen := HaltsWhen.prompt_bind prompt_header reads_header fun header =>
    ((haltsWhen_question U).times (reads_question U) header.questions.toNat).bind
      ((reads_question U).times header.questions.toNat) fun qs =>
    (hrecord.times (reads_record U checks) header.answers.toNat).bind
      ((reads_record U checks).times header.answers.toNat) fun answers =>
    (hrecord.times (reads_record U checks) header.authoritativeEntries.toNat).bind
      ((reads_record U checks).times header.authoritativeEntries.toNat) fun authorities =>
    (hrecord.times (reads_record U checks) header.resourceEntries.toNat).bind_prompt fun resources =>
      Procedure.prompt_pure (⟨header, qs, answers, authorities, resources⟩ : DnsPacket)
  refine (hwhen ⟨bytes, 0⟩).trans ?_
  simp only [← forall_manyAt_add]
  constructor
  · intro h p hp
    cases hp with
    | question hheader questions hlt =>
      exact (h _ _ ⟨hheader, rfl⟩).1 _ p questions hlt
    | record hheader questions hquestions records hlt name =>
      refine (h _ _ ⟨hheader, rfl⟩).2 _ _ ⟨hquestions, questions⟩ _ _ records ?_ p name
      omega
  · rintro h header _ ⟨hheader, rfl⟩
    refine ⟨fun qs q questions hlt => h q (.question hheader questions hlt), ?_⟩
    rintro qs q ⟨hquestions, questions⟩ recs r records hlt s name
    exact h s (.record hheader questions hquestions records (by omega) name)

/-- **Name decoding in a datagram.**  From any start, `read_qname` returns, with a name or an error,
exactly when the bytes do not lead into a cycle from there; and `from_buffer` ends exactly when they
do so from none of the names it comes to. -/
theorem terminates_iff (U : Unicode) (checks : Bool) (bytes : Vector UInt8 512) :
    (∀ start outstr, (readQname U outstr).Returns (⟨bytes, start⟩ : BytePacketBuffer) ↔
      ¬ RunsIntoCycle bytes.toList start) ∧
    ((DnsPacket.fromBuffer U checks).Halts (⟨bytes, 0⟩ : BytePacketBuffer) ↔
      ∀ p, PacketName U checks bytes.toList p → ¬ RunsIntoCycle bytes.toList p) :=
  ⟨fun start outstr => returns_readQname_iff U outstr ⟨bytes, start⟩,
    halts_fromBuffer_iff U checks bytes⟩

/-- A question whose name is a pointer to itself. -/
def selfPointer : Vector UInt8 512 :=
  ⟨(([0, 0, 0, 0, 0, 1, 0, 0, 0, 0, 0, 0] ++ [0xc0, 0x0c] : List UInt8)
    ++ List.replicate 498 0).toArray, by decide +kernel⟩

/-- The pointer leads back to itself. -/
theorem runsIntoCycle_selfPointer : RunsIntoCycle selfPointer.toList 12 := by
  have hstep : NameStep selfPointer.toList 12 (pointerOffset 0xc0 0x0c) :=
    .pointer rfl (by decide) rfl
  exact ⟨12, .refl, .single hstep⟩

/-- Neither `read_qname` nor `from_buffer` ends on it. -/
theorem not_terminates_selfPointer :
    ¬ (∀ bytes start, (readQname .ascii "").Returns (⟨bytes, start⟩ : BytePacketBuffer)) ∧
    ¬ ∀ bytes, (DnsPacket.fromBuffer .ascii true).Halts (⟨bytes, 0⟩ : BytePacketBuffer) := by
  constructor
  · intro h
    exact (returns_readQname_iff _ _ _).mp (h selfPointer 12) runsIntoCycle_selfPointer
  · intro h
    have hheader : HeaderAt selfPointer.toList 0 (.ofWords 0 0 1 0 0 0) :=
      ⟨0, 0, 1, 0, 0, 0, ⟨0, 0, rfl, rfl, rfl⟩, ⟨0, 0, rfl, rfl, rfl⟩, ⟨0, 1, rfl, rfl, rfl⟩,
        ⟨0, 0, rfl, rfl, rfl⟩, ⟨0, 0, rfl, rfl, rfl⟩, ⟨0, 0, rfl, rfl, rfl⟩, rfl⟩
    have hname : PacketName .ascii true selfPointer.toList 12 :=
      .question hheader .nil Nat.one_pos
    exact (halts_fromBuffer_iff _ _ _).mp (h selfPointer) 12 hname runsIntoCycle_selfPointer

end BytePacketBuffer
