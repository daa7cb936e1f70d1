/-
# The round trip of a packet

A packet that has been written to an empty vector is read from it again: what is written has the
layout of the packet with the header that `DnsPacket::write` has left and with the records that have
been kept (`DnsPacket.packetAt_encoder`), and the decoder reads what is laid out.
-/
import Ruvname.RecordLayout
import Ruvname.SectionCounts

open PacketBuffer

/-! ## Packets -/

/-- An item takes at least one byte. -/
theorem ManyAt.add_length_le {α : Type} {item : ℕ → α → ℕ → Prop}
    (h : ∀ p a q, item p a q → p < q) {p q : ℕ} {as : List α} (hmany : ManyAt item p as q) :
    p + as.length ≤ q := by
  induction hmany with
  | nil => exact le_rfl
  | cons first _ ih =>
    have := h _ _ _ first
    rw [List.length_cons]
    omega

theorem NameAt.lt {data : List UInt8} {p next : ℕ} {names : List (List UInt8)}
    (h : NameAt data p names next) : p < next := by
  induction h with
  | stop => omega
  | label _ _ _ _ ih => omega
  | pointer => omega

theorem QuestionAt.lt {U : Unicode} {data : List UInt8} {p q : ℕ} {question : DnsQuestion}
    (h : QuestionAt U data p question q) : p < q := by
  obtain ⟨hname, -, -⟩ := h
  have := hname.lt
  omega

theorem DataAt.le {U : Unicode} {checks : Bool} {slack : ℕ} {data : List UInt8} {domain : String}
    {num klass dataLen : UInt16} {ttl : UInt32} {qtype : QueryType} {p q : ℕ} {rec : DnsRecord}
    (h : DataAt U checks slack data domain num klass ttl dataLen qtype p rec q) : p ≤ q := by
  cases h with
  | ns hname => exact hname.lt.le
  | cname hname => exact hname.lt.le
  | ptr hname => exact hname.lt.le
  | srv _ _ _ hname => exact (Nat.le_add_right _ _).trans hname.lt.le
  | mx _ hname => exact (Nat.le_add_right _ _).trans hname.lt.le
  | soa hm hr =>
    have := hm.lt
    have := hr.lt
    omega
  | _ => omega

theorem RecordAt.lt {U : Unicode} {checks : Bool} {slack : ℕ} {data : List UInt8} {p q : ℕ}
    {rec : DnsRecord} (h : RecordAt U checks slack data p rec q) : p < q := by
  obtain ⟨hdomain, -, -, -, -, hdata⟩ := h
  have := hdomain.lt
  have := hdata.le
  omega

namespace DnsPacket

/-- The size of a packet of which everything is written. -/
def size (packet : DnsPacket) : Size :=
  (Size.fixed DnsHeader.binaryLen).andThen <| (Size.all DnsQuestion.size packet.questions).andThen
    (Size.all DnsRecord.size packet.records)

/-- What is written of the records: those that fit, without those of unknown types. -/
def writtenRecords (packet : DnsPacket) (maxSize : ℕ) : List DnsRecord :=
  (packet.records.take (packet.kept maxSize)).filter fun rec => ¬ rec.IsUnknown

/-- A packet that a reader gets over, up to the records that do not fit: pointers reach all labels
that are written. -/
structure Legible (packet : DnsPacket) (maxSize : ℕ) : Prop where
  questions : ∀ question ∈ packet.questions, LegibleName question.name
  count : packet.questions.length < 2 ^ 16
  records : ∀ rec ∈ packet.records.take (packet.kept maxSize), rec.Legible
  near : (packet.encoder maxSize 0 fun _ => none).2.Near

/-- A packet that comes back, up to the records that do not fit. -/
structure Valid (packet : DnsPacket) : Prop where
  zeroCounts : packet.ZeroCounts
  opcode : packet.header.opcode < 16
  questions : ∀ question ∈ packet.questions, question.Valid
  records : ∀ rec ∈ packet.records, rec.Valid
  size_le : (packet.size []).1 ≤ 0x4000

/-- The packet with the first `n` of its records, in their sections. -/
def keep (packet : DnsPacket) (n : ℕ) : DnsPacket :=
  { packet with
    answers := packet.answers.take n
    authorities := packet.authorities.take (n - packet.answers.length)
    resources := packet.resources.take (n - (packet.answers.length + packet.authorities.length)) }

theorem records_keep (packet : DnsPacket) (n : ℕ) :
    (packet.keep n).records = packet.records.take n := by
  simp only [records, keep, List.take_append, List.length_append]

end DnsPacket

theorem Size.all_take_le {α : Type} (f : α → Size) (as : List α) (n : ℕ) (known : List String) :
    (all f (as.take n) known).1 ≤ (all f as known).1 := by
  induction as generalizing n known with
  | nil => rw [List.take_nil]
  | cons a as ih =>
    cases n with
    | zero => exact Nat.zero_le _
    | succ n => exact Nat.add_le_add_left (ih n _) _

namespace DnsPacket

variable {packet : DnsPacket}

/-- The size of what is written. -/
theorem hasSize_encoder (packet : DnsPacket) (maxSize : ℕ) :
    (packet.encoder maxSize).HasSize ((Size.fixed DnsHeader.binaryLen).andThen <|
      (Size.all DnsQuestion.size packet.questions).andThen
      (Size.all DnsRecord.size (packet.records.take (packet.kept maxSize)))) :=
  (Encoder.HasSize.header _).andThen <|
    (Encoder.HasSize.all Encoder.HasSize.question _).andThen
    (Encoder.HasSize.all Encoder.HasSize.record _)

/-- What is written is no larger than the packet. -/
theorem length_encoder_le (packet : DnsPacket) (maxSize : ℕ) :
    (packet.encoder maxSize 0 fun _ => none).1.length ≤ (packet.size []).1 := by
  rw [(packet.hasSize_encoder maxSize 0 _ [] knows_empty).1]
  exact Nat.add_le_add_left (Nat.add_le_add_left (Size.all_take_le _ _ _ _) _) _

/-- Nothing is written of records of unknown types. -/
theorem all_encoder_filter (records : List DnsRecord) :
    Encoder.all DnsRecord.encoder (records.filter fun rec => ¬ rec.IsUnknown)
      = Encoder.all DnsRecord.encoder records := by
  induction records with
  | nil => rfl
  | cons rec records ih =>
    by_cases hunknown : rec.IsUnknown
    · rw [List.filter_cons_of_neg (by simpa using hunknown), ih]
      cases rec with
      | unknown => rfl
      | _ => exact hunknown.elim
    · rw [List.filter_cons_of_pos (by simpa using hunknown), Encoder.all, Encoder.all, ih]

/-- **What is written is laid out**, as it is read. -/
theorem laysOut_asRead (U : Unicode) (checks : Bool) (maxSize : ℕ)
    (hquestions : ∀ question ∈ packet.questions, LegibleName question.name)
    (hrecords : ∀ rec ∈ packet.records.take (packet.kept maxSize), rec.Legible) :
    (packet.encoder maxSize).LaysOut fun data p q =>
      ∃ m, HeaderAt data p (packet.writtenHeader maxSize).asRead ∧
        ManyAt (QuestionAt U data) (p + 12) (packet.questions.map (DnsQuestion.asRead U)) m ∧
        ManyAt (RecordAt U checks 0 data) m
          ((packet.writtenRecords maxSize).map (DnsRecord.asRead U)) q := by
  have hlaysQuestions := Encoder.LaysOut.all fun question hquestion =>
    DnsQuestion.laysOut_asRead U (hquestions question hquestion)
  have hlaysRecords := Encoder.LaysOut.all fun rec (hrec : rec ∈ packet.writtenRecords maxSize) =>
    DnsRecord.laysOut_asRead U checks (of_decide_eq_true (List.mem_filter.mp hrec).2)
      (hrecords rec (List.mem_filter.mp hrec).1)
  rw [writtenRecords, all_encoder_filter] at hlaysRecords
  refine ((DnsHeader.laysOut_encoder _).andThen (hlaysQuestions.andThen hlaysRecords)).mono
    fun data p q => ?_
  rintro ⟨_, ⟨hheader, rfl⟩, m, hquestions, hrecords⟩
  exact ⟨m, hheader, ManyAt.map_iff.mpr hquestions, ManyAt.map_iff.mpr hrecords⟩

/-- Nothing is changed on the way of a packet that comes back. -/
theorem asRead_of_valid (U : Unicode) (h : packet.Valid) (maxSize : ℕ) :
    (packet.writtenHeader maxSize).asRead = packet.writtenHeader maxSize ∧
    packet.questions.map (DnsQuestion.asRead U) = packet.questions ∧
    (packet.writtenRecords maxSize).map (DnsRecord.asRead U)
      = packet.records.take (packet.kept maxSize) := by
  refine ⟨DnsHeader.asRead_of_opcode_lt ?_, ?_, ?_⟩
  · unfold writtenHeader markTruncated
    split_ifs
    · exact h.opcode
    · exact h.opcode
  · exact (List.map_congr_left fun question hquestion =>
      (h.questions question hquestion).asRead U).trans (List.map_id _)
  · exact DnsRecord.map_asRead_of_valid
      (fun rec hrec => h.records rec (List.mem_of_mem_take hrec)) U

/-- **What is written is laid out**: the header, the questions and what is written of the records. -/
theorem laid_asRead (U : Unicode) (checks : Bool) (maxSize : ℕ)
    (hquestions : ∀ question ∈ packet.questions, LegibleName question.name)
    (hrecords : ∀ rec ∈ packet.records.take (packet.kept maxSize), rec.Legible)
    (hnear : (packet.encoder maxSize 0 fun _ => none).2.Near) :
    ∃ m, HeaderAt (packet.encoder maxSize 0 fun _ => none).1 0 (packet.writtenHeader maxSize).asRead ∧
      ManyAt (QuestionAt U (packet.encoder maxSize 0 fun _ => none).1) 12
        (packet.questions.map (DnsQuestion.asRead U)) m ∧
      ManyAt (RecordAt U checks 0 (packet.encoder maxSize 0 fun _ => none).1) m
        ((packet.writtenRecords maxSize).map (DnsRecord.asRead U))
        (packet.encoder maxSize 0 fun _ => none).1.length := by
  have hlays := ((packet.laysOut_asRead U checks maxSize hquestions hrecords).lays _ 0 (fun _ => none)
    (fun _ _ h => by cases h) (BytesAt.self _) hnear).1
  simp only [Nat.zero_add] at hlays
  exact hlays

/-- Pointers reach all of a message that is short enough. -/
theorem near_of_length_le {maxSize : ℕ}
    (hquestions : ∀ question ∈ packet.questions, LegibleName question.name)
    (hrecords : ∀ rec ∈ packet.records.take (packet.kept maxSize), rec.Legible)
    (hle : (packet.encoder maxSize 0 fun _ => none).1.length ≤ 0x4000) :
    (packet.encoder maxSize 0 fun _ => none).2.Near := by
  have hlays := packet.laysOut_asRead Unicode.ascii true maxSize hquestions hrecords
  refine hlays.grows.near (fun _ _ h => by cases h) ?_
  rwa [Nat.zero_add]

/-- What is read of a packet that has been written. -/
def readBack (U : Unicode) (packet : DnsPacket) (maxSize : ℕ) : DnsPacket where
  header := (packet.writtenHeader maxSize).asRead
  questions := packet.questions.map (DnsQuestion.asRead U)
  answers := ((packet.keep (packet.kept maxSize)).answers.filter fun rec => ¬ rec.IsUnknown).map
    (DnsRecord.asRead U)
  authorities := ((packet.keep (packet.kept maxSize)).authorities.filter
    fun rec => ¬ rec.IsUnknown).map (DnsRecord.asRead U)
  resources := ((packet.keep (packet.kept maxSize)).resources.filter fun rec => ¬ rec.IsUnknown).map
    (DnsRecord.asRead U)

theorem records_readBack (U : Unicode) (packet : DnsPacket) (maxSize : ℕ) :
    (packet.readBack U maxSize).records
      = (packet.writtenRecords maxSize).map (DnsRecord.asRead U) := by
  rw [writtenRecords, ← records_keep]
  simp only [records, readBack, List.filter_append, List.map_append]

theorem toNat_ofNat {n : ℕ} (h : n < 2 ^ 16) : (UInt16.ofNat n).toNat = n := Nat.mod_eq_of_lt h

/-- **The packet that is read is laid out** where a legible packet has been written, if the counts of
its sections are right. -/
theorem packetAt_readBack (U : Unicode) {checks : Bool} {maxSize : ℕ} (h : packet.Legible maxSize)
    (hfaithful : packet.Faithful checks maxSize) :
    PacketAt U checks 0 (packet.encoder maxSize 0 fun _ => none).1 0 (packet.readBack U maxSize)
      (packet.encoder maxSize 0 fun _ => none).1.length := by
  obtain ⟨m, hheader, hquestions, hrecords⟩ :=
    packet.laid_asRead U checks maxSize h.questions h.records h.near
  rw [← records_readBack] at hrecords
  obtain ⟨h₁, h₂, h₃⟩ := packet.writtenHeader_counts maxSize
  refine (packetAt_iff U checks 0 _).mpr ⟨hheader, ?_, ?_, ?_, ?_, m, hquestions, hrecords⟩
  · rw [readBack, List.length_map]
    exact (toNat_ofNat h.count).symm
  all_goals rw [readBack, List.length_map, ← List.countP_eq_length_filter]
  · exact ((count_eq_iff fun hchecks => length_lt_of_faithful (hchecks ▸ hfaithful.1)).mpr
      hfaithful.1).symm.trans (congrArg UInt16.toNat h₁.symm)
  · exact ((count_eq_iff fun hchecks => length_lt_of_faithful (hchecks ▸ hfaithful.2.1)).mpr
      hfaithful.2.1).symm.trans (congrArg UInt16.toNat h₂.symm)
  · exact ((count_eq_iff fun hchecks => length_lt_of_faithful (hchecks ▸ hfaithful.2.2)).mpr
      hfaithful.2.2).symm.trans (congrArg UInt16.toNat h₃.symm)

namespace Valid

variable {maxSize : ℕ}

theorem length_encoder_le (h : packet.Valid) :
    (packet.encoder maxSize 0 fun _ => none).1.length ≤ 0x4000 :=
  (packet.length_encoder_le maxSize).trans h.size_le

theorem records_legible (h : packet.Valid) (rec : DnsRecord)
    (hrec : rec ∈ packet.records.take (packet.kept maxSize)) : rec.Legible := by
  have hwithin : rec.encoder.Within (packet.encoder maxSize) :=
    ((Encoder.Within.item DnsRecord.encoder hrec).trans (.snd _ _)).trans (.snd _ _)
  exact (h.records rec (List.mem_of_mem_take hrec)).legible hwithin h.length_encoder_le

theorem near (h : packet.Valid) : (packet.encoder maxSize 0 fun _ => none).2.Near :=
  near_of_length_le (fun question hquestion => (h.questions question hquestion).name.legible)
    h.records_legible h.length_encoder_le

/-- Every question and record takes a byte, so there are fewer than a `u16` counts. -/
theorem lengths_lt (h : packet.Valid) (maxSize : ℕ) :
    packet.questions.length < 2 ^ 16 ∧ packet.kept maxSize < 2 ^ 16 := by
  have hsize : (packet.encoder maxSize 0 fun _ => none).1.length ≤ 0x4000 := h.length_encoder_le
  obtain ⟨m, -, hquestions, hrecords⟩ := packet.laid_asRead Unicode.ascii true maxSize
    (fun question hquestion => (h.questions question hquestion).name.legible) h.records_legible h.near
  obtain ⟨-, hq, hr⟩ := packet.asRead_of_valid Unicode.ascii h maxSize
  rw [hq] at hquestions
  rw [hr] at hrecords
  have hm := hquestions.add_length_le fun _ _ _ => QuestionAt.lt
  have hend := hrecords.add_length_le fun _ _ _ => RecordAt.lt
  have hkept : (packet.records.take (packet.kept maxSize)).length = packet.kept maxSize := by
    rw [List.length_take, min_eq_left]
    simpa [DnsPacket.records, Nat.add_assoc] using packet.kept_le maxSize
  omega

theorem legible (h : packet.Valid) : packet.Legible maxSize where
  questions question hquestion := (h.questions question hquestion).name.legible
  count := (h.lengths_lt maxSize).1
  records := h.records_legible
  near := h.near

theorem countable (h : packet.Valid) : packet.Countable (packet.kept maxSize) := by
  have hkept := (h.lengths_lt maxSize).2
  unfold Countable
  omega

/-- Records of which none is unknown are counted as they are. -/
theorem sectionFaithful (h : packet.Valid) (checks : Bool) {records : List DnsRecord}
    (hmem : ∀ rec ∈ records, rec ∈ packet.records) (hlength : records.length < 2 ^ 16) :
    SectionFaithful checks records := by
  have hunknown : unknownCount records = 0 :=
    List.countP_eq_zero.mpr fun rec hrec => by simpa using (h.records rec (hmem rec hrec)).not_unknown
  have hsum := unknownCount_add_writtenCount records
  exact ⟨by omega, Or.inl hunknown⟩

theorem faithful (h : packet.Valid) (checks : Bool) : packet.Faithful checks maxSize := by
  obtain ⟨h₁, h₂, h₃⟩ := (packet.countable_iff maxSize).mp h.countable
  refine ⟨h.sectionFaithful checks (fun rec hrec => ?_) h₁,
    h.sectionFaithful checks (fun rec hrec => ?_) h₂, h.sectionFaithful checks (fun rec hrec => ?_) h₃⟩
  all_goals
    have hin := List.mem_of_mem_take hrec
    simp [DnsPacket.records, hin]

/-- A valid packet is read as it has been left, with the records that have been kept. -/
theorem readBack (h : packet.Valid) (U : Unicode) : packet.readBack U maxSize
    = { packet.keep (packet.kept maxSize) with header := packet.writtenHeader maxSize } := by
  obtain ⟨hheader, hquestions, -⟩ := packet.asRead_of_valid U h maxSize
  have hsection : ∀ records : List DnsRecord, (∀ rec ∈ records, rec ∈ packet.records) →
      (records.filter fun rec => ¬ rec.IsUnknown).map (DnsRecord.asRead U) = records :=
    fun records hmem => DnsRecord.map_asRead_of_valid (fun rec hrec => h.records rec (hmem rec hrec)) U
  rw [DnsPacket.readBack, hheader, hquestions, hsection, hsection, hsection]
  · rfl
  all_goals
    intro rec hrec
    have hin := List.mem_of_mem_take hrec
    simp [DnsPacket.records, hin]

end Valid

/-- The packet that comes back is laid out. -/
theorem packetAt_encoder (U : Unicode) (checks : Bool) (h : packet.Valid) (maxSize : ℕ) :
    PacketAt U checks 0 (packet.encoder maxSize 0 fun _ => none).1 0
      { packet.keep (packet.kept maxSize) with header := packet.writtenHeader maxSize }
      (packet.encoder maxSize 0 fun _ => none).1.length := by
  rw [← h.readBack U]
  exact packet.packetAt_readBack U h.legible (h.faithful checks)

/-- **The round trip of a packet.**  A packet that comes back can be written to an empty vector; when
the vector is then read from its start, all bytes are consumed, and there are the header as it has
been left, the same questions and the records that the test buffer has counted. -/
theorem fromBuffer_write (U : Unicode) (checks : Bool) (packet : DnsPacket) (maxSize : ℕ)
    (h : packet.Valid) :
    ∃ written n t, (packet.write checks maxSize).Yields ({} : VectorPacketBuffer) written t ∧
      (∃ header test, (packet.measure checks maxSize).Yields {} (n, header) test) ∧
      ∃ t', (seek 0 >>= fun _ => DnsPacket.fromBuffer U checks).Yields t
        { packet.keep n with header := written.header } t' ∧
        t'.buffer = t.buffer ∧ t'.pos = t.buffer.length := by
  have hpacket := packet.packetAt_encoder U checks h maxSize
  have hcountable : packet.Countable (packet.kept maxSize) := h.countable
  have hwrite : (packet.writeTraced checks maxSize).Yields ({} : VectorPacketBuffer) (_, _) _ :=
    (yields_writeTraced_iff h.zeroCounts).mpr ⟨fun _ => hcountable, rfl, rfl, rfl⟩
  have hmeasure : ∃ test, (packet.measure checks maxSize).Yields ({} : VectorPacketBuffer) (_, _) test :=
    (exists_yields_measure_iff h.zeroCounts).mpr ⟨fun _ => hcountable, rfl, rfl⟩
  refine ⟨_, _, _, Procedure.yields_bind.mpr ⟨_, _, hwrite, Procedure.yields_pure.mpr ⟨rfl, rfl⟩⟩,
    ⟨_, hmeasure⟩, ?_⟩
  obtain ⟨t', hread, hbuffer, hpos⟩ := (ReadableBuffer.reads_fromBuffer U checks).complete
    { VectorPacketBuffer.append {} (packet.encoder maxSize) with pos := 0 } _ _ hpacket
  exact ⟨t', Procedure.yields_bind.mpr ⟨(), _, Procedure.yields_modify.mpr rfl, hread⟩, hbuffer, hpos⟩

instance (label : String) : Decidable (ValidLabel label) :=
  decidable_of_iff (0 < label.utf8ByteSize ∧ label.utf8ByteSize ≤ 63 ∧
      label.toList.all (fun c => decide (c.toNat < 128 ∧ c.toLower = c)) = true)
    ⟨fun ⟨hpos, hle, hlower⟩ =>
        ⟨hpos, hle, fun c hc => of_decide_eq_true (List.all_eq_true.mp hlower c hc)⟩,
      fun h => ⟨h.pos, h.le, List.all_eq_true.mpr fun c hc => decide_eq_true (h.lower c hc)⟩⟩

instance (name : String) : Decidable (ValidName name) :=
  decidable_of_iff ((splitDots name).all (fun label => decide (ValidLabel label)) = true)
    ⟨fun h label hlabel => of_decide_eq_true (List.all_eq_true.mp h label hlabel),
      fun h => List.all_eq_true.mpr fun label hlabel => decide_eq_true (h label hlabel)⟩

instance : DecidablePred DnsRecord.IsTxt
  | .txt .. => isTrue trivial
  | .unknown .. | .a .. | .ns .. | .cname .. | .soa .. | .ptr .. | .mx .. | .aaaa .. | .srv ..
  | .opt .. | .tlsa .. => isFalse id

instance (rec : DnsRecord) : Decidable rec.Valid :=
  decidable_of_iff ((∀ name ∈ rec.names, ValidName name) ∧ ¬ rec.IsTxt ∧ ¬ rec.IsUnknown)
    ⟨fun ⟨hnames, htxt, hunknown⟩ => ⟨hnames, htxt, hunknown⟩,
      fun h => ⟨h.names, h.not_txt, h.not_unknown⟩⟩

/-- An answer whose names share their ends. -/
def aliasAnswer : DnsPacket where
  header := { id := 7, opcode := 2, response := true, rescode := .refused }
  questions := [⟨"www.a.ruv", .a⟩]
  answers := [.cname "www.a.ruv" "a.ruv" 60, .a "a.ruv" ⟨#v[10, 0, 0, 1]⟩ 60]
  authorities := [.ns "ruv" "ns.ruv" 60]

theorem valid_aliasAnswer : aliasAnswer.Valid where
  zeroCounts := by decide
  opcode := by decide
  questions := by
    intro question hquestion
    rw [List.mem_singleton.mp hquestion]
    exact ⟨by decide +kernel, 1, rfl⟩
  records := by decide +kernel
  size_le := by decide +kernel

/-- The last record of the answer does not fit into 60 bytes. -/
theorem fromBuffer_write_aliasAnswer :
    aliasAnswer.kept 60 = 2 ∧
    ∃ written n t, (aliasAnswer.write true 60).Yields ({} : VectorPacketBuffer) written t ∧
      (∃ header test, (aliasAnswer.measure true 60).Yields {} (n, header) test) ∧
      ∃ t', (seek 0 >>= fun _ => DnsPacket.fromBuffer Unicode.ascii true).Yields t
        { aliasAnswer.keep n with header := written.header } t' ∧
        t'.buffer = t.buffer ∧ t'.pos = t.buffer.length :=
  ⟨by decide +kernel, fromBuffer_write Unicode.ascii true aliasAnswer 60 valid_aliasAnswer⟩

end DnsPacket
