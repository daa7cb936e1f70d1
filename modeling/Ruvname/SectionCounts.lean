/-
# The counts of the sections

`DnsPacket::write` first writes all records to a test buffer, to see how many of them fit, and
counts these; then it writes them.  A record of an unknown type is counted although nothing is
written of it.  So the counts are right exactly when each section has as many of them as a `u16`
does not see (`DnsPacket.exists_countsMatch_iff`): none, or, where counting may wrap around, a multiple of
65536.
-/
import Ruvname.RecordSizes

open PacketBuffer

/-- The sizes of records that follow each other. -/
def recordSizes : List DnsRecord → List String → List ℕ
  | [], _ => []
  | rec :: records, known => (rec.size known).1 :: recordSizes records (rec.size known).2

/-- How many of the next sizes fit, after so many bytes. -/
def fitting (maxSize : ℕ) : ℕ → List ℕ → ℕ
  | _, [] => 0
  | size, n :: sizes => if size + n > maxSize then 0 else fitting maxSize (size + n) sizes + 1

theorem fitting_le (maxSize size : ℕ) (sizes : List ℕ) :
    fitting maxSize size sizes ≤ sizes.length := by
  induction sizes generalizing size with
  | nil => exact le_rfl
  | cons n sizes ih =>
    rw [fitting]
    split_ifs
    · exact Nat.zero_le _
    · exact Nat.succ_le_succ (ih _)

theorem length_recordSizes (records : List DnsRecord) (known : List String) :
    (recordSizes records known).length = records.length := by
  induction records generalizing known with
  | nil => rfl
  | cons rec records ih => rw [recordSizes, List.length_cons, List.length_cons, ih]

theorem recordSizes_take (records : List DnsRecord) (known : List String) (k : ℕ) :
    recordSizes (records.take k) known = (recordSizes records known).take k := by
  induction records generalizing known k with
  | nil => simp [recordSizes]
  | cons rec records ih =>
    cases k with
    | zero => rfl
    | succ k => rw [List.take_succ_cons, recordSizes, recordSizes, List.take_succ_cons, ih]

/-- Only of a record of an unknown type nothing is written. -/
theorem DnsRecord.size_pos_iff (rec : DnsRecord) (known : List String) :
    0 < (rec.size known).1 ↔ ¬ rec.IsUnknown := by
  cases rec with
  | unknown => exact iff_of_false (lt_irrefl 0) (not_not_intro trivial)
  | _ =>
    refine iff_of_true ?_ id
    refine Nat.add_pos_right _ ?_
    simp [Size.fixed, fixedSize]

namespace DnsPacket

/-- The sizes of the records of a packet. -/
def sizes (packet : DnsPacket) : List ℕ :=
  recordSizes packet.records (Size.all DnsQuestion.size packet.questions []).2

/-- How many records of a packet fit. -/
def kept (packet : DnsPacket) (maxSize : ℕ) : ℕ :=
  fitting maxSize ((packet.questions.map DnsQuestion.binaryLen).foldl (· + ·) DnsHeader.binaryLen)
    packet.sizes

/-! ## Counting -/

/-- The header after the first `k` records have been counted. -/
def counted (packet : DnsPacket) (k : ℕ) : DnsHeader :=
  { packet.header with
    answers := .ofNat (min k packet.answers.length)
    authoritativeEntries := .ofNat (min (k - packet.answers.length) packet.authorities.length)
    resourceEntries := .ofNat (k - packet.answers.length - packet.authorities.length) }

/-- No section has more records, among the first `k`, than can be counted. -/
def Countable (packet : DnsPacket) (k : ℕ) : Prop :=
  min k packet.answers.length < 2 ^ 16 ∧
    min (k - packet.answers.length) packet.authorities.length < 2 ^ 16 ∧
    k - packet.answers.length - packet.authorities.length < 2 ^ 16

theorem addU16_ofNat_one {checks : Bool} {n : ℕ} {r : UInt16} (h : checks = true → n < 2 ^ 16) :
    Exec.addU16 checks (.ofNat n) 1 = .ok r ↔
      (checks = true → n + 1 < 2 ^ 16) ∧ r = .ofNat (n + 1) := by
  have hsum : UInt16.ofNat n + 1 = .ofNat (n + 1) := (UInt16.ofNat_add n 1).symm
  have hone : (1 : UInt16).toNat = 1 := rfl
  rw [Exec.addU16, Exec.guarded_eq_ok_iff, hsum]
  refine and_congr_left' (imp_congr_right fun hchecks => ?_)
  have hn : (UInt16.ofNat n).toNat = n := Nat.mod_eq_of_lt (h hchecks)
  rw [hn, hone, decide_eq_false_iff_not, not_le]

variable {checks : Bool} {packet : DnsPacket}

/-- One of the counts goes up. -/
theorem addU16_bind_eq_ok {n : ℕ} {C : Prop} {set : UInt16 → DnsHeader} {header next : DnsHeader}
    (hn : checks = true → n < 2 ^ 16) (hcount : (checks = true → n + 1 < 2 ^ 16) ↔ C)
    (hheader : set (.ofNat (n + 1)) = next) :
    (do
      let count ← Exec.addU16 checks (.ofNat n) 1
      .ok (set count) : Exec DnsHeader) = .ok header ↔ C ∧ header = next := by
  rw [Exec.bind_eq_ok, ← hcount, ← hheader]
  constructor
  · rintro ⟨count, hadd, hset⟩
    obtain ⟨hlt, rfl⟩ := (addU16_ofNat_one hn).mp hadd
    rw [Except.ok.injEq] at hset
    exact ⟨hlt, hset.symm⟩
  · rintro ⟨hlt, rfl⟩
    exact ⟨_, (addU16_ofNat_one hn).mpr ⟨hlt, rfl⟩, rfl⟩

/-- One more record is counted. -/
theorem countEntry_eq_ok {i : ℕ} {header : DnsHeader} (hi : checks = true → packet.Countable i) :
    countEntry checks packet i (packet.counted i) = .ok header ↔
      (checks = true → packet.Countable (i + 1)) ∧ header = packet.counted (i + 1) := by
  unfold countEntry
  split_ifs with hanswers hauthorities
  · refine addU16_bind_eq_ok (fun h => (hi h).1) (imp_congr_right fun h => ?_) ?_
    · have := hi h
      unfold Countable at *
      omega
    · unfold counted
      rw [show min (i + 1) packet.answers.length = min i packet.answers.length + 1 by omega,
        show i + 1 - packet.answers.length = i - packet.answers.length by omega]
  · refine addU16_bind_eq_ok (fun h => (hi h).2.1) (imp_congr_right fun h => ?_) ?_
    · have := hi h
      unfold Countable at *
      omega
    · unfold counted
      rw [show min (i + 1) packet.answers.length = min i packet.answers.length by omega,
        show min (i + 1 - packet.answers.length) packet.authorities.length
          = min (i - packet.answers.length) packet.authorities.length + 1 by omega,
        show i + 1 - packet.answers.length - packet.authorities.length
          = i - packet.answers.length - packet.authorities.length by omega]
  · refine addU16_bind_eq_ok (fun h => (hi h).2.2) (imp_congr_right fun h => ?_) ?_
    · have := hi h
      unfold Countable at *
      omega
    · unfold counted
      rw [show min (i + 1) packet.answers.length = min i packet.answers.length by omega,
        show min (i + 1 - packet.answers.length) packet.authorities.length
          = min (i - packet.answers.length) packet.authorities.length by omega,
        show i + 1 - packet.answers.length - packet.authorities.length
          = i - packet.answers.length - packet.authorities.length + 1 by omega]

/-- `DnsRecord::write` at the end of a vector has one outcome. -/
theorem yields_record_iff {rec : DnsRecord} {b t : VectorPacketBuffer} {known : List String}
    (hb : b.AtEnd) (hknown : Labels.Knows b.labelLookup known) {n : ℕ} :
    rec.write.Yields b n t ↔ n = (rec.size known).1 ∧ t = b.append rec.encoder := by
  have hsize : rec.sizeAt b = (rec.size known).1 := (Encoder.HasSize.record rec _ _ _ hknown).1
  have hyields := rec.yields_write hb
  rw [hsize] at hyields
  constructor
  · intro h
    exact h.unique hyields
  · rintro ⟨rfl, rfl⟩
    exact hyields

/-- A record that does not fit is noted in the header. -/
def markTruncated (truncated : Prop) [Decidable truncated] (header : DnsHeader) : DnsHeader :=
  if truncated then { header with truncatedMessage := true } else header

/-- The next record does not fit. -/
theorem yields_countRecords_full {maxSize i size n : ℕ} {header header' : DnsHeader}
    {rec : DnsRecord} {records : List DnsRecord} {b t : VectorPacketBuffer} {known : List String}
    (hb : b.AtEnd) (hknown : Labels.Knows b.labelLookup known)
    (hfull : size + (rec.size known).1 > maxSize) :
    (countRecords checks packet maxSize i size header (rec :: records)).Yields b (n, header') t ↔
      (n = i ∧ header' = { header with truncatedMessage := true }) ∧ t = b.append rec.encoder := by
  rw [countRecords, Procedure.yields_bind]
  simp only [yields_record_iff hb hknown]
  constructor
  · rintro ⟨_, _, ⟨rfl, rfl⟩, h⟩
    rw [if_pos hfull, Procedure.yields_pure, Prod.mk.injEq] at h
    exact h
  · intro h
    refine ⟨_, _, ⟨rfl, rfl⟩, ?_⟩
    rw [if_pos hfull, Procedure.yields_pure, Prod.mk.injEq]
    exact h

/-- The next record fits. -/
theorem yields_countRecords_fits {maxSize i size : ℕ} {header : DnsHeader}
    {rec : DnsRecord} {records : List DnsRecord} {b t : VectorPacketBuffer} {known : List String}
    {r : ℕ × DnsHeader} (hb : b.AtEnd) (hknown : Labels.Knows b.labelLookup known)
    (hfits : ¬ size + (rec.size known).1 > maxSize) :
    (countRecords checks packet maxSize i size header (rec :: records)).Yields b r t ↔
      ∃ header', countEntry checks packet i header = .ok header' ∧
        (countRecords checks packet maxSize (i + 1) (size + (rec.size known).1) header'
          records).Yields (b.append rec.encoder) r t := by
  rw [countRecords, Procedure.yields_bind]
  simp only [yields_record_iff hb hknown]
  constructor
  · rintro ⟨_, _, ⟨rfl, rfl⟩, h⟩
    rw [if_neg hfits, Procedure.yields_bind] at h
    obtain ⟨header', _, hexec, h⟩ := h
    obtain ⟨hentry, rfl⟩ := Procedure.yields_exec.mp hexec
    exact ⟨header', hentry, h⟩
  · rintro ⟨header', hentry, h⟩
    refine ⟨_, _, ⟨rfl, rfl⟩, ?_⟩
    rw [if_neg hfits, Procedure.yields_bind]
    exact ⟨header', _, Procedure.yields_exec.mpr ⟨hentry, rfl⟩, h⟩

/-- A smaller number of records has been counted before. -/
theorem Countable.mono {i n : ℕ} (hin : i ≤ n) (h : packet.Countable n) : packet.Countable i := by
  unfold Countable at *
  omega

/-- The loop over the test buffer counts the records that fit, if there are not too many. -/
theorem yields_countRecords (packet : DnsPacket) (maxSize size : ℕ) (records : List DnsRecord)
    {i : ℕ} {b : VectorPacketBuffer} {known : List String} (hb : b.AtEnd)
    (hknown : Labels.Knows b.labelLookup known) (hi : checks = true → packet.Countable i) {n : ℕ}
    {header : DnsHeader} :
    (∃ t, (countRecords checks packet maxSize i size (packet.counted i) records).Yields b
      (n, header) t) ↔
      (checks = true → packet.Countable n) ∧
      n = i + fitting maxSize size (recordSizes records known) ∧
      header = markTruncated (n < i + records.length) (packet.counted n) := by
  induction records generalizing i size b known with
  | nil =>
    simp only [countRecords, Procedure.yields_pure, recordSizes, fitting, Nat.add_zero,
      List.length_nil, Prod.mk.injEq]
    constructor
    · rintro ⟨t, ⟨rfl, rfl⟩, rfl⟩
      exact ⟨hi, rfl, (if_neg (lt_irrefl _)).symm⟩
    · rintro ⟨-, rfl, rfl⟩
      exact ⟨b, ⟨rfl, if_neg (lt_irrefl _)⟩, rfl⟩
  | cons rec records ih =>
    have hknown' := (Encoder.HasSize.record rec b.pos _ _ hknown).2
    rw [recordSizes, fitting, List.length_cons]
    by_cases hfull : size + (rec.size known).1 > maxSize
    · simp only [yields_countRecords_full hb hknown hfull, if_pos hfull, Nat.add_zero]
      constructor
      · rintro ⟨t, ⟨rfl, rfl⟩, rfl⟩
        exact ⟨hi, rfl, (if_pos (by omega)).symm⟩
      · rintro ⟨-, rfl, rfl⟩
        exact ⟨_, ⟨rfl, if_pos (by omega)⟩, rfl⟩
    · simp only [yields_countRecords_fits hb hknown hfull, if_neg hfull]
      constructor
      · rintro ⟨t, header', hentry, h⟩
        obtain ⟨hi', rfl⟩ := (countEntry_eq_ok hi).mp hentry
        obtain ⟨hn, hfit, hheader⟩ := (ih _ (hb.append _) hknown' hi').mp ⟨t, h⟩
        exact ⟨hn, by omega, by rw [hheader, Nat.add_right_comm, Nat.add_assoc]⟩
      · rintro ⟨hn, hfit, hheader⟩
        have hi' : checks = true → packet.Countable (i + 1) := fun h => (hn h).mono (by omega)
        obtain ⟨t, ht⟩ := (ih (size + (rec.size known).1) (hb.append rec.encoder) hknown' hi').mpr
          ⟨hn, by omega, by rw [hheader, Nat.add_right_comm, Nat.add_assoc]⟩
        exact ⟨t, _, (countEntry_eq_ok hi).mpr ⟨hi', rfl⟩, ht⟩

/-! ## Writing -/

/-- The records have not been counted yet. -/
def ZeroCounts (packet : DnsPacket) : Prop :=
  packet.header.answers = 0 ∧ packet.header.authoritativeEntries = 0 ∧
    packet.header.resourceEntries = 0

theorem counted_zero (hzero : packet.ZeroCounts) : packet.counted 0 = packet.header := by
  obtain ⟨header, questions, answers, authorities, resources⟩ := packet
  obtain ⟨hanswers, hauthorities, hresources⟩ := hzero
  cases header
  simp only at hanswers hauthorities hresources
  simp [counted, hanswers, hauthorities, hresources]

theorem countable_zero : packet.Countable 0 := by
  unfold Countable
  omega

theorem atEnd_empty : ({} : VectorPacketBuffer).AtEnd := rfl

theorem knows_empty : Labels.Knows ({} : VectorPacketBuffer).labelLookup [] := fun s => by simp

/-- What comes out of the test buffer. -/
theorem exists_yields_measure_iff (hzero : packet.ZeroCounts) {maxSize n : ℕ} {header : DnsHeader} :
    (∃ t, (packet.measure checks maxSize).Yields {} (n, header) t) ↔
      (checks = true → packet.Countable (packet.kept maxSize)) ∧ n = packet.kept maxSize ∧
      header = markTruncated (packet.kept maxSize < packet.records.length)
        (packet.counted (packet.kept maxSize)) := by
  have hquestions := Encodes.forM Encodes.question packet.questions {} atEnd_empty
  have hknown := (Encoder.HasSize.all Encoder.HasSize.question packet.questions 0 _ _ knows_empty).2
  constructor
  · rintro ⟨t, ht⟩
    obtain ⟨_, u, hu, hrest⟩ := Procedure.yields_bind.mp ht
    obtain ⟨-, rfl⟩ := hu.unique hquestions
    rw [← counted_zero hzero] at hrest
    obtain ⟨hn, hfit, hheader⟩ := (yields_countRecords packet maxSize _ packet.records
      (atEnd_empty.append _) hknown fun _ => countable_zero).mp ⟨t, hrest⟩
    rw [Nat.zero_add] at hfit hheader
    subst hfit
    exact ⟨hn, rfl, hheader⟩
  · rintro ⟨hn, rfl, rfl⟩
    obtain ⟨t, ht⟩ := (yields_countRecords packet maxSize _ packet.records
      (atEnd_empty.append _) hknown fun _ => countable_zero).mpr ⟨hn, (Nat.zero_add _).symm, rfl⟩
    rw [counted_zero hzero, Nat.zero_add] at ht
    exact ⟨t, Procedure.yields_bind.mpr ⟨(), _, hquestions, ht⟩⟩

theorem yields_writeRecords (records : List DnsRecord) {b : VectorPacketBuffer}
    {known : List String} (hb : b.AtEnd) (hknown : Labels.Knows b.labelLookup known) :
    (writeRecords records).Yields b (recordSizes records known)
      (b.append (.all DnsRecord.encoder records)) := by
  induction records generalizing b known with
  | nil =>
    refine Procedure.yields_pure.mpr ⟨rfl, ?_⟩
    simp [VectorPacketBuffer.append, Encoder.all, Encoder.emit]
  | cons rec records ih =>
    have hknown' := (Encoder.HasSize.record rec b.pos _ _ hknown).2
    rw [Encoder.all, VectorPacketBuffer.append_andThen]
    refine Procedure.yields_bind.mpr ⟨_, _, (yields_record_iff hb hknown).mpr ⟨rfl, rfl⟩, ?_⟩
    refine Procedure.yields_bind.mpr ⟨_, _, ih (hb.append _) hknown', ?_⟩
    exact Procedure.yields_pure.mpr ⟨rfl, rfl⟩

/-- The header that is written. -/
def writtenHeader (packet : DnsPacket) (maxSize : ℕ) : DnsHeader :=
  { markTruncated (packet.kept maxSize < packet.records.length)
      (packet.counted (packet.kept maxSize)) with
    questions := packet.questions.length.toUInt16 }

/-- All that is written. -/
def encoder (packet : DnsPacket) (maxSize : ℕ) : Encoder :=
  (packet.writtenHeader maxSize).encoder.andThen <|
    (Encoder.all DnsQuestion.encoder packet.questions).andThen
    (.all DnsRecord.encoder (packet.records.take (packet.kept maxSize)))

/-- **What `DnsPacket::write` does** to an empty vector. -/
theorem yields_writeTraced_iff (hzero : packet.ZeroCounts) {maxSize : ℕ} {packet' : DnsPacket}
    {ss : List ℕ} {t : VectorPacketBuffer} :
    (packet.writeTraced checks maxSize).Yields {} (packet', ss) t ↔
      (checks = true → packet.Countable (packet.kept maxSize)) ∧
      packet' = { packet with header := packet.writtenHeader maxSize } ∧
      ss = packet.sizes.take (packet.kept maxSize) ∧
      t = VectorPacketBuffer.append {} (packet.encoder maxSize) := by
  have hheader := Encodes.header (packet.writtenHeader maxSize) {} atEnd_empty
  have hquestions := Encodes.forM Encodes.question packet.questions _
    (atEnd_empty.append (packet.writtenHeader maxSize).encoder)
  have hknown := (Encoder.HasSize.all Encoder.HasSize.question packet.questions
    (VectorPacketBuffer.append {} (packet.writtenHeader maxSize).encoder).pos _ _ knows_empty).2
  have hrecords := yields_writeRecords (packet.records.take (packet.kept maxSize))
    ((atEnd_empty.append (packet.writtenHeader maxSize).encoder).append
      (.all DnsQuestion.encoder packet.questions)) hknown
  rw [recordSizes_take] at hrecords
  rw [encoder, VectorPacketBuffer.append_andThen, VectorPacketBuffer.append_andThen]
  constructor
  · intro h
    obtain ⟨⟨n, header⟩, _, hon, h⟩ := Procedure.yields_bind.mp h
    obtain ⟨hmeasure, rfl⟩ := Procedure.yields_on.mp hon
    obtain ⟨hn, rfl, rfl⟩ := (exists_yields_measure_iff hzero).mp hmeasure
    -- the rest of the method has one outcome
    obtain ⟨_, _, h₁, h⟩ := Procedure.yields_bind.mp h
    obtain ⟨-, rfl⟩ := h₁.unique hheader
    obtain ⟨_, _, h₂, h⟩ := Procedure.yields_bind.mp h
    obtain ⟨-, rfl⟩ := h₂.unique hquestions
    obtain ⟨_, _, h₃, h⟩ := Procedure.yields_bind.mp h
    obtain ⟨rfl, rfl⟩ := h₃.unique hrecords
    obtain ⟨hresult, rfl⟩ := Procedure.yields_pure.mp h
    rw [Prod.mk.injEq] at hresult
    obtain ⟨rfl, rfl⟩ := hresult
    exact ⟨hn, rfl, rfl, rfl⟩
  · rintro ⟨hn, rfl, rfl, rfl⟩
    have hmeasure := (exists_yields_measure_iff hzero).mpr ⟨hn, rfl, rfl⟩
    refine Procedure.yields_bind.mpr ⟨_, _, Procedure.yields_on.mpr ⟨hmeasure, rfl⟩, ?_⟩
    refine Procedure.yields_bind.mpr ⟨(), _, hheader, ?_⟩
    refine Procedure.yields_bind.mpr ⟨(), _, hquestions, ?_⟩
    exact Procedure.yields_bind.mpr ⟨_, _, hrecords, Procedure.yields_pure.mpr ⟨rfl, rfl⟩⟩

/-! ## The counts -/

/-- How many of the records of a section have been written, and how many have not. -/
def writtenCount (records : List DnsRecord) : ℕ := records.countP fun rec => ¬ rec.IsUnknown

def unknownCount (records : List DnsRecord) : ℕ := records.countP fun rec => rec.IsUnknown

theorem unknownCount_add_writtenCount (records : List DnsRecord) :
    unknownCount records + writtenCount records = records.length := by
  rw [List.length_eq_countP_add_countP fun rec : DnsRecord => decide rec.IsUnknown]
  simp [unknownCount, writtenCount]

/-- The header counts, in each section, the records of which something has been written. -/
def CountsMatch (packet packet' : DnsPacket) (sizes : List ℕ) : Prop :=
  packet'.header.answers.toNat
    = ((sizes.drop 0).take packet.answers.length).countP (0 < ·) ∧
  packet'.header.authoritativeEntries.toNat
    = ((sizes.drop packet.answers.length).take packet.authorities.length).countP (0 < ·) ∧
  packet'.header.resourceEntries.toNat
    = ((sizes.drop (packet.answers.length + packet.authorities.length)).take
        packet.resources.length).countP (0 < ·)

/-- A section has no more records than a `u16` counts, and records of unknown types only if, in a
build without checks, there are so many of them that the count comes round. -/
def SectionFaithful (checks : Bool) (records : List DnsRecord) : Prop :=
  writtenCount records < 2 ^ 16 ∧
    (unknownCount records = 0 ∨ checks = false ∧ 2 ^ 16 ∣ unknownCount records)

theorem length_lt_of_faithful {records : List DnsRecord} (h : SectionFaithful true records) :
    records.length < 2 ^ 16 := by
  have hlength := unknownCount_add_writtenCount records
  obtain ⟨hwritten, hunknown | ⟨hchecks, -⟩⟩ := h
  · omega
  · cases hchecks

/-- The count of a section is right when the section is faithful. -/
theorem count_eq_iff {records : List DnsRecord} (h : checks = true → records.length < 2 ^ 16) :
    (UInt16.ofNat records.length).toNat = writtenCount records ↔
      SectionFaithful checks records := by
  have hlength := unknownCount_add_writtenCount records
  have hmod : (UInt16.ofNat records.length).toNat = records.length % 2 ^ 16 := rfl
  unfold SectionFaithful
  rw [hmod]
  cases checks with
  | true =>
    have := h rfl
    simp only [Bool.true_eq_false, false_and, or_false]
    omega
  | false =>
    simp only [true_and]
    omega

/-- Which records have been written shows in their sizes. -/
theorem map_recordSizes (records : List DnsRecord) (known : List String) :
    (recordSizes records known).map (fun n => decide (0 < n))
      = records.map fun rec => decide (¬ rec.IsUnknown) := by
  induction records generalizing known with
  | nil => rfl
  | cons rec records ih =>
    rw [recordSizes, List.map_cons, List.map_cons, ih]
    simp only [DnsRecord.size_pos_iff]

/-- What has been written of a section, out of the records that fit. -/
theorem countP_sizes (packet : DnsPacket) (k m n : ℕ) :
    ((((packet.sizes.take k).drop m).take n).countP (0 < ·))
      = writtenCount (((packet.records.drop m).take n).take (k - m)) := by
  have hmap := congrArg (fun l => ((l.take k).drop m).take n) (map_recordSizes packet.records
    (Size.all DnsQuestion.size packet.questions []).2)
  simp only [← List.map_take, ← List.map_drop] at hmap
  have hcount := congrArg (List.countP id) hmap
  rw [List.countP_map, List.countP_map] at hcount
  have hcomm : ((packet.records.take k).drop m).take n
      = ((packet.records.drop m).take n).take (k - m) := by
    rw [List.drop_take, List.take_take, List.take_take, Nat.min_comm]
  rw [← hcomm]
  exact hcount

/-- The records of each section that fit are faithful. -/
def Faithful (checks : Bool) (packet : DnsPacket) (maxSize : ℕ) : Prop :=
  SectionFaithful checks (packet.answers.take (packet.kept maxSize)) ∧
  SectionFaithful checks
    (packet.authorities.take (packet.kept maxSize - packet.answers.length)) ∧
  SectionFaithful checks (packet.resources.take
    (packet.kept maxSize - (packet.answers.length + packet.authorities.length)))

theorem kept_le (packet : DnsPacket) (maxSize : ℕ) :
    packet.kept maxSize ≤
      packet.answers.length + packet.authorities.length + packet.resources.length := by
  refine (fitting_le _ _ _).trans_eq ?_
  rw [sizes, length_recordSizes, records, List.length_append, List.length_append]

/-- The counts in the header are the numbers of records that fit. -/
theorem writtenHeader_counts (packet : DnsPacket) (maxSize : ℕ) :
    (packet.writtenHeader maxSize).answers
      = .ofNat (packet.answers.take (packet.kept maxSize)).length ∧
    (packet.writtenHeader maxSize).authoritativeEntries
      = .ofNat (packet.authorities.take (packet.kept maxSize - packet.answers.length)).length ∧
    (packet.writtenHeader maxSize).resourceEntries
      = .ofNat (packet.resources.take
          (packet.kept maxSize - (packet.answers.length + packet.authorities.length))).length := by
  have hkept := packet.kept_le maxSize
  rw [List.length_take, List.length_take, List.length_take]
  have hresources : min (packet.kept maxSize - (packet.answers.length + packet.authorities.length))
      packet.resources.length
      = packet.kept maxSize - packet.answers.length - packet.authorities.length := by
    omega
  rw [hresources]
  unfold writtenHeader markTruncated
  split_ifs
  · exact ⟨rfl, rfl, rfl⟩
  · exact ⟨rfl, rfl, rfl⟩

/-- That no section is too long to be counted, in terms of the records that fit. -/
theorem countable_iff (packet : DnsPacket) (maxSize : ℕ) :
    packet.Countable (packet.kept maxSize) ↔
      (packet.answers.take (packet.kept maxSize)).length < 2 ^ 16 ∧
      (packet.authorities.take (packet.kept maxSize - packet.answers.length)).length < 2 ^ 16 ∧
      (packet.resources.take (packet.kept maxSize
        - (packet.answers.length + packet.authorities.length))).length < 2 ^ 16 := by
  have hkept := packet.kept_le maxSize
  unfold Countable
  rw [List.length_take, List.length_take, List.length_take]
  omega

theorem countsMatch_iff_faithful (maxSize : ℕ)
    (hn : checks = true → packet.Countable (packet.kept maxSize)) :
    CountsMatch packet { packet with header := packet.writtenHeader maxSize }
      (packet.sizes.take (packet.kept maxSize)) ↔ packet.Faithful checks maxSize := by
  have hanswers : (packet.records.drop 0).take packet.answers.length = packet.answers := by
    simp [records]
  have hauthorities : (packet.records.drop packet.answers.length).take packet.authorities.length
      = packet.authorities := by
    simp [records]
  have hresources : (packet.records.drop
      (packet.answers.length + packet.authorities.length)).take packet.resources.length
      = packet.resources := by
    rw [records, List.drop_left' (by simp), List.take_length]
  obtain ⟨h₁, h₂, h₃⟩ := packet.writtenHeader_counts maxSize
  rw [CountsMatch, countP_sizes, countP_sizes, countP_sizes, hanswers, hauthorities, hresources,
    h₁, h₂, h₃, Nat.sub_zero]
  simp only [countable_iff] at hn
  rw [count_eq_iff fun h => (hn h).1, count_eq_iff fun h => (hn h).2.1,
    count_eq_iff fun h => (hn h).2.2]
  rfl

/-- **The counts of the sections** are those of the records that have been written exactly when
the records that fit are faithful. -/
theorem exists_countsMatch_iff (checks : Bool) (packet : DnsPacket) (maxSize : ℕ)
    (hzero : packet.ZeroCounts) :
    (∃ packet' sizes t, (packet.writeTraced checks maxSize).Yields ({} : VectorPacketBuffer)
      (packet', sizes) t ∧ CountsMatch packet packet' sizes) ↔
      packet.Faithful checks maxSize := by
  simp only [yields_writeTraced_iff hzero]
  constructor
  · rintro ⟨_, _, _, ⟨hn, rfl, rfl, rfl⟩, hmatch⟩
    exact (countsMatch_iff_faithful maxSize hn).mp hmatch
  · intro h
    have hn : checks = true → packet.Countable (packet.kept maxSize) := by
      rintro rfl
      exact (packet.countable_iff maxSize).mpr ⟨length_lt_of_faithful h.1,
        length_lt_of_faithful h.2.1, length_lt_of_faithful h.2.2⟩
    exact ⟨_, _, _, ⟨hn, rfl, rfl, rfl⟩, (countsMatch_iff_faithful maxSize hn).mpr h⟩

instance (packet : DnsPacket) : Decidable packet.ZeroCounts :=
  inferInstanceAs (Decidable (_ ∧ _ ∧ _))

instance (checks : Bool) (records : List DnsRecord) : Decidable (SectionFaithful checks records) :=
  inferInstanceAs (Decidable (_ ∧ _))

instance (checks : Bool) (packet : DnsPacket) (maxSize : ℕ) :
    Decidable (packet.Faithful checks maxSize) :=
  inferInstanceAs (Decidable (_ ∧ _ ∧ _))

/-- An answer with one address. -/
def addressAnswer : DnsPacket where
  questions := [⟨"a", .a⟩]
  answers := [.a "a" ⟨#v[127, 0, 0, 1]⟩ 60]

/-- An answer with one record of an unknown type. -/
def unknownAnswer : DnsPacket where
  questions := [⟨"a", .unknown 65⟩]
  answers := [.unknown "a" 65 4 60]

end DnsPacket
