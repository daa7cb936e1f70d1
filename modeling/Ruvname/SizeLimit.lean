/-
# The size limit

`DnsPacket::write` leaves out the records that would make the message larger than a limit.  It takes
`binary_len` for the size of a question, which is the size of the name; the type and the class of a
question, four bytes, are left out.  So a message can be up to four bytes a question too long; it is
exactly if some first records fit with the questions as they are estimated and do not fit with the
questions as they are written (`DnsPacket.FitsAsEstimated`).

The header says that something is left out when a record does not fit.  A record of an unknown type
always fits, and nothing is written of it; so when all records fit it is left out without a word
(`DnsPacket.TellsUnknown`).
-/
import Ruvname.RoundTrip

open PacketBuffer

/-! ## The records that fit -/

/-- The records that are kept fit. -/
theorem sum_take_fitting_le {maxSize size : ℕ} {sizes : List ℕ}
    (h : 0 < fitting maxSize size sizes) :
    size + (sizes.take (fitting maxSize size sizes)).sum ≤ maxSize := by
  induction sizes generalizing size with
  | nil => exact absurd h (lt_irrefl 0)
  | cons n sizes ih =>
    rw [fitting] at h ⊢
    split_ifs at h ⊢ with hfull
    · exact absurd h (lt_irrefl 0)
    · rw [List.take_succ_cons, List.sum_cons, ← Nat.add_assoc]
      rcases Nat.eq_zero_or_pos (fitting maxSize (size + n) sizes) with hzero | hpos
      · rw [hzero, List.take_zero, List.sum_nil]
        omega
      · exact ih hpos

/-- First records that fit are kept. -/
theorem le_fitting {maxSize size j : ℕ} {sizes : List ℕ} (hj : j ≤ sizes.length)
    (h : size + (sizes.take j).sum ≤ maxSize) : j ≤ fitting maxSize size sizes := by
  induction sizes generalizing size j with
  | nil => exact hj
  | cons n sizes ih =>
    cases j with
    | zero => exact Nat.zero_le _
    | succ j =>
      rw [List.take_succ_cons, List.sum_cons, ← Nat.add_assoc] at h
      rw [List.length_cons] at hj
      rw [fitting, if_neg (by omega)]
      exact Nat.succ_le_succ (ih (Nat.le_of_succ_le_succ hj) h)

theorem sum_take_mono {sizes : List ℕ} {i j : ℕ} (h : i ≤ j) :
    (sizes.take i).sum ≤ (sizes.take j).sum := by
  rw [← List.take_append_drop i (sizes.take j), List.take_take, min_eq_left h, List.sum_append]
  exact Nat.le_add_right _ _

theorem sum_recordSizes (records : List DnsRecord) (known : List String) :
    (recordSizes records known).sum = (Size.all DnsRecord.size records known).1 := by
  induction records generalizing known with
  | nil => rfl
  | cons rec records ih =>
    rw [recordSizes, List.sum_cons, ih]
    rfl

namespace DnsPacket

variable {packet : DnsPacket}

/-! ## The limit -/

/-- The size of the header and the questions as it is estimated. -/
def estimatedSize (packet : DnsPacket) : ℕ :=
  (packet.questions.map DnsQuestion.binaryLen).foldl (· + ·) DnsHeader.binaryLen

/-- The size of the header and the questions as they are written. -/
def questionsSize (packet : DnsPacket) : ℕ :=
  DnsHeader.binaryLen + (Size.all DnsQuestion.size packet.questions []).1

/-- The size of the first records. -/
def firstSize (packet : DnsPacket) (j : ℕ) : ℕ := (packet.sizes.take j).sum

/-- First records that fit behind the estimate fit behind the questions as well, and in a build with
checks there are no more of them than can be counted. -/
def FitsAsEstimated (checks : Bool) (packet : DnsPacket) (maxSize : ℕ) : Prop :=
  ∀ j ≤ packet.records.length, packet.estimatedSize + packet.firstSize j ≤ maxSize →
    packet.questionsSize + packet.firstSize j ≤ maxSize ∧ (checks = true → packet.Countable j)

/-- When all records fit behind the estimate none of them is of an unknown type, or the header has
said before that records are left out. -/
def TellsUnknown (packet : DnsPacket) (maxSize : ℕ) : Prop :=
  packet.estimatedSize + packet.firstSize packet.records.length ≤ maxSize →
    packet.header.truncatedMessage = true ∨ ∀ rec ∈ packet.records, ¬ rec.IsUnknown

/-- What is written is no larger than the limit, and if something has been written of fewer records
than there are, the header says so. -/
def RespectsLimit (packet : DnsPacket) (maxSize : ℕ) (written : DnsPacket) (sizes : List ℕ)
    (buffer : List UInt8) : Prop :=
  buffer.length ≤ maxSize ∧
    (sizes.countP (0 < ·) < packet.records.length → written.header.truncatedMessage = true)

theorem length_encoder (packet : DnsPacket) (maxSize : ℕ) :
    (packet.encoder maxSize 0 fun _ => none).1.length
      = packet.questionsSize + packet.firstSize (packet.kept maxSize) := by
  rw [(packet.hasSize_encoder maxSize 0 _ [] knows_empty).1, firstSize, sizes, ← recordSizes_take,
    sum_recordSizes, questionsSize, Nat.add_assoc]
  rfl

/-- The flag is set when records are left out. -/
theorem truncatedMessage_writtenHeader {maxSize : ℕ}
    (h : packet.kept maxSize < packet.records.length) :
    (packet.writtenHeader maxSize).truncatedMessage = true := by
  unfold writtenHeader markTruncated
  rw [if_pos h]

theorem length_sizes (packet : DnsPacket) : packet.sizes.length = packet.records.length :=
  length_recordSizes _ _

theorem kept_le_length (packet : DnsPacket) (maxSize : ℕ) :
    packet.kept maxSize ≤ packet.records.length := by
  rw [← length_sizes]
  exact fitting_le _ _ _

/-- Otherwise the flag is as it was. -/
theorem truncatedMessage_writtenHeader_of_le {maxSize : ℕ}
    (h : packet.records.length ≤ packet.kept maxSize) :
    (packet.writtenHeader maxSize).truncatedMessage = packet.header.truncatedMessage := by
  unfold writtenHeader markTruncated
  rw [if_neg (not_lt.mpr h)]
  rfl

/-- All records are kept if they fit. -/
theorem kept_eq_length {maxSize : ℕ}
    (h : packet.estimatedSize + packet.firstSize packet.records.length ≤ maxSize) :
    packet.kept maxSize = packet.records.length :=
  (packet.kept_le_length maxSize).antisymm (le_fitting packet.length_sizes.ge h)

/-- Something has been written of all records exactly if none of them is of an unknown type. -/
theorem countP_sizes_eq_length_iff (packet : DnsPacket) :
    packet.sizes.countP (0 < ·) = packet.records.length ↔
      ∀ rec ∈ packet.records, ¬ rec.IsUnknown := by
  have hcount := congrArg (List.countP id) (map_recordSizes packet.records
    (Size.all DnsQuestion.size packet.questions []).2)
  rw [List.countP_map, List.countP_map] at hcount
  rw [show packet.sizes.countP (0 < ·) = _ from hcount, List.countP_eq_length]
  simp

/-- The header says that a record is left out exactly when those of unknown types are told. -/
theorem tells_iff (packet : DnsPacket) (maxSize : ℕ) :
    ((packet.sizes.take (packet.kept maxSize)).countP (0 < ·) < packet.records.length →
      (packet.writtenHeader maxSize).truncatedMessage = true) ↔ packet.TellsUnknown maxSize := by
  constructor
  · intro htold hfit
    have hkept := kept_eq_length hfit
    rw [truncatedMessage_writtenHeader_of_le hkept.ge, hkept, ← packet.length_sizes,
      List.take_length, packet.length_sizes] at htold
    by_cases hunknown : ∀ rec ∈ packet.records, ¬ rec.IsUnknown
    · exact Or.inr hunknown
    · have hcount : packet.sizes.countP (0 < ·) ≤ packet.records.length :=
        List.countP_le_length.trans packet.length_sizes.le
      exact Or.inl (htold (hcount.lt_of_ne fun heq =>
        hunknown ((countP_sizes_eq_length_iff packet).mp heq)))
  · intro htells hfewer
    rcases (packet.kept_le_length maxSize).lt_or_eq with hlt | hkept
    · exact truncatedMessage_writtenHeader hlt
    · have hsome : 0 < packet.kept maxSize := hkept ▸ (Nat.zero_le _).trans_lt hfewer
      have hfit : packet.estimatedSize + packet.firstSize packet.records.length ≤ maxSize :=
        hkept ▸ sum_take_fitting_le hsome
      rw [truncatedMessage_writtenHeader_of_le hkept.ge]
      refine (htells hfit).resolve_right fun hknown => hfewer.ne ?_
      rw [hkept, ← packet.length_sizes, List.take_length, packet.length_sizes]
      exact (countP_sizes_eq_length_iff packet).mpr hknown

/-- **The limit is respected exactly when the estimate does no harm and no record of an unknown type
is left out without a word.**  The limit leaves room for the header and the questions, and no record
has been counted before. -/
theorem respectsLimit_iff (checks : Bool) (packet : DnsPacket) (maxSize : ℕ)
    (hzero : packet.ZeroCounts) (hroom : packet.questionsSize ≤ maxSize) :
    (∃ written sizes t, (packet.writeTraced checks maxSize).Yields ({} : VectorPacketBuffer)
      (written, sizes) t ∧ packet.RespectsLimit maxSize written sizes t.buffer) ↔
      packet.FitsAsEstimated checks maxSize ∧ packet.TellsUnknown maxSize := by
  have hlength := packet.length_encoder maxSize
  simp only [yields_writeTraced_iff hzero]
  constructor
  · rintro ⟨_, _, _, ⟨hn, rfl, rfl, rfl⟩, hle, htold⟩
    refine ⟨fun j hj hfits => ?_, (packet.tells_iff maxSize).mp htold⟩
    have hkept : j ≤ packet.kept maxSize := by
      refine le_fitting ?_ hfits
      rwa [length_sizes]
    have hbytes : packet.questionsSize + packet.firstSize (packet.kept maxSize) ≤ maxSize :=
      hlength ▸ hle
    have hmono : packet.firstSize j ≤ packet.firstSize (packet.kept maxSize) := sum_take_mono hkept
    exact ⟨by omega, fun hchecks => (hn hchecks).mono hkept⟩
  · rintro ⟨hfits, htells⟩
    have hboth : packet.questionsSize + packet.firstSize (packet.kept maxSize) ≤ maxSize ∧
        (checks = true → packet.Countable (packet.kept maxSize)) := by
      rcases Nat.eq_zero_or_pos (packet.kept maxSize) with hnone | hpos
      · rw [hnone]
        exact ⟨hroom, fun _ => countable_zero⟩
      · exact hfits _ (packet.kept_le_length maxSize) (sum_take_fitting_le hpos)
    exact ⟨_, _, _, ⟨hboth.2, rfl, rfl, rfl⟩, (hlength.trans_le hboth.1 :),
      (packet.tells_iff maxSize).mpr htells⟩

/-! ## How far the limit can be exceeded -/

end DnsPacket

/-- A name takes no more bytes than without compression. -/
theorem Size.labels_le (ls known : List String) :
    (labels ls known).1 ≤ (ls.map fun label => label.utf8ByteSize + 1).sum + 1 := by
  induction ls generalizing known with
  | nil => exact le_rfl
  | cons label rest ih =>
    rw [List.map_cons, List.sum_cons]
    by_cases hmem : ".".intercalate (label :: rest) ∈ known
    · rw [labels_of_mem hmem]
      show 2 ≤ _
      omega
    · rw [labels_of_not_mem hmem]
      have hrest := ih (".".intercalate (label :: rest) :: known)
      show 1 + label.utf8ByteSize + (labels rest (".".intercalate (label :: rest) :: known)).1 ≤ _
      omega

theorem foldl_add (n : ℕ) (ns : List ℕ) : ns.foldl (· + ·) n = n + ns.sum := by
  induction ns generalizing n with
  | nil => rfl
  | cons m ns ih => rw [List.foldl_cons, ih, List.sum_cons, Nat.add_assoc]

/-- A question takes at most four bytes more than is estimated. -/
theorem DnsQuestion.size_le (question : DnsQuestion) (known : List String) :
    (question.size known).1 ≤ question.binaryLen + 4 := by
  have hname := Size.labels_le (splitDots question.name) known
  rw [binaryLen, foldl_add, Nat.add_comm 1]
  exact Nat.add_le_add_right hname 4

theorem DnsQuestion.all_size_le (questions : List DnsQuestion) (known : List String) :
    (Size.all DnsQuestion.size questions known).1
      ≤ (questions.map DnsQuestion.binaryLen).sum + 4 * questions.length := by
  induction questions generalizing known with
  | nil => exact le_rfl
  | cons question questions ih =>
    have hfirst := question.size_le known
    have hrest := ih (question.size known).2
    rw [List.map_cons, List.sum_cons, List.length_cons]
    show (question.size known).1 + (Size.all DnsQuestion.size questions _).1 ≤ _
    omega

namespace DnsPacket

/-- **The limit is exceeded by at most four bytes a question.** -/
theorem length_write_le (checks : Bool) (packet : DnsPacket) (maxSize : ℕ)
    (hzero : packet.ZeroCounts) (hroom : packet.questionsSize ≤ maxSize) {written : DnsPacket}
    {t : VectorPacketBuffer} (h : (packet.write checks maxSize).Yields {} written t) :
    t.buffer.length ≤ maxSize + 4 * packet.questions.length := by
  obtain ⟨_, _, htraced, hpure⟩ := Procedure.yields_bind.mp h
  obtain ⟨-, rfl⟩ := Procedure.yields_pure.mp hpure
  obtain ⟨-, -, -, rfl⟩ := (yields_writeTraced_iff hzero).mp htraced
  refine (packet.length_encoder maxSize).trans_le ?_
  have hquestions := DnsQuestion.all_size_le packet.questions []
  have hestimate : packet.estimatedSize
      = DnsHeader.binaryLen + (packet.questions.map DnsQuestion.binaryLen).sum := foldl_add _ _
  rcases Nat.eq_zero_or_pos (packet.kept maxSize) with hnone | hpos
  · rw [hnone]
    exact hroom.trans (Nat.le_add_right _ _)
  · have hfits : packet.estimatedSize + packet.firstSize (packet.kept maxSize) ≤ maxSize :=
      sum_take_fitting_le hpos
    unfold questionsSize
    omega

theorem respectsLimit_addressAnswer :
    addressAnswer.ZeroCounts ∧ addressAnswer.questionsSize ≤ 480 ∧
    ((∃ written sizes t, (addressAnswer.writeTraced true 480).Yields ({} : VectorPacketBuffer)
      (written, sizes) t ∧ addressAnswer.RespectsLimit 480 written sizes t.buffer) ↔
      addressAnswer.FitsAsEstimated true 480 ∧ addressAnswer.TellsUnknown 480) := by
  have hzero : addressAnswer.ZeroCounts := by decide
  have hroom : addressAnswer.questionsSize ≤ 480 := by decide +kernel
  exact ⟨hzero, hroom, respectsLimit_iff true addressAnswer 480 hzero hroom⟩

/-- The answer takes 35 bytes where 32 are allowed. -/
theorem not_respectsLimit_addressAnswer :
    addressAnswer.ZeroCounts ∧ addressAnswer.questionsSize ≤ 32 ∧
    ∃ written sizes t, (addressAnswer.writeTraced true 32).Yields ({} : VectorPacketBuffer)
      (written, sizes) t ∧ t.buffer.length = 35 ∧
      ¬ addressAnswer.RespectsLimit 32 written sizes t.buffer := by
  have hzero : addressAnswer.ZeroCounts := by decide
  have hn : true = true → addressAnswer.Countable (addressAnswer.kept 32) := fun _ =>
    (countable_iff _ _).mpr (by decide +kernel)
  have hlength : (addressAnswer.encoder 32 0 fun _ => none).1.length = 35 := by decide +kernel
  refine ⟨hzero, by decide +kernel, _, _, _, (yields_writeTraced_iff hzero).mpr ⟨hn, rfl, rfl, rfl⟩,
    hlength, ?_⟩
  rintro ⟨hle, -⟩
  exact absurd (hlength ▸ hle) (by decide)

/-- Of the answer, which fits, nothing is written, and the header does not say so. -/
theorem not_respectsLimit_unknownAnswer :
    unknownAnswer.ZeroCounts ∧ unknownAnswer.questionsSize ≤ 480 ∧
    ∃ written sizes t, (unknownAnswer.writeTraced true 480).Yields ({} : VectorPacketBuffer)
      (written, sizes) t ∧ sizes = [0] ∧ written.header.truncatedMessage = false ∧
      ¬ unknownAnswer.RespectsLimit 480 written sizes t.buffer := by
  have hzero : unknownAnswer.ZeroCounts := by decide
  have hn : true = true → unknownAnswer.Countable (unknownAnswer.kept 480) := fun _ =>
    (countable_iff _ _).mpr (by decide +kernel)
  have hsizes : unknownAnswer.sizes.take (unknownAnswer.kept 480) = [0] := by decide +kernel
  have hflag : (unknownAnswer.writtenHeader 480).truncatedMessage = false := by decide +kernel
  refine ⟨hzero, by decide +kernel, _, _, _, (yields_writeTraced_iff hzero).mpr ⟨hn, rfl, rfl, rfl⟩,
    hsizes, hflag, ?_⟩
  rintro ⟨-, htold⟩
  rw [hsizes] at htold
  exact absurd (hflag.symm.trans (htold (by decide))) (by decide)

end DnsPacket
