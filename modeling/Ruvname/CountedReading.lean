/-
# Following the counts

A reader takes as many questions and records as the header counts.  If the counts are those of what
has been written and the packet is legible, then the reader consumes exactly what has been written
(`DnsPacket.countsMatch_iff`).

The root is no legible name: of the two zero bytes that are written for it the reader takes one, and
is behind the writer from there on.  What it then takes for a record may end anywhere, even where the
buffer does; so a packet that is not legible may be consumed by accident.
-/
import Ruvname.RoundTrip

open PacketBuffer

namespace VectorPacketBuffer

/-- A reader that follows the counts, from the start of the buffer, consumes all of it. -/
def ReadsOut (U : Unicode) (checks : Bool) (b : VectorPacketBuffer) : Prop :=
  ∃ packet t, (seek 0 >>= fun _ => DnsPacket.fromBuffer U checks).Yields b packet t ∧
    t.buffer = b.buffer ∧ t.pos = b.buffer.length

/-- That is, the buffer is the layout of some packet. -/
theorem readsOut_iff {U : Unicode} {checks : Bool} {b : VectorPacketBuffer} :
    b.ReadsOut U checks ↔ ∃ packet, PacketAt U checks 0 b.buffer 0 packet b.buffer.length := by
  constructor
  · rintro ⟨packet, t, hread, -, hpos⟩
    obtain ⟨_, u, hseek, hread⟩ := Procedure.yields_bind.mp hread
    obtain rfl := Procedure.yields_modify.mp hseek
    obtain ⟨-, hpacket⟩ := (ReadableBuffer.reads_fromBuffer U checks).sound _ _ _ hread
    exact ⟨packet, hpos ▸ hpacket⟩
  · rintro ⟨packet, hpacket⟩
    obtain ⟨t, hread, hbuffer, hpos⟩ := (ReadableBuffer.reads_fromBuffer U checks).complete
      { b with pos := 0 } _ _ hpacket
    exact ⟨packet, t, Procedure.yields_bind.mpr ⟨(), _, Procedure.yields_modify.mpr rfl, hread⟩,
      hbuffer, hpos⟩

end VectorPacketBuffer

namespace DnsPacket

/-- The header counts, in each section, the records of which something has been written, and a reader
that follows the counts consumes exactly what has been written. -/
def CountsFollowed (U : Unicode) (checks : Bool) (packet packet' : DnsPacket) (sizes : List ℕ)
    (t : VectorPacketBuffer) : Prop :=
  CountsMatch packet packet' sizes ∧ t.ReadsOut U checks

/-- A question about the root. -/
def rootQuestion : DnsPacket where
  questions := [⟨"", .ns⟩]

/-- Its answer, with data that goes well with a reader that is one byte behind. -/
def rootAnswer : DnsPacket where
  questions := [⟨"", .ns⟩]
  answers := [.tlsa "" 0 0 0 [0, 16, 0, 1, 0, 0, 0, 0, 0, 0] 0]

/-- The counts are right, and the reader stops before the last byte. -/
theorem not_readsOut_rootQuestion :
    rootQuestion.ZeroCounts ∧ rootQuestion.Faithful true 480 ∧
    ∃ packet' sizes t, (rootQuestion.writeTraced true 480).Yields ({} : VectorPacketBuffer)
      (packet', sizes) t ∧ CountsMatch rootQuestion packet' sizes ∧
      ¬ t.ReadsOut Unicode.ascii true := by
  have hzero : rootQuestion.ZeroCounts := by decide
  have hfaithful : rootQuestion.Faithful true 480 := by decide +kernel
  obtain ⟨packet', sizes, t, hwrite, hmatch⟩ :=
    (exists_countsMatch_iff true rootQuestion 480 hzero).mpr hfaithful
  refine ⟨hzero, hfaithful, packet', sizes, t, hwrite, hmatch, fun hreads => ?_⟩
  obtain ⟨-, -, -, rfl⟩ := (yields_writeTraced_iff hzero).mp hwrite
  have hbuffer : (VectorPacketBuffer.append {} (rootQuestion.encoder 480)).buffer
      = [0, 0, 0, 0, 0, 1, 0, 0, 0, 0, 0, 0, 0, 0, 0, 2, 0, 1] := by decide +kernel
  obtain ⟨packet, hpacket⟩ := VectorPacketBuffer.readsOut_iff.mp hreads
  rw [hbuffer] at hpacket
  obtain ⟨hheader, hn, ha, hau, hr, m, hquestions, hrecords⟩ := (packetAt_iff _ _ _ _).mp hpacket
  obtain ⟨_, _, questions, answers, authorities, resources, -, -, hq, h₁, h₂, h₃, heq⟩ := hheader
  -- there is one question and no record
  obtain rfl := hq.unique ⟨0, 1, rfl, rfl, rfl⟩
  obtain rfl := h₁.unique ⟨0, 0, rfl, rfl, rfl⟩
  obtain rfl := h₂.unique ⟨0, 0, rfl, rfl, rfl⟩
  obtain rfl := h₃.unique ⟨0, 0, rfl, rfl, rfl⟩
  rw [heq] at hn ha hau hr
  obtain ⟨question, hquestion⟩ := List.length_eq_one_iff.mp hn
  have hnone : packet.records = [] := by
    rw [records, List.eq_nil_of_length_eq_zero ha, List.eq_nil_of_length_eq_zero hau,
      List.eq_nil_of_length_eq_zero hr]
    rfl
  rw [hquestion] at hquestions
  rw [hnone] at hrecords
  rcases hquestions with _ | ⟨⟨hname, -, -⟩, ⟨⟩⟩
  obtain ⟨-, rfl⟩ := hname.unique (.stop rfl)
  cases hrecords

/-- What is written of the answer. -/
def rootBytes : List UInt8 :=
  [0, 0, 0, 0, 0, 1, 0, 1, 0, 0, 0, 0] ++ [0, 0, 0, 2, 0, 1] ++
    [192, 12, 0, 52, 0, 1, 0, 0, 0, 0, 0, 13, 0, 0, 0] ++ [0, 16, 0, 1, 0, 0, 0, 0, 0, 0]

/-- The reader takes the pointer of the record for the end of a name. -/
theorem recordAt_rootBytes : ∃ rec, RecordAt Unicode.ascii true 0 rootBytes 17 rec 43 := by
  have hend : NameAt rootBytes 32 [] 33 := .stop (by decide)
  have hrest : NameAt rootBytes 19 [(rootBytes.drop 20).take 12] 33 :=
    .label (show rootBytes[19]? = some 12 by decide) (by decide) (by decide) hend
  have hname : NameAt rootBytes 17 [(rootBytes.drop 18).take 1, (rootBytes.drop 20).take 12] 33 :=
    .label (show rootBytes[17]? = some 1 by decide) (by decide) (by decide) hrest
  have hqtype : U16At rootBytes 33 16 := ⟨0, 16, by decide, by decide, by decide⟩
  have hklass : U16At rootBytes 35 1 := ⟨0, 1, by decide, by decide, by decide⟩
  have httl : U32At rootBytes 37 0 :=
    ⟨0, 0, 0, 0, by decide, by decide, by decide, by decide, by decide⟩
  have hdataLen : U16At rootBytes 41 0 := ⟨0, 0, by decide, by decide, by decide⟩
  exact ⟨_, .mk hname hqtype hklass httl hdataLen (.txt ⟨by decide, rfl⟩)⟩

/-- **Legible is enough, but not needed.**  Behind the question about the root the reader takes other
bytes for the record than have been written for it, and still it stops at the end. -/
theorem readsOut_rootAnswer :
    rootAnswer.ZeroCounts ∧ ¬ rootAnswer.Legible 480 ∧
    ∃ packet' sizes t, (rootAnswer.writeTraced true 480).Yields ({} : VectorPacketBuffer)
      (packet', sizes) t ∧ CountsFollowed Unicode.ascii true rootAnswer packet' sizes t := by
  have hzero : rootAnswer.ZeroCounts := by decide
  refine ⟨hzero, fun h => ?_, ?_⟩
  · have hlabel := h.questions _ (List.mem_singleton_self _) "" (List.mem_singleton_self _)
    exact absurd hlabel.pos (by decide)
  obtain ⟨packet', sizes, t, hwrite, hmatch⟩ :=
    (exists_countsMatch_iff true rootAnswer 480 hzero).mpr (by decide +kernel)
  refine ⟨packet', sizes, t, hwrite, hmatch, VectorPacketBuffer.readsOut_iff.mpr ?_⟩
  obtain ⟨-, -, -, rfl⟩ := (yields_writeTraced_iff hzero).mp hwrite
  have hbytes : (VectorPacketBuffer.append {} (rootAnswer.encoder 480)).buffer = rootBytes := by
    decide +kernel
  rw [hbytes]
  obtain ⟨rec, hrecord⟩ := recordAt_rootBytes
  have hquestion : QuestionAt Unicode.ascii rootBytes 12 ⟨"", .fromNum 0⟩ 17 :=
    .mk (.stop (by decide)) ⟨0, 0, by decide, by decide, by decide⟩
      (show U16At rootBytes 15 512 from ⟨2, 0, by decide, by decide, by decide⟩)
  have hheader : HeaderAt rootBytes 0 (.ofWords 0 0 1 1 0 0) :=
    ⟨0, 0, 1, 1, 0, 0, ⟨0, 0, by decide, by decide, by decide⟩, ⟨0, 0, by decide, by decide, by decide⟩,
      ⟨0, 1, by decide, by decide, by decide⟩, ⟨0, 1, by decide, by decide, by decide⟩,
      ⟨0, 0, by decide, by decide, by decide⟩, ⟨0, 0, by decide, by decide, by decide⟩, rfl⟩
  exact ⟨⟨.ofWords 0 0 1 1 0 0, [⟨"", .fromNum 0⟩], [rec], [], []⟩, .mk hheader rfl rfl rfl rfl
    (.cons hquestion .nil) (.cons hrecord .nil) .nil .nil⟩

end DnsPacket
