/-
# Text records

A TXT record is written with its text behind one more byte that says how long the text is, and the
length of the record's data counts this byte.  When the record is read, all of the data is taken for
the text.  So the text that comes back has one more character in front: no TXT record is the same
after it has been written and read.
-/
import Ruvname.Lossy
import Ruvname.NameSequences

open PacketBuffer

/-- The functions on text with `from_utf8_lossy` as it is documented; only `to_lowercase` is open. -/
def Unicode.lossy (U : Unicode) : Unicode :=
  { U with
    fromUtf8Lossy := Lossy.fromUtf8Lossy
    fromUtf8Lossy_toUTF8 := Lossy.fromUtf8Lossy_toUTF8 }

/-! ## Where a name ends -/

/-- Every pointer that is written is one. -/
theorem isPointer_upper (v : UInt16) : isPointer ((v ||| 0xc000) >>> 8).toUInt8 := by
  rw [isPointer_iff, toNat_upperByte16]
  have hle : 0xc000 ≤ (v ||| 0xc000).toNat := by
    rw [UInt16.toNat_or]
    exact Nat.right_le_or
  have hlt := (v ||| 0xc000).toNat_lt
  omega

section

variable {data : List UInt8} {p q : ℕ}

theorem NameAt.eq_of_pointer {names : List (List UInt8)} {len : UInt8} (h : NameAt data p names q)
    (hlen : data[p]? = some len) (hpointer : isPointer len) : q = p + 2 := by
  cases h with
  | pointer => rfl
  | stop hlen' =>
    rw [hlen, Option.some.injEq] at hlen'
    rw [hlen'] at hpointer
    exact absurd hpointer (by decide)
  | label hlen' hpointer' =>
    rw [hlen, Option.some.injEq] at hlen'
    rw [hlen'] at hpointer
    exact absurd hpointer hpointer'

theorem NameAt.of_label {names : List (List UInt8)} {len : UInt8} (h : NameAt data p names q)
    (hlen : data[p]? = some len) (hpointer : ¬ isPointer len) (hne : len ≠ 0) :
    ∃ names', NameAt data (p + 1 + len.toNat) names' q := by
  cases h with
  | stop hlen' =>
    rw [hlen, Option.some.injEq] at hlen'
    exact absurd hlen' hne
  | label hlen' _ _ rest =>
    rw [hlen, Option.some.injEq] at hlen'
    subst hlen'
    exact ⟨_, rest⟩
  | pointer hlen' hpointer' =>
    rw [hlen, Option.some.injEq] at hlen'
    rw [hlen'] at hpointer
    exact absurd hpointer' hpointer

/-- A name that is read where labels have been written ends where they do, whatever the table has
said about them. -/
theorem nameAt_end {labels : List String} (hvalid : ∀ label ∈ labels, ValidLabel label)
    {table : Labels} (hbytes : BytesAt data p (Encoder.labels labels p table).1)
    {names : List (List UInt8)} (hname : NameAt data p names q) :
    q = p + (Encoder.labels labels p table).1.length := by
  induction labels generalizing p table names with
  | nil => exact (hname.unique (.stop (hbytes.getElem? (i := 0) rfl))).2
  | cons label rest ih =>
    cases hfound : table (".".intercalate (label :: rest)) with
    | some prevPos =>
      rw [Encoder.labels_of_some hfound] at hbytes ⊢
      exact hname.eq_of_pointer (hbytes.getElem? (i := 0) rfl) (isPointer_upper _)
    | none =>
      rw [Encoder.labels_of_none hfound] at hbytes ⊢
      obtain ⟨hpointer, hne, hsize⟩ := not_isPointer_size (hvalid label List.mem_cons_self).legible
      have hfirst : BytesAt data p (Encoder.bytesLabel label) := BytesAt.left hbytes
      obtain ⟨names', hrest⟩ := hname.of_label (hfirst.getElem? (i := 0) rfl) hpointer hne
      have hnext : p + 1 + label.utf8ByteSize.toUInt8.toNat
          = p + (Encoder.bytesLabel label).length := by
        rw [hsize, Encoder.HasSize.length_bytesLabel, Nat.add_assoc]
      rw [hnext] at hrest
      have hend := ih (fun l hl => hvalid l (List.mem_cons_of_mem _ hl)) (BytesAt.right hbytes) hrest
      rw [hend, Nat.add_assoc]
      exact congrArg (p + ·) List.length_append.symm

end

/-! ## What is read of a text record -/

namespace DnsRecord

variable {domain data : String} {ttl : UInt32}

/-- The bytes of a text record behind its name. -/
def txtTail (data : String) (ttl : UInt32) : List UInt8 :=
  Encoder.bytesU16 16 ++ (Encoder.bytesU16 1 ++ (Encoder.bytesU32 ttl ++
    (Encoder.bytesU16 (data.utf8ByteSize + 1).toUInt16 ++
      data.utf8ByteSize.toUInt8 :: data.toUTF8.data.toList)))

theorem encoder_txt (p : ℕ) (table : Labels) :
    ((txt domain data ttl).encoder p table).1
      = (Encoder.qname domain p table).1 ++ txtTail data ttl := by
  simp [encoder, headEncoder, Encoder.andThen, Encoder.u16, Encoder.u32, Encoder.emit, txtTail]
  rfl

/-- **What is read has the length of the text in front of the text.** -/
theorem recordAt_txt (U : Unicode) (checks : Bool) (hdomain : ValidName domain)
    (hsize : data.utf8ByteSize ≤ 255) {bytes : List UInt8} {p q : ℕ} {table : Labels}
    (hbytes : BytesAt bytes p ((txt domain data ttl).encoder p table).1) {rec : DnsRecord}
    (h : RecordAt U checks 0 bytes p rec q) :
    ∃ domain' ttl', rec = txt domain'
      (U.fromUtf8Lossy (data.utf8ByteSize.toUInt8 :: data.toUTF8.data.toList)) ttl' := by
  rw [encoder_txt] at hbytes
  obtain ⟨hname, hqtype, -, -, hlen, hdata⟩ := h
  obtain rfl := nameAt_end hdomain hbytes.left hname
  have htail : BytesAt bytes (p + (Encoder.labels (splitDots domain) p table).1.length)
      (txtTail data ttl) := hbytes.right
  generalize p + _ = m at hqtype hlen hdata htail
  obtain rfl := hqtype.unique htail.left.u16At
  have hrest : BytesAt bytes (m + 8) (Encoder.bytesU16 (data.utf8ByteSize + 1).toUInt16 ++
      data.utf8ByteSize.toUInt8 :: data.toUTF8.data.toList) := htail.right.right.right
  obtain rfl := hlen.unique hrest.left.u16At
  have htext : BytesAt bytes (m + 10) (data.utf8ByteSize.toUInt8 :: data.toUTF8.data.toList) :=
    hrest.right
  cases hdata with
  | txt range =>
    obtain ⟨-, rfl⟩ := range
    have hlength : (data.utf8ByteSize + 1).toUInt16.toNat
        = (data.utf8ByteSize.toUInt8 :: utf8 data).length := toNat_txtLen (by omega)
    rw [utf8] at hlength
    rw [hlength, ← htext.2]
    exact ⟨_, _, rfl⟩

/-- **No text record comes back.**  A TXT record can be written at the end of every vector; whatever
is read from where it has been written is not this record. -/
theorem not_readsBack_txt (U : Unicode) (checks : Bool) (ttl : UInt32) (hdomain : ValidName domain)
    (hsize : data.utf8ByteSize ≤ 255) {b : VectorPacketBuffer} (hb : b.AtEnd) :
    ∃ n t, (txt domain data ttl).write.Yields b n t ∧
      ∀ rec t', (seek b.pos >>= fun _ => DnsRecord.read U.lossy checks).Yields t rec t' →
        rec ≠ txt domain data ttl := by
  refine ⟨_, _, (txt domain data ttl).yields_write hb, fun rec t' hread heq => ?_⟩
  obtain ⟨_, u, hseek, hread⟩ := Procedure.yields_bind.mp hread
  obtain rfl := Procedure.yields_modify.mp hseek
  obtain ⟨-, hrecord⟩ := (ReadableBuffer.reads_record U.lossy checks).sound _ _ _ hread
  have hbytes : BytesAt (b.append (txt domain data ttl).encoder).buffer b.pos
      ((txt domain data ttl).encoder b.pos b.labelLookup).1 := by
    have hself := (BytesAt.self (b.append (txt domain data ttl).encoder).buffer).right
    rwa [Nat.zero_add, ← show b.pos = b.buffer.length from hb] at hself
  obtain ⟨domain', ttl', hrec⟩ := recordAt_txt U.lossy checks hdomain hsize hbytes hrecord
  obtain ⟨c, hc⟩ := Lossy.exists_fromUtf8Lossy_cons data.utf8ByteSize.toUInt8 data
  rw [heq, txt.injEq] at hrec
  have htext : data = String.ofList (c :: data.toList) := hrec.2.1.trans hc
  -- a text is not one character longer than itself
  have hlength := congrArg (List.length ∘ String.toList) htext
  simp at hlength

/-- The name `"a.b"`, and no text at all. -/
theorem not_readsBack_txt_empty :
    ValidName "a.b" ∧ ("" : String).utf8ByteSize ≤ 255 ∧ ({} : VectorPacketBuffer).AtEnd ∧
    ∃ n t, (txt "a.b" "" 60).write.Yields ({} : VectorPacketBuffer) n t ∧
      ∀ rec t', (seek ({} : VectorPacketBuffer).pos >>= fun _ =>
          DnsRecord.read Unicode.ascii.lossy true).Yields t rec t' → rec ≠ txt "a.b" "" 60 := by
  have hdomain : ValidName "a.b" := by decide +kernel
  have hsize : ("" : String).utf8ByteSize ≤ 255 := by decide
  exact ⟨hdomain, hsize, DnsPacket.atEnd_empty,
    not_readsBack_txt Unicode.ascii true 60 hdomain hsize DnsPacket.atEnd_empty⟩

/-- A text of two letters comes back with a control character in front. -/
theorem read_write_txt_hi :
    ValidName "a" ∧ ("hi" : String).utf8ByteSize ≤ 255 ∧
    ∃ n t, (txt "a" "hi" 60).write.Yields ({} : VectorPacketBuffer) n t ∧
      (∃ t', (seek 0 >>= fun _ => DnsRecord.read Unicode.ascii.lossy true).Yields t
        (txt "a" "\x02hi" 60) t') ∧
      ∀ t', ¬ (seek 0 >>= fun _ => DnsRecord.read Unicode.ascii.lossy true).Yields t
        (txt "a" "hi" 60) t' := by
  have hdomain : ValidName "a" := by decide +kernel
  have hsize : ("hi" : String).utf8ByteSize ≤ 255 := by decide
  have hlaysOut : (txt "a" "hi" 60).encoder.LaysOut _ :=
    laysOut_txt Unicode.ascii.lossy true hdomain.legible (by decide)
  have hlays := (hlaysOut.below (VectorPacketBuffer.sound_none _) (BytesAt.self _)
    (by decide +kernel)).1
  have htext : Unicode.ascii.lossy.fromUtf8Lossy
      (("hi" : String).utf8ByteSize.toUInt8 :: utf8 "hi") = "\x02hi" := by
    decide +kernel
  rw [htext, Unicode.asRead, Unicode.name_nameBytes _ hdomain] at hlays
  obtain ⟨t', hread, -⟩ := (ReadableBuffer.reads_record Unicode.ascii.lossy true).complete
    { VectorPacketBuffer.append {} (txt "a" "hi" 60).encoder with pos := 0 } _ _ hlays
  have hseek : (seek 0 >>= fun _ => DnsRecord.read Unicode.ascii.lossy true).Yields
      (VectorPacketBuffer.append {} (txt "a" "hi" 60).encoder) _ t' :=
    Procedure.yields_bind.mpr ⟨(), _, Procedure.yields_modify.mpr rfl, hread⟩
  refine ⟨hdomain, hsize, _, _, (txt "a" "hi" 60).yields_write DnsPacket.atEnd_empty,
    ⟨t', hseek⟩, fun t'' hback => ?_⟩
  exact absurd (hback.unique hseek).1 (by decide)

end DnsRecord
