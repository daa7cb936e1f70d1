/-
# What the encoder writes

On a vector that is written at its end, every writing method appends bytes and extends the table of
labels.  Which bytes these are is a function of where they go and of the table (`Encoder`).  The
methods of the packet types that write are shown to append what their encoders say
(`Encodes`); the length before the data of a record, which is patched in afterwards, is then just
in its place.
-/
import Ruvname.Layout

open PacketBuffer

/-! ## Encoders -/

/-- The table of the labels that have been written, with their positions. -/
abbrev Labels := String → Option ℕ

/-- The bytes to write at a position, given the table of labels, and the table afterwards. -/
def Encoder := ℕ → Labels → List UInt8 × Labels

namespace Encoder

/-- Bytes that do not depend on anything. -/
def emit (bytes : List UInt8) : Encoder := fun _ table => (bytes, table)

/-- One after the other. -/
def andThen (e f : Encoder) : Encoder := fun pos table =>
  ((e pos table).1 ++ (f (pos + (e pos table).1.length) (e pos table).2).1,
    (f (pos + (e pos table).1.length) (e pos table).2).2)

/-- Bytes in a row are written like their concatenation. -/
theorem emit_andThen (xs ys : List UInt8) (e : Encoder) (pos : ℕ) (table : Labels) :
    (emit xs).andThen ((emit ys).andThen e) pos table = (emit (xs ++ ys)).andThen e pos table := by
  simp only [andThen, emit, List.length_append, Nat.add_assoc, List.append_assoc]

/-- All of a list, one after the other. -/
def all {α : Type} (f : α → Encoder) : List α → Encoder
  | [] => emit []
  | a :: as => (f a).andThen (all f as)

/-- The two bytes of a `u16`. -/
def bytesU16 (v : UInt16) : List UInt8 := [(v >>> 8).toUInt8, (v &&& 0xff).toUInt8]

/-- The four bytes of a `u32`. -/
def bytesU32 (v : UInt32) : List UInt8 :=
  [((v >>> 24) &&& 0xff).toUInt8, ((v >>> 16) &&& 0xff).toUInt8, ((v >>> 8) &&& 0xff).toUInt8,
    (v &&& 0xff).toUInt8]

def u16 (v : UInt16) : Encoder := emit (bytesU16 v)

def u32 (v : UInt32) : Encoder := emit (bytesU32 v)

/-- The length of what follows, and what follows. -/
def sized (e : Encoder) : Encoder := fun pos table =>
  (bytesU16 (e (pos + 2) table).1.length.toUInt16 ++ (e (pos + 2) table).1, (e (pos + 2) table).2)

/-- The bytes of a label behind their number. -/
def bytesLabel (label : String) : List UInt8 :=
  label.utf8ByteSize.toUInt8 :: label.toUTF8.data.toList

/-- The labels of a name that are left: a pointer if they have been written before. -/
def labels : List String → Encoder
  | [] => emit [0]
  | label :: rest => fun pos table =>
    let searchLbl := ".".intercalate (label :: rest)
    match table searchLbl with
    | some prevPos => u16 (prevPos.toUInt16 ||| 0xc000) pos table
    | none => (emit (bytesLabel label)).andThen (labels rest) pos
        (Function.update table searchLbl (some pos))

/-- A suffix with a known position becomes a pointer. -/
theorem labels_of_some {label : String} {rest : List String} {pos prevPos : ℕ} {table : Labels}
    (h : table (".".intercalate (label :: rest)) = some prevPos) :
    labels (label :: rest) pos table = u16 (prevPos.toUInt16 ||| 0xc000) pos table := by
  simp only [labels, h]

/-- One without becomes its first label, and its position is noted. -/
theorem labels_of_none {label : String} {rest : List String} {pos : ℕ} {table : Labels}
    (h : table (".".intercalate (label :: rest)) = none) :
    labels (label :: rest) pos table = (emit (bytesLabel label)).andThen (labels rest) pos
      (Function.update table (".".intercalate (label :: rest)) (some pos)) := by
  simp only [labels, h]

/-- A name. -/
def qname (name : String) : Encoder := labels (splitDots name)

end Encoder

/-! ## Writing to a vector -/

/-- The vector with more at its end. -/
def VectorPacketBuffer.append (b : VectorPacketBuffer) (e : Encoder) : VectorPacketBuffer where
  buffer := b.buffer ++ (e b.pos b.labelLookup).1
  pos := b.pos + (e b.pos b.labelLookup).1.length
  labelLookup := (e b.pos b.labelLookup).2

/-- The vector is written at its end. -/
def VectorPacketBuffer.AtEnd (b : VectorPacketBuffer) : Prop := b.pos = b.buffer.length

/-- After an encoder the buffer is at its end again. -/
theorem VectorPacketBuffer.AtEnd.append {b : VectorPacketBuffer} (h : b.AtEnd) (e : Encoder) :
    (b.append e).AtEnd := by
  show b.pos + _ = (b.buffer ++ _).length
  rw [List.length_append, show b.pos = b.buffer.length from h]

/-- An encoder after another. -/
theorem VectorPacketBuffer.append_andThen (b : VectorPacketBuffer) (e f : Encoder) :
    b.append (e.andThen f) = (b.append e).append f := by
  simp only [VectorPacketBuffer.append, Encoder.andThen, List.append_assoc, List.length_append,
    Nat.add_assoc]

/-- Only what an encoder does at this position and with these suffixes matters. -/
theorem VectorPacketBuffer.append_congr {b : VectorPacketBuffer} {e f : Encoder}
    (h : e b.pos b.labelLookup = f b.pos b.labelLookup) : b.append e = b.append f := by
  simp only [append, h]

/-- The method appends what the encoder says. -/
def Encodes (m : BufferM VectorPacketBuffer Unit) (e : Encoder) : Prop :=
  ∀ b : VectorPacketBuffer, b.AtEnd → m.Yields b () (b.append e)

namespace Encodes

variable {m m' : BufferM VectorPacketBuffer Unit} {e f : Encoder}

/-- One method after another, one encoder after another. -/
theorem andThen (hm : Encodes m e) (hm' : Encodes m' f) :
    Encodes (m >>= fun _ => m') (e.andThen f) := by
  intro b hb
  rw [VectorPacketBuffer.append_andThen]
  exact Procedure.yields_bind.mpr ⟨(), _, hm b hb, hm' _ (hb.append e)⟩

/-- A method that does nothing. -/
theorem nothing : Encodes (pure ()) (.emit []) := by
  intro b _
  refine Procedure.yields_pure.mpr ⟨rfl, ?_⟩
  simp [VectorPacketBuffer.append, Encoder.emit]

/-- One byte. -/
theorem write (x : UInt8) : Encodes (PacketBuffer.write x) (.emit [x]) :=
  fun _ _ => Procedure.yields_modify.mpr rfl

/-- Two encoders that say the same. -/
theorem congr (hm : Encodes m e) (h : ∀ pos table, e pos table = f pos table) : Encodes m f :=
  (funext fun pos => funext (h pos) : e = f) ▸ hm

theorem writeU16 (v : UInt16) : Encodes (PacketBuffer.writeU16 v) (.u16 v) :=
  (write _).andThen (write _)

theorem writeU32 (v : UInt32) : Encodes (PacketBuffer.writeU32 v) (.u32 v) :=
  (write _).andThen ((write _).andThen ((write _).andThen (write _)))

/-- A range of bytes. -/
theorem writeBytes (xs : List UInt8) : Encodes (PacketBuffer.writeBytes xs) (.emit xs) := by
  induction xs with
  | nil => exact nothing
  | cons x xs ih => exact (write x).andThen ih

/-- A loop over items. -/
theorem forM {α : Type} {g : α → BufferM VectorPacketBuffer Unit} {F : α → Encoder}
    (h : ∀ a, Encodes (g a) (F a)) (as : List α) : Encodes (as.forM g) (.all F as) := by
  induction as with
  | nil => exact nothing
  | cons a as ih => exact (h a).andThen ih

/-- The loop of `write_qname`. -/
theorem writeLabels (labels : List String) :
    Encodes (PacketBuffer.writeLabels labels) (.labels labels) := by
  induction labels with
  | nil => exact write 0
  | cons label rest ih =>
    intro b hb
    refine Procedure.yields_bind.mpr ⟨_, b, Procedure.yields_gets.mpr ⟨rfl, rfl⟩, ?_⟩
    cases htable : b.labelLookup (".".intercalate (label :: rest)) with
    | some prevPos =>
      rw [show findLabel b (".".intercalate (label :: rest)) = some prevPos from htable,
        VectorPacketBuffer.append_congr (Encoder.labels_of_some htable)]
      exact writeU16 _ b hb
    | none =>
      rw [show findLabel b (".".intercalate (label :: rest)) = none from htable]
      refine Procedure.yields_bind.mpr ⟨_, b, Procedure.yields_gets.mpr ⟨rfl, rfl⟩, ?_⟩
      refine Procedure.yields_bind.mpr ⟨(), _, Procedure.yields_modify.mpr rfl, ?_⟩
      have hrest := ((write label.utf8ByteSize.toUInt8).andThen
        ((writeBytes label.toUTF8.data.toList).andThen ih)).congr (Encoder.emit_andThen _ _ _)
      have hfinal := hrest ⟨b.buffer, b.pos, Function.update b.labelLookup
        (".".intercalate (label :: rest)) (some b.pos)⟩ hb
      rw [VectorPacketBuffer.append, Encoder.labels_of_none htable]
      exact hfinal

/-- `write_qname` writes the labels of the name. -/
theorem writeQname (name : String) : Encodes (PacketBuffer.writeQname name) (.qname name) :=
  writeLabels _

/-- Two bytes inside the vector are replaced. -/
theorem yields_setU16 {b : VectorPacketBuffer} {front back : List UInt8} {x y : UInt8} (v : UInt16)
    (h : b.buffer = front ++ x :: y :: back) :
    (setU16 front.length v : BufferM VectorPacketBuffer Unit).Yields b ()
      { b with buffer := front ++ (Encoder.bytesU16 v ++ back) } := by
  have hfirst : b.buffer.set front.length (v >>> 8).toUInt8
      = front ++ (v >>> 8).toUInt8 :: y :: back := by
    rw [h, List.set_append_right _ _ le_rfl, Nat.sub_self]
    rfl
  refine Procedure.yields_bind.mpr
    ⟨(), { b with buffer := front ++ (v >>> 8).toUInt8 :: y :: back }, ?_, ?_⟩
  · refine Procedure.yields_act.mpr ?_
    rw [if_pos (by rw [h]; simp), hfirst]
  · refine Procedure.yields_act.mpr ?_
    rw [if_pos (by simp), List.set_append_right _ _ (by omega), Nat.add_sub_cancel_left]
    rfl

/-- The length that is patched in is in its place. -/
theorem writeSized (hm : Encodes m e) : Encodes (DnsRecord.writeSized m) e.sized := by
  intro b hb
  refine Procedure.yields_bind.mpr ⟨_, b, Procedure.yields_gets.mpr ⟨rfl, rfl⟩, ?_⟩
  refine Procedure.yields_bind.mpr ⟨(), _, writeU16 0 b hb, ?_⟩
  refine Procedure.yields_bind.mpr ⟨(), _, hm _ (hb.append _), ?_⟩
  refine Procedure.yields_bind.mpr ⟨_, _, Procedure.yields_gets.mpr ⟨rfl, rfl⟩, ?_⟩
  have hbuffer : ((b.append (.u16 0)).append e).buffer
      = b.buffer ++ 0 :: 0 :: (e (b.pos + 2) b.labelLookup).1 := by
    simp [VectorPacketBuffer.append, Encoder.u16, Encoder.emit, Encoder.bytesU16]
  have hsize : pos ((b.append (.u16 0)).append e) - (pos b + 2)
      = (e (b.pos + 2) b.labelLookup).1.length := by
    show b.pos + 2 + (e (b.pos + 2) b.labelLookup).1.length - (b.pos + 2) = _
    omega
  rw [hsize]
  have hset := yields_setU16 (e (b.pos + 2) b.labelLookup).1.length.toUInt16 hbuffer
  rw [← show b.pos = b.buffer.length from hb] at hset
  refine (congrArg (Procedure.Yields _ _ ()) ?_).mp hset
  simp [VectorPacketBuffer.append, Encoder.sized, Encoder.u16, Encoder.emit, Encoder.bytesU16,
    Nat.add_assoc]
  exact Nat.add_comm _ _

end Encodes

/-! ## The packet types -/

section

open Encoder

/-- A header. -/
def DnsHeader.encoder (header : DnsHeader) : Encoder :=
  (u16 header.id).andThen <| (emit [header.flagsA]).andThen <| (emit [header.flagsB]).andThen <|
    (u16 header.questions).andThen <| (u16 header.answers).andThen <|
    (u16 header.authoritativeEntries).andThen (u16 header.resourceEntries)

/-- A question. -/
def DnsQuestion.encoder (question : DnsQuestion) : Encoder :=
  (qname question.name).andThen <| (u16 question.qtype.toNum).andThen (u16 1)

namespace DnsRecord

/-- The first four fields of a record. -/
def headEncoder (domain : String) (qtype : QueryType) (ttl : UInt32) : Encoder :=
  (qname domain).andThen <| (u16 qtype.toNum).andThen <| (u16 1).andThen (u32 ttl)

/-- A record. -/
def encoder : DnsRecord → Encoder
  | a domain addr ttl =>
    (headEncoder domain .a ttl).andThen <| (u16 4).andThen (emit addr.octets.toList)
  | aaaa domain addr ttl =>
    (headEncoder domain .aaaa ttl).andThen <| (u16 16).andThen (all u16 addr.segments.toList)
  | ns domain host ttl => (headEncoder domain .ns ttl).andThen (qname host).sized
  | cname domain host ttl => (headEncoder domain .cname ttl).andThen (qname host).sized
  | srv domain priority weight port host ttl =>
    (headEncoder domain .srv ttl).andThen <| sized <|
      (u16 priority).andThen <| (u16 weight).andThen <| (u16 port).andThen (qname host)
  | ptr domain data ttl => (headEncoder domain .ptr ttl).andThen (qname data).sized
  | mx domain priority host ttl =>
    (headEncoder domain .mx ttl).andThen <| sized <| (u16 priority).andThen (qname host)
  | soa domain mName rName serial refresh retry expire minimum ttl =>
    (headEncoder domain .soa ttl).andThen <| sized <|
      (qname mName).andThen <| (qname rName).andThen <| (u32 serial).andThen <|
      (u32 refresh).andThen <| (u32 retry).andThen <| (u32 expire).andThen (u32 minimum)
  | txt domain data ttl =>
    (headEncoder domain .txt ttl).andThen <| (u16 (data.utf8ByteSize + 1).toUInt16).andThen <|
      (emit [data.utf8ByteSize.toUInt8]).andThen (emit data.toUTF8.data.toList)
  | tlsa domain certificateUsage selector matchingType data ttl =>
    (headEncoder domain .tlsa ttl).andThen <| (u16 (data.length + 3).toUInt16).andThen <|
      (emit [certificateUsage]).andThen <| (emit [selector]).andThen <|
      (emit [matchingType]).andThen (emit data)
  | opt packetLen flags data =>
    (emit [0]).andThen <| (u16 QueryType.opt.toNum).andThen <| (u16 packetLen).andThen <|
      (u32 flags).andThen <| (u16 data.utf8ByteSize.toUInt16).andThen
      (emit data.toUTF8.data.toList)
  | unknown _ _ _ _ => emit []

end DnsRecord

end

namespace Encodes

/-- `DnsHeader::write`. -/
theorem header (header : DnsHeader) : Encodes header.write header.encoder :=
  (writeU16 _).andThen <| (write _).andThen <| (write _).andThen <| (writeU16 _).andThen <|
    (writeU16 _).andThen <| (writeU16 _).andThen (writeU16 _)

/-- `DnsQuestion::write`. -/
theorem question (question : DnsQuestion) : Encodes question.write question.encoder :=
  (writeQname _).andThen <| (writeU16 _).andThen (writeU16 _)

/-- The first four fields of a record. -/
theorem head (domain : String) (qtype : QueryType) (ttl : UInt32) :
    Encodes (DnsRecord.writeHead domain qtype ttl) (DnsRecord.headEncoder domain qtype ttl) :=
  (writeQname _).andThen <| (writeU16 _).andThen <| (writeU16 _).andThen (writeU32 _)

/-- A record is written as its encoder says. -/
theorem fields (rec : DnsRecord) : Encodes rec.writeFields rec.encoder := by
  cases rec with
  | unknown => exact nothing
  | a => exact (head _ _ _).andThen <| (writeU16 _).andThen (writeBytes _)
  | ns => exact (head _ _ _).andThen (writeSized (writeQname _))
  | cname => exact (head _ _ _).andThen (writeSized (writeQname _))
  | soa =>
    exact (head _ _ _).andThen <| writeSized <| (writeQname _).andThen <|
      (writeQname _).andThen <| (writeU32 _).andThen <| (writeU32 _).andThen <|
      (writeU32 _).andThen <| (writeU32 _).andThen (writeU32 _)
  | ptr => exact (head _ _ _).andThen (writeSized (writeQname _))
  | mx => exact (head _ _ _).andThen <| writeSized <| (writeU16 _).andThen (writeQname _)
  | txt =>
    exact (head _ _ _).andThen <| (writeU16 _).andThen <| (write _).andThen (writeBytes _)
  | aaaa => exact (head _ _ _).andThen <| (writeU16 _).andThen (forM writeU16 _)
  | srv =>
    exact (head _ _ _).andThen <| writeSized <| (writeU16 _).andThen <| (writeU16 _).andThen <|
      (writeU16 _).andThen (writeQname _)
  | opt =>
    exact (write _).andThen <| (writeU16 _).andThen <| (writeU16 _).andThen <|
      (writeU32 _).andThen <| (writeU16 _).andThen (writeBytes _)
  | tlsa =>
    exact (head _ _ _).andThen <| (writeU16 _).andThen <| (write _).andThen <|
      (write _).andThen <| (write _).andThen (writeBytes _)

end Encodes

/-- How many bytes a record takes at the end of a vector. -/
def DnsRecord.sizeAt (rec : DnsRecord) (b : VectorPacketBuffer) : ℕ :=
  (rec.encoder b.pos b.labelLookup).1.length

/-- The number that `DnsRecord::write` returns is the number of bytes it has appended. -/
theorem DnsRecord.yields_write (rec : DnsRecord) {b : VectorPacketBuffer} (hb : b.AtEnd) :
    rec.write.Yields b (rec.sizeAt b) (b.append rec.encoder) := by
  refine Procedure.yields_bind.mpr ⟨_, b, Procedure.yields_gets.mpr ⟨rfl, rfl⟩, ?_⟩
  refine Procedure.yields_bind.mpr ⟨(), _, Encodes.fields rec b hb, ?_⟩
  refine Procedure.yields_bind.mpr ⟨_, _, Procedure.yields_gets.mpr ⟨rfl, rfl⟩, ?_⟩
  refine Procedure.yields_pure.mpr ⟨?_, rfl⟩
  show _ = b.pos + (rec.encoder b.pos b.labelLookup).1.length - b.pos
  rw [Nat.add_sub_cancel_left]
  rfl
