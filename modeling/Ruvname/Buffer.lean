/-
# Packet buffers

`dns/buffer.rs`: what the DNS codec reads from and writes to.  There are three kinds of buffer:
a vector that grows as it is written, a stream that is read as far as it is asked for, and the
512 bytes of a datagram.  Names are read and written by the common methods, with compression:
a name, or what is left of it, that has been written before is a pointer to where it was.
-/
import Ruvname.Procedure

open Exec

/-- `BufferError`; which I/O error it was is not kept. -/
inductive BufferError where
  | io
  | endOfBuffer
  deriving DecidableEq, Repr

/-- A method of a buffer. -/
abbrev BufferM (β α : Type) := Procedure β BufferError α

/-- The functions of the standard library on Unicode text that the codec uses, as far as it
relies on them: a valid encoding is decoded to its text, and ASCII text is put into lower case
letter by letter. -/
structure Unicode where
  /-- `String::from_utf8_lossy`. -/
  fromUtf8Lossy : List UInt8 → String
  /-- `str::to_lowercase`. -/
  toLowercase : String → String
  fromUtf8Lossy_toUTF8 : ∀ s : String, fromUtf8Lossy s.toUTF8.data.toList = s
  toLowercase_ascii : ∀ s : String, (∀ c ∈ s.toList, c.toNat < 128) →
    toLowercase s = String.ofList (s.toList.map Char.toLower)

/-- The functions as they are on valid encodings of ASCII text. -/
def Unicode.ascii : Unicode where
  fromUtf8Lossy bytes := (String.fromUTF8? ⟨bytes.toArray⟩).getD "\uFFFD"
  toLowercase s := String.ofList (s.toList.map Char.toLower)
  fromUtf8Lossy_toUTF8 s := by
    rw [Array.toArray_toList]
    show (String.fromUTF8? s.toUTF8).getD _ = s
    unfold String.fromUTF8?
    rw [String.toUTF8_eq_toByteArray, dif_pos s.isValidUTF8]
    rfl
  toLowercase_ascii _ _ := rfl

/-- The trait `PacketBuffer`: what each kind of buffer has of its own. -/
class PacketBuffer (β : Type) where
  read : BufferM β UInt8
  get (pos : ℕ) : BufferM β UInt8
  getRange (start len : ℕ) : BufferM β (List UInt8)
  write (val : UInt8) : BufferM β Unit
  set (pos : ℕ) (val : UInt8) : BufferM β Unit
  pos (buffer : β) : ℕ
  seek (pos : ℕ) : BufferM β Unit
  step (steps : ℕ) : BufferM β Unit
  findLabel (buffer : β) (label : String) : Option ℕ
  saveLabel (label : String) (pos : ℕ) : BufferM β Unit

/-! ## The common methods -/

/-- `qname.split('.')`. -/
def splitDots (qname : String) : List String := (qname.toList.splitOn '.').map String.ofList

namespace PacketBuffer

variable {β : Type} [PacketBuffer β]

/-- `self.pos()`, within a method. -/
def getPos : BufferM β ℕ := Procedure.gets pos

/-- `write_u8`. -/
def writeU8 (val : UInt8) : BufferM β Unit := write val

/-- `set_u16`. -/
def setU16 (pos : ℕ) (val : UInt16) : BufferM β Unit := do
  set pos (val >>> 8).toUInt8
  set (pos + 1) (val &&& 0xff).toUInt8

/-- `write_u16`. -/
def writeU16 (val : UInt16) : BufferM β Unit := do
  write (val >>> 8).toUInt8
  write (val &&& 0xff).toUInt8

/-- `write_u32`. -/
def writeU32 (val : UInt32) : BufferM β Unit := do
  write ((val >>> 24) &&& 0xff).toUInt8
  write ((val >>> 16) &&& 0xff).toUInt8
  write ((val >>> 8) &&& 0xff).toUInt8
  write (val &&& 0xff).toUInt8

/-- A loop of `write_u8` over bytes. -/
def writeBytes : List UInt8 → BufferM β Unit
  | [] => pure ()
  | x :: xs => do
    writeU8 x
    writeBytes xs

/-- The loop of `write_qname` over the labels that are left.  With a pointer in place of the
rest, the name has no empty label at its end. -/
def writeLabels : List String → BufferM β Unit
  | [] => writeU8 0
  | label :: rest => do
    let searchLbl := ".".intercalate (label :: rest)
    match ← Procedure.gets (findLabel · searchLbl) with
    | some prevPos => writeU16 (prevPos.toUInt16 ||| 0xc000)
    | none => do
      saveLabel searchLbl (← getPos)
      writeU8 label.utf8ByteSize.toUInt8
      writeBytes label.toUTF8.data.toList
      writeLabels rest

/-- `write_qname`. -/
def writeQname (qname : String) : BufferM β Unit := writeLabels (splitDots qname)

/-- `read_u16`. -/
def readU16 : BufferM β UInt16 := do
  let x ← read
  let y ← read
  pure ((x.toUInt16 <<< 8) ||| y.toUInt16)

/-- `read_u32`. -/
def readU32 : BufferM β UInt32 := do
  let x ← read
  let y ← read
  let z ← read
  let w ← read
  pure ((x.toUInt32 <<< 24) ||| (y.toUInt32 <<< 16) ||| (z.toUInt32 <<< 8) ||| w.toUInt32)

/-- The variables of the loop of `read_qname`. -/
structure NameCursor where
  pos : ℕ
  jumped : Bool
  delim : String
  outstr : String

/-- A length with one of its two highest bits set is the first byte of a pointer. -/
def isPointer (len : UInt8) : Prop := len &&& 0xc0 > 0

instance (len : UInt8) : Decidable (isPointer len) := inferInstanceAs (Decidable (_ > _))

/-- Where a pointer points. -/
def pointerOffset (len b2 : UInt8) : ℕ := (((len.toUInt16 ^^^ 0xc0) <<< 8) ||| b2.toUInt16).toNat

/-- `if !jumped { self.seek(pos)? }`. -/
def seekUnless (jumped : Bool) (pos : ℕ) : BufferM β Unit := if !jumped then seek pos else pure ()

/-- One round of the loop of `read_qname`. -/
def readLabel (U : Unicode) (c : NameCursor) : BufferM β (NameCursor ⊕ NameCursor) := do
  let len ← get c.pos
  if isPointer len then
    -- only the first jump moves the position of the buffer
    seekUnless c.jumped (c.pos + 2)
    let b2 ← get (c.pos + 1)
    pure (.inl { c with pos := pointerOffset len b2, jumped := true })
  else if len = 0 then
    pure (.inr { c with pos := c.pos + 1 })
  else
    let strBuffer ← getRange (c.pos + 1) len.toNat
    pure (.inl { c with
      pos := c.pos + 1 + len.toNat
      delim := "."
      outstr := c.outstr ++ c.delim ++ U.toLowercase (U.fromUtf8Lossy strBuffer) })

/-- `read_qname`: what is read is appended to `outstr`. -/
def readQname (U : Unicode) (outstr : String) : BufferM β String := do
  let start ← getPos
  let c ← Procedure.loop (readLabel U) ⟨start, false, "", outstr⟩
  seekUnless c.jumped c.pos
  pure c.outstr

end PacketBuffer

/-! ## The vector -/

/-- `VectorPacketBuffer`. -/
structure VectorPacketBuffer where
  buffer : List UInt8 := []
  pos : ℕ := 0
  labelLookup : String → Option ℕ := fun _ => none

/-- `xs[i]`. -/
def indexByte (xs : List UInt8) (i : ℕ) : Exec UInt8 :=
  match xs[i]? with
  | some x => .ok x
  | none => .error .outOfRange

/-- `&xs[start..start + len]`. -/
def sliceBytes (xs : List UInt8) (start len : ℕ) : Exec (List UInt8) :=
  if start + len ≤ xs.length then .ok ((xs.drop start).take len) else .error .outOfRange

instance : PacketBuffer VectorPacketBuffer where
  read := .act fun b => do
    let res ← indexByte b.buffer b.pos
    .ok (.ok (res, { b with pos := b.pos + 1 }))
  get pos := .act fun b => do
    let res ← indexByte b.buffer pos
    .ok (.ok (res, b))
  getRange start len := .act fun b => do
    let res ← sliceBytes b.buffer start len
    .ok (.ok (res, b))
  write val := .modify fun b => { b with buffer := b.buffer ++ [val], pos := b.pos + 1 }
  set pos val := .act fun b =>
    if pos < b.buffer.length then .ok (.ok ((), { b with buffer := b.buffer.set pos val }))
    else .error .outOfRange
  pos b := b.pos
  seek pos := .modify fun b => { b with pos := pos }
  step steps := .modify fun b => { b with pos := b.pos + steps }
  findLabel b label := b.labelLookup label
  saveLabel label pos := .modify fun b =>
    { b with labelLookup := Function.update b.labelLookup label (some pos) }

/-! ## The stream -/

/-- `StreamPacketBuffer`: the bytes the stream has still to deliver before it ends or fails, and
those that have been read. -/
structure StreamPacketBuffer where
  stream : List UInt8
  buffer : List UInt8 := []
  pos : ℕ := 0
  deriving DecidableEq, Repr

/-- `while n > self.buffer.len()`: another byte is read from the stream. -/
def pull (n : ℕ) : List UInt8 → List UInt8 → Except BufferError (List UInt8 × List UInt8)
  | [], buffer => if n ≤ buffer.length then .ok ([], buffer) else .error .io
  | x :: stream, buffer =>
    if n ≤ buffer.length then .ok (x :: stream, buffer) else pull n stream (buffer ++ [x])

/-- The loop that each reading method starts with. -/
def StreamPacketBuffer.fill (n : ℕ) : BufferM StreamPacketBuffer Unit := .act fun b =>
  match pull n b.stream b.buffer with
  | .ok (stream, buffer) => .ok (.ok ((), { b with stream := stream, buffer := buffer }))
  | .error e => .ok (.error e)

/-- `unimplemented!()`. -/
def unimplemented {β α : Type} : BufferM β α := .exec (.error (.panic "not implemented"))

instance : PacketBuffer StreamPacketBuffer where
  read := do
    let pos ← Procedure.gets StreamPacketBuffer.pos
    StreamPacketBuffer.fill (pos + 1)
    .act fun b => do
      let res ← indexByte b.buffer b.pos
      .ok (.ok (res, { b with pos := b.pos + 1 }))
  get pos := do
    StreamPacketBuffer.fill (pos + 1)
    .act fun b => do
      let res ← indexByte b.buffer pos
      .ok (.ok (res, b))
  getRange start len := do
    StreamPacketBuffer.fill (start + len)
    .act fun b => do
      let res ← sliceBytes b.buffer start len
      .ok (.ok (res, b))
  write _ := unimplemented
  set _ _ := unimplemented
  pos b := b.pos
  seek pos := .modify fun b => { b with pos := pos }
  step steps := .modify fun b => { b with pos := b.pos + steps }
  findLabel _ _ := none
  saveLabel _ _ := unimplemented

/-! ## The datagram -/

/-- `BytePacketBuffer`. -/
structure BytePacketBuffer where
  buf : Vector UInt8 512
  pos : ℕ := 0
  deriving DecidableEq, Repr

instance : PacketBuffer BytePacketBuffer where
  read := .act fun b =>
    if h : b.pos < 512 then .ok (.ok (b.buf[b.pos], { b with pos := b.pos + 1 }))
    else .ok (.error .endOfBuffer)
  get pos := .act fun b =>
    if h : pos < 512 then .ok (.ok (b.buf[pos], b)) else .ok (.error .endOfBuffer)
  getRange start len := .act fun b =>
    -- a range that ends with the last byte is refused as well
    if start + len ≥ 512 then .ok (.error .endOfBuffer) else do
      let res ← sliceBytes b.buf.toList start len
      .ok (.ok (res, b))
  write val := .act fun b =>
    if h : b.pos < 512 then .ok (.ok ((), { buf := b.buf.set b.pos val, pos := b.pos + 1 }))
    else .ok (.error .endOfBuffer)
  set pos val := .act fun b =>
    if h : pos < 512 then .ok (.ok ((), { b with buf := b.buf.set pos val }))
    else .error .outOfRange
  pos b := b.pos
  seek pos := .modify fun b => { b with pos := pos }
  step steps := .modify fun b => { b with pos := b.pos + steps }
  findLabel _ _ := none
  saveLabel _ _ := pure ()
