/-
# Reading and writing DNS packets

The methods `read` and `write` of `dns/protocol.rs`, over any kind of buffer: the header, a
question, a record, a packet.
-/
import Ruvname.Buffer
import Ruvname.Packet

open Exec PacketBuffer

variable {β : Type} [PacketBuffer β]

/-! ## Numbers -/

namespace QueryType

/-- `to_num`. -/
def toNum : QueryType → UInt16
  | unknown num => num
  | a => 1
  | ns => 2
  | cname => 5
  | soa => 6
  | ptr => 12
  | mx => 15
  | txt => 16
  | aaaa => 28
  | srv => 33
  | opt => 41
  | tlsa => 52

/-- `from_num`. -/
def fromNum (num : UInt16) : QueryType :=
  if num = 1 then a
  else if num = 2 then ns
  else if num = 5 then cname
  else if num = 6 then soa
  else if num = 12 then ptr
  else if num = 15 then mx
  else if num = 16 then txt
  else if num = 28 then aaaa
  else if num = 33 then srv
  else if num = 41 then opt
  else if num = 52 then tlsa
  else unknown num

end QueryType

namespace ResultCode

/-- `self as u8`. -/
def toNum : ResultCode → UInt8
  | noerror => 0
  | formerr => 1
  | servfail => 2
  | nxdomain => 3
  | notimp => 4
  | refused => 5

/-- `from_num`. -/
def fromNum (num : UInt8) : ResultCode :=
  if num = 1 then formerr
  else if num = 2 then servfail
  else if num = 3 then nxdomain
  else if num = 4 then notimp
  else if num = 5 then refused
  else noerror

end ResultCode

/-! ## The header -/

namespace DnsHeader

/-- The first byte of flags. -/
def flagsA (header : DnsHeader) : UInt8 :=
  header.recursionDesired.toUInt8
    ||| (header.truncatedMessage.toUInt8 <<< 1)
    ||| (header.authoritativeAnswer.toUInt8 <<< 2)
    ||| (header.opcode <<< 3)
    ||| (header.response.toUInt8 <<< 7)

/-- The second byte of flags. -/
def flagsB (header : DnsHeader) : UInt8 :=
  header.rescode.toNum
    ||| (header.checkingDisabled.toUInt8 <<< 4)
    ||| (header.authedData.toUInt8 <<< 5)
    ||| (header.z.toUInt8 <<< 6)
    ||| (header.recursionAvailable.toUInt8 <<< 7)

/-- `DnsHeader::write`. -/
def write (header : DnsHeader) : BufferM β Unit := do
  writeU16 header.id
  writeU8 header.flagsA
  writeU8 header.flagsB
  writeU16 header.questions
  writeU16 header.answers
  writeU16 header.authoritativeEntries
  writeU16 header.resourceEntries

/-- `binary_len`. -/
def binaryLen : ℕ := 12

/-- The header that six words stand for; the second holds the flags. -/
def ofWords (id flags questions answers authoritativeEntries resourceEntries : UInt16) :
    DnsHeader :=
  let a := (flags >>> 8).toUInt8
  let b := (flags &&& 0xff).toUInt8
  { id := id
    recursionDesired := a &&& 1 > 0
    truncatedMessage := a &&& 2 > 0
    authoritativeAnswer := a &&& 4 > 0
    opcode := (a >>> 3) &&& 0x0f
    response := a &&& 0x80 > 0
    rescode := .fromNum (b &&& 0x0f)
    checkingDisabled := b &&& 0x10 > 0
    authedData := b &&& 0x20 > 0
    z := b &&& 0x40 > 0
    recursionAvailable := b &&& 0x80 > 0
    questions := questions
    answers := answers
    authoritativeEntries := authoritativeEntries
    resourceEntries := resourceEntries }

/-- `DnsHeader::read`. -/
def read : BufferM β DnsHeader := do
  let id ← readU16
  let flags ← readU16
  let questions ← readU16
  let answers ← readU16
  let authoritativeEntries ← readU16
  let resourceEntries ← readU16
  pure (ofWords id flags questions answers authoritativeEntries resourceEntries)

end DnsHeader

/-! ## Questions -/

namespace DnsQuestion

/-- `binary_len`. -/
def binaryLen (question : DnsQuestion) : ℕ :=
  ((splitDots question.name).map fun x => x.utf8ByteSize + 1).foldl (· + ·) 1

/-- `DnsQuestion::write`. -/
def write (question : DnsQuestion) : BufferM β Unit := do
  writeQname question.name
  writeU16 question.qtype.toNum
  writeU16 1

/-- `DnsQuestion::read`. -/
def read (U : Unicode) : BufferM β DnsQuestion := do
  let name ← readQname U ""
  let qtype ← readU16
  let _class ← readU16
  pure ⟨name, .fromNum qtype⟩

end DnsQuestion

/-! ## Records -/

namespace DnsRecord

/-- The next `len` bytes. -/
def readRange (len : ℕ) : BufferM β (List UInt8) := do
  let curPos ← getPos
  let data ← getRange curPos len
  step len
  pure data

/-- `Ipv4Addr::new` of the bytes of a number. -/
def ipv4OfU32 (raw : UInt32) : Ipv4Addr :=
  ⟨#v[((raw >>> 24) &&& 0xff).toUInt8, ((raw >>> 16) &&& 0xff).toUInt8,
    ((raw >>> 8) &&& 0xff).toUInt8, (raw &&& 0xff).toUInt8]⟩

/-- The upper half of a number. -/
def upperHalf (raw : UInt32) : UInt16 := ((raw >>> 16) &&& 0xffff).toUInt16

/-- The lower half of a number. -/
def lowerHalf (raw : UInt32) : UInt16 := (raw &&& 0xffff).toUInt16

/-- `Ipv6Addr::new` of the halves of four numbers. -/
def ipv6OfU32 (raw₁ raw₂ raw₃ raw₄ : UInt32) : Ipv6Addr :=
  ⟨#v[upperHalf raw₁, lowerHalf raw₁, upperHalf raw₂, lowerHalf raw₂, upperHalf raw₃,
    lowerHalf raw₃, upperHalf raw₄, lowerHalf raw₄]⟩

/-- `DnsRecord::read` from the match on the query type on. -/
def readData (U : Unicode) (checks : Bool) (domain : String) (qtypeNum klass : UInt16)
    (ttl : UInt32) (dataLen : UInt16) : QueryType → BufferM β DnsRecord
  | .a => do
    let rawAddr ← readU32
    pure (a domain (ipv4OfU32 rawAddr) ttl)
  | .aaaa => do
    let rawAddr1 ← readU32
    let rawAddr2 ← readU32
    let rawAddr3 ← readU32
    let rawAddr4 ← readU32
    pure (aaaa domain (ipv6OfU32 rawAddr1 rawAddr2 rawAddr3 rawAddr4) ttl)
  | .ns => do
    let host ← readQname U ""
    pure (ns domain host ttl)
  | .cname => do
    let host ← readQname U ""
    pure (cname domain host ttl)
  | .srv => do
    let priority ← readU16
    let weight ← readU16
    let port ← readU16
    let host ← readQname U ""
    pure (srv domain priority weight port host ttl)
  | .ptr => do
    let data ← readQname U ""
    pure (ptr domain data ttl)
  | .mx => do
    let priority ← readU16
    let host ← readQname U ""
    pure (mx domain priority host ttl)
  | .soa => do
    let mName ← readQname U ""
    let rName ← readQname U ""
    let serial ← readU32
    let refresh ← readU32
    let retry ← readU32
    let expire ← readU32
    let minimum ← readU32
    pure (soa domain mName rName serial refresh retry expire minimum ttl)
  | .txt => do
    let data ← readRange dataLen.toNat
    pure (txt domain (U.fromUtf8Lossy data) ttl)
  | .opt => do
    let data ← readRange dataLen.toNat
    pure (opt klass ttl (U.fromUtf8Lossy data))
  | .tlsa => do
    let certificateUsage ← PacketBuffer.read
    let selector ← PacketBuffer.read
    let matchingType ← PacketBuffer.read
    let dataLen ← Procedure.exec (subU16 checks dataLen 3)
    let data ← readRange dataLen.toNat
    pure (tlsa domain certificateUsage selector matchingType data ttl)
  | .unknown _ => do
    step dataLen.toNat
    pure (unknown domain qtypeNum dataLen ttl)

/-- `DnsRecord::read`. -/
def read (U : Unicode) (checks : Bool) : BufferM β DnsRecord := do
  let domain ← readQname U ""
  let qtypeNum ← readU16
  let klass ← readU16
  let ttl ← readU32
  let dataLen ← readU16
  readData U checks domain qtypeNum klass ttl dataLen (.fromNum qtypeNum)

/-- The first four fields of a record of the Internet class. -/
def writeHead (domain : String) (qtype : QueryType) (ttl : UInt32) : BufferM β Unit := do
  writeQname domain
  writeU16 qtype.toNum
  writeU16 1
  writeU32 ttl

/-- Data behind its length, which is written when the data is. -/
def writeSized (data : BufferM β Unit) : BufferM β Unit := do
  let pos ← getPos
  writeU16 0
  data
  let size := (← getPos) - (pos + 2)
  setU16 pos size.toUInt16

/-- `DnsRecord::write` without the size at the end.  Nothing is written of a record of an unknown
type. -/
def writeFields : DnsRecord → BufferM β Unit
  | a domain addr ttl => do
    writeHead domain .a ttl
    writeU16 4
    writeBytes addr.octets.toList
  | aaaa domain addr ttl => do
    writeHead domain .aaaa ttl
    writeU16 16
    addr.segments.toList.forM writeU16
  | ns domain host ttl => do
    writeHead domain .ns ttl
    writeSized (writeQname host)
  | cname domain host ttl => do
    writeHead domain .cname ttl
    writeSized (writeQname host)
  | srv domain priority weight port host ttl => do
    writeHead domain .srv ttl
    writeSized do
      writeU16 priority
      writeU16 weight
      writeU16 port
      writeQname host
  | ptr domain data ttl => do
    writeHead domain .ptr ttl
    writeSized (writeQname data)
  | mx domain priority host ttl => do
    writeHead domain .mx ttl
    writeSized do
      writeU16 priority
      writeQname host
  | soa domain mName rName serial refresh retry expire minimum ttl => do
    writeHead domain .soa ttl
    writeSized do
      writeQname mName
      writeQname rName
      writeU32 serial
      writeU32 refresh
      writeU32 retry
      writeU32 expire
      writeU32 minimum
  | txt domain data ttl => do
    writeHead domain .txt ttl
    writeU16 (data.utf8ByteSize + 1).toUInt16
    writeU8 data.utf8ByteSize.toUInt8
    writeBytes data.toUTF8.data.toList
  | tlsa domain certificateUsage selector matchingType data ttl => do
    writeHead domain .tlsa ttl
    writeU16 (data.length + 3).toUInt16
    writeU8 certificateUsage
    writeU8 selector
    writeU8 matchingType
    writeBytes data
  | opt packetLen flags data => do
    writeU8 0
    writeU16 QueryType.opt.toNum
    writeU16 packetLen
    writeU32 flags
    writeU16 data.utf8ByteSize.toUInt16
    writeBytes data.toUTF8.data.toList
  | unknown _ _ _ _ => pure ()

/-- `DnsRecord::write`: the number of bytes written. -/
def write (rec : DnsRecord) : BufferM β ℕ := do
  let startPos ← getPos
  rec.writeFields
  pure ((← getPos) - startPos)

end DnsRecord

/-! ## Packets -/

namespace DnsPacket

/-- `DnsPacket::from_buffer`. -/
def fromBuffer (U : Unicode) (checks : Bool) : BufferM β DnsPacket := do
  let header ← DnsHeader.read
  let questions ← (DnsQuestion.read U).times header.questions.toNat
  let answers ← (DnsRecord.read U checks).times header.answers.toNat
  let authorities ← (DnsRecord.read U checks).times header.authoritativeEntries.toNat
  let resources ← (DnsRecord.read U checks).times header.resourceEntries.toNat
  pure ⟨header, questions, answers, authorities, resources⟩

/-- The section of record number `i` has one more entry. -/
def countEntry (checks : Bool) (packet : DnsPacket) (i : ℕ) (header : DnsHeader) :
    Exec DnsHeader :=
  if i < packet.answers.length then do
    let answers ← addU16 checks header.answers 1
    .ok { header with answers := answers }
  else if i < packet.answers.length + packet.authorities.length then do
    let authoritativeEntries ← addU16 checks header.authoritativeEntries 1
    .ok { header with authoritativeEntries := authoritativeEntries }
  else do
    let resourceEntries ← addU16 checks header.resourceEntries 1
    .ok { header with resourceEntries := resourceEntries }

/-- The loop of `DnsPacket::write` over the test buffer, from record number `i` on: the number of
records that fit, and the header. -/
def countRecords (checks : Bool) (packet : DnsPacket) (maxSize : ℕ) :
    ℕ → ℕ → DnsHeader → List DnsRecord → BufferM VectorPacketBuffer (ℕ × DnsHeader)
  | i, _, header, [] => pure (i, header)
  | i, size, header, rec :: records => do
    let size := size + (← rec.write)
    if size > maxSize then pure (i, { header with truncatedMessage := true })
    else do
      let header ← Procedure.exec (countEntry checks packet i header)
      countRecords checks packet maxSize (i + 1) size header records

/-- The part of `DnsPacket::write` that works on the test buffer. -/
def measure (checks : Bool) (packet : DnsPacket) (maxSize : ℕ) :
    BufferM VectorPacketBuffer (ℕ × DnsHeader) := do
  packet.questions.forM DnsQuestion.write
  let size := (packet.questions.map DnsQuestion.binaryLen).foldl (· + ·) DnsHeader.binaryLen
  countRecords checks packet maxSize 0 size packet.header packet.records

/-- The second loop of `DnsPacket::write`, with the sizes that are returned. -/
def writeRecords : List DnsRecord → BufferM β (List ℕ)
  | [] => pure []
  | rec :: records => do
    let size ← rec.write
    let sizes ← writeRecords records
    pure (size :: sizes)

/-- `DnsPacket::write`: the packet with the header as it is then, and the sizes of the records that
have been written, which the source drops. -/
def writeTraced (checks : Bool) (packet : DnsPacket) (maxSize : ℕ) :
    BufferM β (DnsPacket × List ℕ) := do
  let measured ← Procedure.on {} (packet.measure checks maxSize)
  let header := { measured.2 with questions := packet.questions.length.toUInt16 }
  header.write
  packet.questions.forM DnsQuestion.write
  let sizes ← writeRecords (packet.records.take measured.1)
  pure ({ packet with header := header }, sizes)

/-- `DnsPacket::write`. -/
def write (checks : Bool) (packet : DnsPacket) (maxSize : ℕ) : BufferM β DnsPacket := do
  let written ← packet.writeTraced checks maxSize
  pure written.1

end DnsPacket
