/-
# Zone files

`Zones::save` and `Zones::load` of `dns/authority.rs`.  A zone is kept in a file of its own, in the
encoding of DNS messages: names are compressed, across all records of the file.  The zones that have
been saved are loaded again, whatever the order in which the directory lists their files
(`Zones.load_save`).
-/
import Ruvname.Authority
import Ruvname.NameSequences
import Ruvname.RoundTrip

open PacketBuffer

/-! ## Sets and maps in order -/

/-- `BTreeSet::insert`: what is there already is kept. -/
def insertRecord (cmp : DnsRecord → DnsRecord → Ordering) (rec : DnsRecord) :
    List DnsRecord → List DnsRecord
  | [] => [rec]
  | first :: records =>
    match cmp rec first with
    | .lt => rec :: first :: records
    | .eq => first :: records
    | .gt => first :: insertRecord cmp rec records

/-- `BTreeMap::insert`: a zone of the same domain is replaced. -/
def insertZone (zone : Zone) : List Zone → List Zone
  | [] => [zone]
  | first :: zones =>
    if zone.domain < first.domain then zone :: first :: zones
    else if first.domain < zone.domain then first :: insertZone zone zones
    else zone :: zones

theorem mem_insertZone {zone z : Zone} {zones : List Zone} (h : z ∈ insertZone zone zones) :
    z = zone ∨ z ∈ zones := by
  induction zones with
  | nil => exact Or.inl (List.mem_singleton.mp h)
  | cons first zones ih =>
    rw [insertZone] at h
    split_ifs at h with hlt hgt
    · exact List.mem_cons.mp h
    · rcases List.mem_cons.mp h with rfl | h
      · exact Or.inr List.mem_cons_self
      · exact (ih h).imp_right (List.mem_cons_of_mem _)
    · exact (List.mem_cons.mp h).imp_right (List.mem_cons_of_mem _)

theorem sorted_insertZone (zone : Zone) {zones : List Zone}
    (h : (zones.map Zone.domain).Pairwise (· < ·)) :
    ((insertZone zone zones).map Zone.domain).Pairwise (· < ·) := by
  rw [List.pairwise_map] at h ⊢
  induction zones with
  | nil => exact List.pairwise_singleton _ _
  | cons first zones ih =>
    obtain ⟨hfirst, hrest⟩ := List.pairwise_cons.mp h
    rw [insertZone]
    split_ifs with hlt hgt
    · refine List.pairwise_cons.mpr ⟨fun z hz => ?_, h⟩
      rcases List.mem_cons.mp hz with rfl | hz
      · exact hlt
      · exact lt_trans hlt (hfirst z hz)
    · refine List.pairwise_cons.mpr ⟨fun z hz => ?_, ih hrest⟩
      rcases mem_insertZone hz with rfl | hz
      · exact hgt
      · exact hfirst z hz
    · have heq : zone.domain = first.domain := le_antisymm (not_lt.mp hgt) (not_lt.mp hlt)
      exact List.pairwise_cons.mpr ⟨fun z hz => heq ▸ hfirst z hz, hrest⟩

/-- A zone of a new domain is added to the others. -/
theorem insertZone_perm {zone : Zone} {zones : List Zone} (h : ∀ z ∈ zones, z.domain ≠ zone.domain) :
    (insertZone zone zones).Perm (zone :: zones) := by
  induction zones with
  | nil => exact List.Perm.refl _
  | cons first zones ih =>
    rw [insertZone]
    split_ifs with hlt hgt
    · exact List.Perm.refl _
    · exact ((ih fun z hz => h z (List.mem_cons_of_mem _ hz)).cons first).trans (List.Perm.swap _ _ _)
    · exact absurd (le_antisymm (not_lt.mp hlt) (not_lt.mp hgt)) (h first List.mem_cons_self)

/-- A record behind all others becomes the last. -/
theorem insertRecord_of_gt {cmp : DnsRecord → DnsRecord → Ordering} {rec : DnsRecord}
    {records : List DnsRecord} (h : ∀ r ∈ records, cmp rec r = .gt) :
    insertRecord cmp rec records = records ++ [rec] := by
  induction records with
  | nil => rfl
  | cons first records ih =>
    rw [insertRecord, h first List.mem_cons_self]
    exact congrArg (first :: ·) (ih fun r hr => h r (List.mem_cons_of_mem _ hr))

namespace Zone

/-- `add_record`.  The order is the one that is derived for records. -/
def addRecord (cmp : DnsRecord → DnsRecord → Ordering) (zone : Zone) (rec : DnsRecord) : Zone :=
  { zone with records := insertRecord cmp rec zone.records }

/-- Records that come in their order are all kept. -/
theorem foldl_addRecord {cmp : DnsRecord → DnsRecord → Ordering} {zone : Zone}
    {records : List DnsRecord}
    (h : (zone.records ++ records).Pairwise fun r r' => cmp r' r = .gt) :
    records.foldl (addRecord cmp) zone = { zone with records := zone.records ++ records } := by
  induction records generalizing zone with
  | nil =>
    rw [List.append_nil]
    rfl
  | cons rec records ih =>
    -- the next record is greater than all that have been added
    have hlast : ∀ r ∈ zone.records, cmp rec r = .gt := fun r hr =>
      (List.pairwise_append.mp h).2.2 r hr rec List.mem_cons_self
    rw [List.append_cons] at h
    have hadd : zone.addRecord cmp rec = { zone with records := zone.records ++ [rec] } := by
      unfold addRecord
      rw [insertRecord_of_gt hlast]
    rw [List.foldl_cons, hadd, ih h, List.append_assoc, List.singleton_append]

/-! ## The file of a zone -/

/-- What `save` writes of a zone.  A vector takes all that is written to it, so no error is ignored
there. -/
def write (zone : Zone) : BufferM VectorPacketBuffer Unit := do
  writeQname zone.domain
  writeQname zone.mName
  writeQname zone.rName
  writeU32 zone.serial
  writeU32 zone.refresh
  writeU32 zone.retry
  writeU32 zone.expire
  writeU32 zone.minimum
  writeU32 zone.records.length.toUInt32
  zone.records.forM fun rec => do
    let _ ← rec.write
    pure ()

/-- The bytes of the file. -/
def file (zone : Zone) : BufferM VectorPacketBuffer (List UInt8) := do
  zone.write
  let pos ← getPos
  getRange 0 pos

section

variable {β : Type} [PacketBuffer β]

/-- What `load` reads from a file. -/
def read (U : Unicode) (checks : Bool) (cmp : DnsRecord → DnsRecord → Ordering) : BufferM β Zone := do
  let domain ← readQname U ""
  let mName ← readQname U ""
  let rName ← readQname U ""
  let serial ← readU32
  let refresh ← readU32
  let retry ← readU32
  let expire ← readU32
  let minimum ← readU32
  let recordCount ← readU32
  let records ← (DnsRecord.read U checks).times recordCount.toNat
  pure (records.foldl (addRecord cmp)
    ⟨domain, mName, rName, serial, refresh, retry, expire, minimum, []⟩)

end

/-- What is written of a zone. -/
def encoder (zone : Zone) : Encoder :=
  (Encoder.qname zone.domain).andThen <| (Encoder.qname zone.mName).andThen <|
    (Encoder.qname zone.rName).andThen <| (Encoder.u32 zone.serial).andThen <|
    (Encoder.u32 zone.refresh).andThen <| (Encoder.u32 zone.retry).andThen <|
    (Encoder.u32 zone.expire).andThen <| (Encoder.u32 zone.minimum).andThen <|
    (Encoder.u32 zone.records.length.toUInt32).andThen (Encoder.all DnsRecord.encoder zone.records)

/-- All bytes of the file. -/
def bytes (zone : Zone) : List UInt8 := (zone.encoder 0 fun _ => none).1

theorem encodes_write (zone : Zone) : Encodes zone.write zone.encoder := by
  have hrecord : ∀ rec : DnsRecord, Encodes (rec.write >>= fun _ => pure ()) rec.encoder :=
    fun rec b hb => Procedure.yields_bind.mpr
      ⟨_, _, rec.yields_write hb, Procedure.yields_pure.mpr ⟨rfl, rfl⟩⟩
  exact (Encodes.writeQname _).andThen <| (Encodes.writeQname _).andThen <|
    (Encodes.writeQname _).andThen <| (Encodes.writeU32 _).andThen <|
    (Encodes.writeU32 _).andThen <| (Encodes.writeU32 _).andThen <| (Encodes.writeU32 _).andThen <|
    (Encodes.writeU32 _).andThen <| (Encodes.writeU32 _).andThen (Encodes.forM hrecord _)

/-- **A file can always be written.** -/
theorem yields_file (zone : Zone) : ∃ t, zone.file.Yields {} zone.bytes t := by
  refine ⟨VectorPacketBuffer.append {} zone.encoder,
    Procedure.yields_bind.mpr ⟨(), _, zone.encodes_write {} rfl, ?_⟩⟩
  refine Procedure.yields_bind.mpr ⟨_, _, Procedure.yields_gets.mpr ⟨rfl, rfl⟩, ?_⟩
  refine Procedure.yields_act.mpr (Exec.bind_eq_ok.mpr ⟨zone.bytes, ?_, rfl⟩)
  have hlength : 0 + (0 + zone.bytes.length) ≤ ([] ++ zone.bytes).length := by simp
  have hrange : (([] ++ zone.bytes).drop 0).take (0 + zone.bytes.length) = zone.bytes := by simp
  exact (if_pos hlength).trans (congrArg Except.ok hrange)

/-- A zone with its records in the order in which they stand in the file. -/
def At (U : Unicode) (checks : Bool) (slack : ℕ) (data : List UInt8) (p : ℕ) (zone : Zone) (q : ℕ) :
    Prop :=
  ∃ m r s count, TextAt U data p zone.domain m ∧ TextAt U data m zone.mName r ∧
    TextAt U data r zone.rName s ∧ U32At data s zone.serial ∧ U32At data (s + 4) zone.refresh ∧
    U32At data (s + 8) zone.retry ∧ U32At data (s + 12) zone.expire ∧
    U32At data (s + 16) zone.minimum ∧ U32At data (s + 20) count ∧
    zone.records.length = count.toNat ∧
    ManyAt (RecordAt U checks slack data) (s + 24) zone.records q

/-- A zone that comes back: its records are in their order, as those of a `BTreeSet` are. -/
structure Valid (cmp : DnsRecord → DnsRecord → Ordering) (zone : Zone) : Prop where
  domain : ValidName zone.domain
  mName : ValidName zone.mName
  rName : ValidName zone.rName
  records : ∀ rec ∈ zone.records, rec.Valid
  sorted : zone.records.Pairwise fun r r' => cmp r' r = .gt
  size_le : zone.bytes.length ≤ 0x4000

section

variable (U : Unicode) (checks : Bool) {cmp : DnsRecord → DnsRecord → Ordering} {zone : Zone}

/-- The records of a zone are written behind its fields. -/
theorem within_encoder (zone : Zone) :
    (Encoder.all DnsRecord.encoder zone.records).Within zone.encoder :=
  (((((((((Encoder.Within.snd _ _).trans (.snd _ _)).trans (.snd _ _)).trans (.snd _ _)).trans
    (.snd _ _)).trans (.snd _ _)).trans (.snd _ _)).trans (.snd _ _)).trans (.snd _ _))

theorem Valid.legible (h : zone.Valid cmp) (rec : DnsRecord) (hrec : rec ∈ zone.records) :
    rec.Legible :=
  (h.records rec hrec).legible ((Encoder.Within.item DnsRecord.encoder hrec).trans zone.within_encoder)
    h.size_le

theorem laysOut_encoder (h : zone.Valid cmp) :
    zone.encoder.LaysOut fun data p q => q ≤ 0x4000 → At U checks 0 data p zone q := by
  have hrecords := Encoder.LaysOut.all fun rec hrec =>
    DnsRecord.laysOut_encoder U checks (h.records rec hrec) (h.legible rec hrec)
  refine ((Encoder.LaysOut.text U h.domain).andThen <| (Encoder.LaysOut.text U h.mName).andThen <|
    (Encoder.LaysOut.text U h.rName).andThen <| (Encoder.LaysOut.u32 _).andThen <|
    (Encoder.LaysOut.u32 _).andThen <| (Encoder.LaysOut.u32 _).andThen <|
    (Encoder.LaysOut.u32 _).andThen <| (Encoder.LaysOut.u32 _).andThen <|
    (Encoder.LaysOut.u32 _).andThen hrecords).mono fun data p q => ?_
  rintro ⟨m, hdomain, r, hmName, s, hrName, _, ⟨h₁, rfl⟩, _, ⟨h₂, rfl⟩, _, ⟨h₃, rfl⟩, _, ⟨h₄, rfl⟩,
    _, ⟨h₅, rfl⟩, _, ⟨hcount, rfl⟩, hmany⟩ hend
  -- every record takes a byte, so there are fewer than a `u32` counts
  have hlength := hmany.add_length_le fun _ _ _ => RecordAt.lt
  exact ⟨m, r, s, _, hdomain, hmName, hrName, h₁, h₂, h₃, h₄, h₅, hcount,
    (Nat.mod_eq_of_lt (show zone.records.length < 2 ^ 32 by omega)).symm, hmany⟩

/-- **What is written is laid out.** -/
theorem at_bytes (h : zone.Valid cmp) : At U checks 0 zone.bytes 0 zone zone.bytes.length := by
  have hlays := ((laysOut_encoder U checks h).below (VectorPacketBuffer.sound_none _)
    (BytesAt.self zone.bytes) ((Nat.zero_add _).trans_le h.size_le)).1
  rw [Nat.zero_add] at hlays
  exact hlays h.size_le

theorem reads_text : Reads ReadableBuffer.contents
    (readQname U "" : BufferM StreamPacketBuffer String) (TextAt U) :=
  ReadableBuffer.reads_name U

/-- What is laid out is read, and the records are put in their order. -/
theorem reads_read : Reads ReadableBuffer.contents
    (Zone.read U checks cmp : BufferM StreamPacketBuffer Zone) fun data p zone q =>
      ∃ file, At U checks 0 data p file q ∧
        zone = file.records.foldl (addRecord cmp) { file with records := [] } :=
  ((reads_text U).bind fun domain => (reads_text U).bind fun mName => (reads_text U).bind fun rName =>
    ReadableBuffer.reads_readU32.bind fun serial => ReadableBuffer.reads_readU32.bind fun refresh =>
    ReadableBuffer.reads_readU32.bind fun retry => ReadableBuffer.reads_readU32.bind fun expire =>
    ReadableBuffer.reads_readU32.bind fun minimum =>
    ReadableBuffer.reads_readU32.bind fun recordCount =>
    ((ReadableBuffer.reads_record U checks).times recordCount.toNat).map fun records =>
      records.foldl (addRecord cmp)
        ⟨domain, mName, rName, serial, refresh, retry, expire, minimum, []⟩).congr
    fun data p zone q => by
      constructor
      · rintro ⟨domain, m, hdomain, mName, r, hmName, rName, s, hrName, _, _, ⟨h₁, rfl⟩, _, _,
          ⟨h₂, rfl⟩, _, _, ⟨h₃, rfl⟩, _, _, ⟨h₄, rfl⟩, _, _, ⟨h₅, rfl⟩, count, _, ⟨hcount, rfl⟩,
          records, ⟨hlength, hmany⟩, rfl⟩
        exact ⟨⟨domain, mName, rName, _, _, _, _, _, records⟩, ⟨m, r, s, count, hdomain, hmName,
          hrName, h₁, h₂, h₃, h₄, h₅, hcount, hlength, hmany⟩, rfl⟩
      · rintro ⟨file, ⟨m, r, s, count, hdomain, hmName, hrName, h₁, h₂, h₃, h₄, h₅, hcount, hlength,
          hmany⟩, rfl⟩
        exact ⟨_, m, hdomain, _, r, hmName, _, s, hrName, _, _, ⟨h₁, rfl⟩, _, _, ⟨h₂, rfl⟩, _, _,
          ⟨h₃, rfl⟩, _, _, ⟨h₄, rfl⟩, _, _, ⟨h₅, rfl⟩, count, _, ⟨hcount, rfl⟩, _,
          ⟨hlength, hmany⟩, rfl⟩

/-- **The round trip of a zone.** -/
theorem yields_read (h : zone.Valid cmp) :
    ∃ t, (Zone.read U checks cmp).Yields ({ stream := zone.bytes } : StreamPacketBuffer) zone t := by
  have hzone : zone.records.foldl (addRecord cmp) { zone with records := [] } = zone :=
    foldl_addRecord h.sorted
  obtain ⟨t, hread, -, -⟩ := (reads_read U checks).complete
    ({ stream := zone.bytes } : StreamPacketBuffer) zone _ ⟨zone, at_bytes U checks h, hzone.symm⟩
  exact ⟨t, hread⟩

end

end Zone

/-! ## The directory -/

namespace Zones

theorem sorted_nil : (([] : List Zone).map Zone.domain).Pairwise (· < ·) := List.Pairwise.nil

/-- `Zones::new`. -/
def empty : Zones := ⟨[], sorted_nil⟩

/-- `add_zone`. -/
def addZone (zones : Zones) (zone : Zone) : Zones :=
  ⟨insertZone zone zones.zones, sorted_insertZone zone zones.sorted⟩

/-- The loop of `save`: the files that could be created, with what is written to them.  The result
of `write` is not looked at in the source; here a file takes all the bytes it is given. -/
def saveFiles (create : String → Bool) :
    List Zone → Procedure Zones BufferError (List (String × List UInt8))
  | [] => pure []
  | zone :: zones =>
    if create zone.domain then do
      let bytes ← .on {} zone.file
      let files ← saveFiles create zones
      pure ((zone.domain, bytes) :: files)
    else saveFiles create zones

/-- `save`. -/
def save (create : String → Bool) : Procedure Zones BufferError (List (String × List UInt8)) := do
  let zones ← .gets Zones.zones
  saveFiles create zones

section

variable (U : Unicode) (checks : Bool) (cmp : DnsRecord → DnsRecord → Ordering)

/-- The loop of `load`, over what the entries of the directory hold; some cannot be opened. -/
def loadFiles : List (Option (List UInt8)) → Procedure Zones BufferError Unit
  | [] => pure ()
  | none :: entries => loadFiles entries
  | some bytes :: entries => do
    let zone ← .on ({ stream := bytes } : StreamPacketBuffer) (Zone.read U checks cmp)
    .modify fun zones => zones.addZone zone
    loadFiles entries

/-- `load`. -/
def load (zonesDir : Option (List (Option (List UInt8)))) : Procedure Zones BufferError Unit :=
  match zonesDir with
  | none => pure ()
  | some entries => loadFiles U checks cmp entries

end

/-- The zones that are kept. -/
def filter (zones : Zones) (keep : String → Bool) : Zones where
  zones := zones.zones.filter fun zone => keep zone.domain
  sorted := List.Pairwise.sublist (List.filter_sublist.map Zone.domain) zones.sorted

/-- **What has been saved**: every zone whose file could be created. -/
theorem yields_saveFiles (create : String → Bool) (zs : List Zone) (zones : Zones) :
    (saveFiles create zs).Yields zones
      ((zs.filter fun zone => create zone.domain).map fun zone => (zone.domain, zone.bytes)) zones := by
  induction zs with
  | nil => exact Procedure.yields_pure.mpr ⟨rfl, rfl⟩
  | cons zone zs ih =>
    rw [saveFiles, List.filter_cons]
    split_ifs with hcreate
    · rw [List.map_cons]
      refine Procedure.yields_bind.mpr ⟨_, zones, Procedure.yields_on.mpr ⟨zone.yields_file, rfl⟩, ?_⟩
      exact Procedure.yields_bind.mpr ⟨_, zones, ih, Procedure.yields_pure.mpr ⟨rfl, rfl⟩⟩
    · exact ih

section

variable (U : Unicode) (checks : Bool) {cmp : DnsRecord → DnsRecord → Ordering}

/-- What is loaded from the files of zones, by induction on the entries of the directory. -/
theorem yields_loadFiles {entries : List (Option (List UInt8))} {zs : List Zone}
    (hvalid : ∀ zone ∈ zs, zone.Valid cmp) (h : entries.reduceOption = zs.map Zone.bytes)
    (zones : Zones) : (loadFiles U checks cmp entries).Yields zones () (zs.foldl addZone zones) := by
  induction entries generalizing zs zones with
  | nil =>
    obtain rfl := List.map_eq_nil_iff.mp h.symm
    exact Procedure.yields_pure.mpr ⟨rfl, rfl⟩
  | cons entry entries ih =>
    cases entry with
    | none => exact ih hvalid h zones
    | some bytes =>
      rw [List.reduceOption_cons_of_some] at h
      obtain ⟨zone, zs, rfl, rfl, hrest⟩ := List.map_eq_cons_iff.mp h.symm
      have hread := Zone.yields_read U checks (hvalid zone List.mem_cons_self)
      refine Procedure.yields_bind.mpr ⟨zone, zones, Procedure.yields_on.mpr ⟨hread, rfl⟩, ?_⟩
      refine Procedure.yields_bind.mpr ⟨(), _, Procedure.yields_modify.mpr rfl, ?_⟩
      exact ih (fun z hz => hvalid z (List.mem_cons_of_mem _ hz)) hrest.symm _

end

/-- Zones of different domains are all added. -/
theorem foldl_addZone_perm {zs : List Zone} {zones : Zones}
    (h : ((zs ++ zones.zones).map Zone.domain).Nodup) :
    (zs.foldl addZone zones).zones.Perm (zs ++ zones.zones) := by
  induction zs generalizing zones with
  | nil => exact List.Perm.refl _
  | cons zone zs ih =>
    have hnodup := h
    rw [List.cons_append, List.map_cons, List.nodup_cons] at hnodup
    have hfresh : ∀ z ∈ zones.zones, z.domain ≠ zone.domain := fun z hz heq =>
      hnodup.1 (heq ▸ List.mem_map_of_mem (List.mem_append_right _ hz))
    have hadd : (zones.addZone zone).zones.Perm (zone :: zones.zones) := insertZone_perm hfresh
    have hmiddle : (zs ++ (zones.addZone zone).zones).Perm (zone :: zs ++ zones.zones) :=
      (hadd.append_left zs).trans List.perm_middle
    exact (ih ((hmiddle.map Zone.domain).nodup_iff.mpr h)).trans hmiddle

/-- Zones in the order of their domains are determined by which they are. -/
theorem eq_of_perm {zones zones' : Zones} (h : zones.zones.Perm zones'.zones) : zones = zones' := by
  obtain ⟨zs, hsorted⟩ := zones
  obtain ⟨zs', hsorted'⟩ := zones'
  have heq : zs = zs' := h.eq_of_pairwise
    (fun _ _ _ _ hlt hgt => absurd hgt (lt_asymm hlt)) (List.pairwise_map.mp hsorted)
    (List.pairwise_map.mp hsorted')
  subst heq
  rfl

/-- **What has been saved is loaded again.**  Zones that come back can be saved; and when the
directory then lists their files in any order, with whatever else cannot be opened, the zones whose
files could be created are loaded, each with all its records. -/
theorem load_save (U : Unicode) (checks : Bool) (cmp : DnsRecord → DnsRecord → Ordering)
    (create : String → Bool) (zones : Zones) (hvalid : ∀ zone ∈ zones.zones, zone.Valid cmp) :
    ∃ files, (save create).Yields zones files zones ∧
      ∀ entries : List (Option (List UInt8)), entries.reduceOption.Perm (files.map Prod.snd) →
        (load U checks cmp (some entries)).Yields empty () (zones.filter create) := by
  refine ⟨_, Procedure.yields_bind.mpr ⟨_, zones, Procedure.yields_gets.mpr ⟨rfl, rfl⟩,
    yields_saveFiles create _ _⟩, fun entries hentries => ?_⟩
  rw [List.map_map] at hentries
  -- the files come from the zones, so their order is an order of the zones
  obtain ⟨zs, hentries, hperm⟩ : ∃ zs : List Zone, entries.reduceOption = zs.map Zone.bytes ∧
      zs.Perm (zones.filter create).zones := by
    obtain ⟨zs, heq, hperm⟩ := (congrFun (congrFun (List.eq_map_comp_perm Zone.bytes)
      entries.reduceOption) (zones.filter create).zones).mpr hentries
    exact ⟨zs, heq, hperm⟩
  have hload := yields_loadFiles U checks (fun zone hzone =>
    hvalid zone (List.mem_of_mem_filter (hperm.mem_iff.mp hzone))) hentries empty
  have hnodup : ((zs ++ empty.zones).map Zone.domain).Nodup := by
    rw [show empty.zones = [] from rfl, List.append_nil]
    exact (hperm.map Zone.domain).nodup_iff.mpr ((zones.filter create).sorted.imp ne_of_lt)
  -- the map is in the order of the domains again, whatever the order of the files
  have hall := foldl_addZone_perm hnodup
  rw [show empty.zones = [] from rfl, List.append_nil] at hall
  rw [eq_of_perm (hall.trans hperm)] at hload
  exact hload

/-- Two zones whose names share their ends. -/
def twoZones : List Zone :=
  [⟨"a.ruv", "ns.a.ruv", "admin.a.ruv", 1, 3600, 600, 86400, 60,
      [.a "www.a.ruv" ⟨#v[10, 0, 0, 7]⟩ 60, .ns "a.ruv" "ns.a.ruv" 60]⟩,
    ⟨"b.ruv", "ns.b.ruv", "admin.b.ruv", 1, 3600, 600, 86400, 60, []⟩]

theorem sorted_twoZones : (twoZones.map Zone.domain).Pairwise (· < ·) := by decide +kernel

/-- Records in the order of their types. -/
def compareTypes (r r' : DnsRecord) : Ordering := compare r.getQuerytype.toNum r'.getQuerytype.toNum

theorem valid_twoZones : ∀ zone ∈ twoZones, zone.Valid compareTypes := by
  intro zone hzone
  have hnames : ∀ zone ∈ twoZones,
      ValidName zone.domain ∧ ValidName zone.mName ∧ ValidName zone.rName ∧
        (∀ rec ∈ zone.records, rec.Valid) ∧
        (zone.records.Pairwise fun r r' => compareTypes r' r = .gt) ∧
        zone.bytes.length ≤ 0x4000 := by
    decide +kernel
  obtain ⟨hdomain, hmName, hrName, hrecords, hsorted, hsize⟩ := hnames zone hzone
  exact ⟨hdomain, hmName, hrName, hrecords, hsorted, hsize⟩

/-- The file of one of the two cannot be created. -/
theorem load_save_twoZones :
    ((Zones.mk twoZones sorted_twoZones).filter (· ≠ "b.ruv")).zones.map Zone.domain = ["a.ruv"] ∧
    ∃ files, (save (· ≠ "b.ruv")).Yields (Zones.mk twoZones sorted_twoZones) files
        (Zones.mk twoZones sorted_twoZones) ∧
      ∀ entries : List (Option (List UInt8)), entries.reduceOption.Perm (files.map Prod.snd) →
        (load Unicode.ascii true compareTypes (some entries)).Yields empty ()
          ((Zones.mk twoZones sorted_twoZones).filter (· ≠ "b.ruv")) :=
  ⟨by decide +kernel, load_save Unicode.ascii true compareTypes _ _ valid_twoZones⟩

end Zones
