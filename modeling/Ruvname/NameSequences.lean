/-
# Sequences of names

Names that are written one after the other to an empty vector are read from its start again, unless
the root is among them.  The text of the root is split into one empty text, and `write_qname` writes
this as a label of no bytes, with an end behind it: two zero bytes, of which `read_qname` takes only
the first.  From there on the reader is behind the writer.  A second root does not help, as it is
written as a pointer to the first; so the reader never gets to the end.
-/
import Ruvname.RoundTrip

open PacketBuffer

/-! ## Names in the data -/

/-- A label in the data is never empty. -/
theorem NameAt.ne_nil {data : List UInt8} {p next : ℕ} {labels : List (List UInt8)}
    (h : NameAt data p labels next) : [] ∉ labels := by
  induction h with
  | stop => exact List.not_mem_nil
  | pointer _ _ _ _ ih => exact ih
  | label hlen hpointer hne rest ih =>
    rw [List.mem_cons, not_or]
    refine ⟨fun hnil => ?_, ih⟩
    have hlt := ReadableBuffer.name_lt_length rest
    have hlength := congrArg List.length hnil
    rw [List.length_take, List.length_drop, List.length_nil] at hlength
    have hpos : 0 < UInt8.toNat _ := Nat.pos_of_ne_zero fun h => hne (UInt8.toNat_inj.mp h)
    omega

/-- A table that is right knows no place of the root. -/
theorem Labels.Sound.root {table : Labels} {data : List UInt8} (h : table.Sound data) :
    table "" = none := by
  cases htable : table "" with
  | none => rfl
  | some p =>
    obtain ⟨-, next, hname⟩ := h _ _ htable
    exact absurd (by decide) hname.ne_nil

/-! ## Sequences -/

/-- A name as it is meant to be written: the root, or labels that can be read back. -/
def IsName (name : String) : Prop := name = "" ∨ ValidName name

namespace VectorPacketBuffer

/-- The names, one after the other. -/
def writeQnames (names : List String) : BufferM VectorPacketBuffer Unit := names.forM writeQname

/-- As many names as are asked for. -/
def readQnames (U : Unicode) (n : ℕ) : BufferM VectorPacketBuffer (List String) :=
  (readQname U "").times n

/-- From the start of the buffer the names are read, and then the position is at its end. -/
def ReadsBack (U : Unicode) (names : List String) (b : VectorPacketBuffer) : Prop :=
  ∃ t, (seek 0 >>= fun _ => readQnames U names.length).Yields b names t ∧
    t.buffer = b.buffer ∧ t.pos = b.buffer.length

/-- What is written. -/
def ofNames (names : List String) : VectorPacketBuffer :=
  VectorPacketBuffer.append {} (.all .qname names)

theorem yields_writeQnames (names : List String) :
    (writeQnames names).Yields {} () (ofNames names) :=
  Encodes.forM Encodes.writeQname names {} DnsPacket.atEnd_empty

end VectorPacketBuffer

/-- A name as a text. -/
def TextAt (U : Unicode) (data : List UInt8) (p : ℕ) (name : String) (q : ℕ) : Prop :=
  ∃ labels, NameAt data p labels q ∧ name = U.name labels

section

variable {U : Unicode} {data : List UInt8} {p q : ℕ} {name : String} {names : List String}

theorem TextAt.unique {name' : String} {q' : ℕ} (h : TextAt U data p name q)
    (h' : TextAt U data p name' q') : name = name' ∧ q = q' := by
  obtain ⟨labels, hname, rfl⟩ := h
  obtain ⟨labels', hname', rfl⟩ := h'
  obtain ⟨rfl, rfl⟩ := hname.unique hname'
  exact ⟨rfl, rfl⟩

/-- A zero byte is the root. -/
theorem textAt_root (h : data[p]? = some 0) : TextAt U data p "" (p + 1) := ⟨[], .stop h, rfl⟩

/-- Reading is finding the names in the data. -/
theorem VectorPacketBuffer.readsBack_iff (U : Unicode) (names : List String)
    (b : VectorPacketBuffer) :
    b.ReadsBack U names ↔ ManyAt (TextAt U b.buffer) 0 names b.buffer.length := by
  have hreads : Reads ReadableBuffer.contents (readQname U "" : BufferM VectorPacketBuffer String)
      (TextAt U) :=
    (ReadableBuffer.reads_readQname U "").congr fun data p s q => by
      simp only [String.empty_append]
      rfl
  have hmany := hreads.times names.length
  constructor
  · rintro ⟨t, ht, -, hpos⟩
    obtain ⟨_, u, hseek, hread⟩ := Procedure.yields_bind.mp ht
    obtain rfl := Procedure.yields_modify.mp hseek
    obtain ⟨-, -, hnames⟩ := hmany.sound _ _ _ hread
    rw [← hpos]
    exact hnames
  · intro hnames
    obtain ⟨t, hread, hbuffer, hpos⟩ :=
      hmany.complete { b with pos := 0 } names _ ⟨rfl, hnames⟩
    exact ⟨t, Procedure.yields_bind.mpr ⟨(), _, Procedure.yields_modify.mpr rfl, hread⟩,
      hbuffer, hpos⟩

/-! ## Without the root -/

theorem Encoder.LaysOut.text (U : Unicode) (h : ValidName name) :
    (Encoder.qname name).LaysOut fun data p q => TextAt U data p name q :=
  (Encoder.LaysOut.qname h.legible).mono fun _ _ _ hname => ⟨_, hname, (U.name_nameBytes h).symm⟩

/-- Valid names are found where they have been written. -/
theorem Encoder.LaysOut.texts (U : Unicode) (h : ∀ name ∈ names, ValidName name) :
    (Encoder.all Encoder.qname names).LaysOut fun data p q => ManyAt (TextAt U data) p names q :=
  Encoder.LaysOut.all fun name hname => Encoder.LaysOut.text U (h name hname)

/-! ## Behind the root -/

namespace Encoder

/-- A root that is known is written as a pointer. -/
theorem all_root_of_some {table : Labels} {root : ℕ} (h : table "" = some root) (p : ℕ)
    (names : List String) :
    all qname ("" :: names) p table =
      (bytesU16 (root.toUInt16 ||| 0xc000) ++ (all qname names (p + 2) table).1,
        (all qname names (p + 2) table).2) := by
  have hsearch : table (".".intercalate [""]) = some root := h
  have hroot : qname "" p table = u16 (root.toUInt16 ||| 0xc000) p table := labels_of_some hsearch
  simp only [all, andThen, hroot, u16, emit]
  rfl

/-- The first root is written as two zero bytes. -/
theorem all_root_of_none {table : Labels} (h : table "" = none) (p : ℕ) (names : List String) :
    all qname ("" :: names) p table =
      ([0, 0] ++ (all qname names (p + 2) (Function.update table "" (some p))).1,
        (all qname names (p + 2) (Function.update table "" (some p))).2) := by
  have hsearch : table (".".intercalate [""]) = none := h
  have hroot : qname "" p table = ([0, 0], Function.update table "" (some p)) :=
    labels_of_none hsearch
  simp only [all, andThen, hroot]
  rfl

end Encoder

/-- A pointer to a zero byte is the root as well. -/
theorem textAt_pointer {root : ℕ} (hroot : root < 0x4000) (hzero : data[root]? = some 0)
    (hbytes : BytesAt data p (Encoder.bytesU16 (root.toUInt16 ||| 0xc000))) :
    TextAt U data p "" (p + 2) := by
  obtain ⟨hpointer, hoffset⟩ := pointer_bytes hroot
  have htarget : NameAt data (pointerOffset ((root.toUInt16 ||| 0xc000) >>> 8).toUInt8
      ((root.toUInt16 ||| 0xc000) &&& 0xff).toUInt8) [] (root + 1) := by
    rw [hoffset]
    exact .stop hzero
  exact ⟨[], .pointer (hbytes.getElem? (i := 0) rfl) hpointer (hbytes.getElem? (i := 1) rfl) htarget,
    rfl⟩

/-- A reader that finds a root where the writer has one more name to come finds only roots, and
has read all its names one root before the end. -/
theorem not_manyAt_behind {table : Labels} {root : ℕ} (hroot : root < 0x4000)
    (hzero : data[root]? = some 0) (htable : table "" = some root)
    (hbytes : BytesAt data p (Encoder.all Encoder.qname ("" :: names) p table).1) :
    ¬ ManyAt (TextAt U data) p names
      (p + (Encoder.all Encoder.qname ("" :: names) p table).1.length) := by
  induction names generalizing p with
  | nil =>
    intro hmany
    rw [Encoder.all_root_of_some htable] at hmany
    generalize hend : p + _ = next at hmany
    cases hmany
    have hlength : (Encoder.bytesU16 (root.toUInt16 ||| 0xc000)).length = 2 := rfl
    rw [List.length_append] at hend
    omega
  | cons name names ih =>
    rintro (_ | ⟨first, rest⟩)
    rw [Encoder.all_root_of_some htable] at hbytes rest
    -- the reader takes the pointer for the name that comes after it
    obtain ⟨rfl, rfl⟩ := first.unique (textAt_pointer hroot hzero hbytes.left)
    rw [List.length_append, ← Nat.add_assoc] at rest
    exact ih hbytes.right rest

/-- **Behind a root the names are not read**: at least the end is missed. -/
theorem not_manyAt_of_root (hnames : ∀ name ∈ names, IsName name) (hmem : "" ∈ names)
    {table : Labels} (htable : table.Sound data)
    (hbytes : BytesAt data p (Encoder.all Encoder.qname names p table).1)
    (hend : p + (Encoder.all Encoder.qname names p table).1.length ≤ 0x4000) :
    ¬ ManyAt (TextAt U data) p names (p + (Encoder.all Encoder.qname names p table).1.length) := by
  induction names generalizing p table with
  | nil => exact absurd hmem List.not_mem_nil
  | cons name names ih =>
    rintro (_ | ⟨first, rest⟩)
    by_cases hroot : name = ""
    · subst hroot
      rw [Encoder.all_root_of_none htable.root] at hbytes hend rest
      rw [List.length_append, ← Nat.add_assoc] at rest hend
      have hlength : [(0 : UInt8), 0].length = 2 := rfl
      rw [hlength] at rest hend
      have hzero : data[p]? = some 0 := hbytes.getElem? (i := 0) rfl
      have hone : data[p + 1]? = some 0 := hbytes.getElem? (i := 1) rfl
      obtain ⟨-, rfl⟩ := first.unique (textAt_root hzero)
      cases names with
      | nil =>
        generalize hlast : p + 2 + _ = last at rest
        cases rest
        omega
      | cons second names =>
        rcases rest with _ | ⟨second, rest⟩
        -- the second zero byte is one more root for the reader
        obtain ⟨rfl, rfl⟩ := second.unique (textAt_root hone)
        exact not_manyAt_behind (by omega) hzero (Function.update_self ..) hbytes.right rest
    · have hvalid := (hnames name List.mem_cons_self).resolve_left hroot
      have hlater : "" ∈ names := (List.mem_cons.mp hmem).resolve_left fun h => hroot h.symm
      have hall : (Encoder.all Encoder.qname (name :: names) p table).1.length
          = (Encoder.qname name p table).1.length
            + (Encoder.all Encoder.qname names (p + (Encoder.qname name p table).1.length)
              (Encoder.qname name p table).2).1.length := List.length_append
      rw [hall, ← Nat.add_assoc] at rest hend
      obtain ⟨htext, htable'⟩ :=
        (Encoder.LaysOut.text U hvalid).below htable (BytesAt.left hbytes) (by omega)
      obtain ⟨-, rfl⟩ := first.unique htext
      exact ih (fun n hn => hnames n (List.mem_cons_of_mem _ hn)) hlater htable'
        (BytesAt.right hbytes) hend rest

end

/-! ## The round trip -/

namespace VectorPacketBuffer

theorem sound_none (data : List UInt8) : Labels.Sound (fun _ => none) data := fun _ _ h => by cases h

theorem length_ofNames (names : List String) :
    (ofNames names).buffer.length
      = 0 + (Encoder.all Encoder.qname names 0 fun _ => none).1.length :=
  (Nat.zero_add _).symm

theorem bytesAt_ofNames (names : List String) :
    BytesAt (ofNames names).buffer 0 (Encoder.all Encoder.qname names 0 fun _ => none).1 :=
  BytesAt.self _

/-- Names without the root are read back. -/
theorem readsBack_ofNames (U : Unicode) {names : List String}
    (hnames : ∀ name ∈ names, ValidName name) (hsize : (ofNames names).buffer.length ≤ 0x4000) :
    (ofNames names).ReadsBack U names := by
  rw [readsBack_iff]
  rw [length_ofNames] at hsize ⊢
  exact ((Encoder.LaysOut.texts U hnames).below (sound_none _) (bytesAt_ofNames names) hsize).1

/-- With the root among them they are not. -/
theorem not_readsBack_ofNames (U : Unicode) {names : List String}
    (hnames : ∀ name ∈ names, IsName name) (hmem : "" ∈ names)
    (hsize : (ofNames names).buffer.length ≤ 0x4000) : ¬ (ofNames names).ReadsBack U names := by
  rw [readsBack_iff]
  rw [length_ofNames] at hsize ⊢
  exact not_manyAt_of_root hnames hmem (sound_none _) (bytesAt_ofNames names) hsize

/-- **The round trip of names holds exactly without the root.**  Names can always be written; if the
bytes are few enough for pointers to reach all of them, then the names are read back unless one of
them is the root. -/
theorem readsBack_names_iff (U : Unicode) (names : List String)
    (hnames : ∀ name ∈ names, IsName name) :
    ∃ b, (writeQnames names).Yields {} () b ∧
      (b.buffer.length ≤ 0x4000 → (b.ReadsBack U names ↔ "" ∉ names)) := by
  refine ⟨_, yields_writeQnames names, fun hsize => ?_⟩
  constructor
  · intro hback hmem
    exact not_readsBack_ofNames U hnames hmem hsize hback
  · intro hmem
    refine readsBack_ofNames U (fun name hname => ?_) hsize
    exact (hnames name hname).resolve_left fun h => hmem (h ▸ hname)

/-- The second name is written as a pointer into the first. -/
theorem readsBack_names_shared :
    (∀ name ∈ ["a.b", "b"], IsName name) ∧
    ∃ b, (writeQnames ["a.b", "b"]).Yields {} () b ∧
      (b.buffer.length ≤ 0x4000 → (b.ReadsBack Unicode.ascii ["a.b", "b"] ↔ "" ∉ ["a.b", "b"])) := by
  have hnames : ∀ name ∈ ["a.b", "b"], IsName name := by
    unfold IsName
    decide +kernel
  exact ⟨hnames, readsBack_names_iff Unicode.ascii ["a.b", "b"] hnames⟩

/-- The name that comes after the root is not read back. -/
theorem not_readsBack_root :
    (∀ name ∈ ["", "a"], IsName name) ∧
    ∃ b, (writeQnames ["", "a"]).Yields {} () b ∧ b.buffer = [0, 0, 1, 97, 0] ∧
      ¬ b.ReadsBack Unicode.ascii ["", "a"] := by
  have hnames : ∀ name ∈ ["", "a"], IsName name := by
    unfold IsName
    decide +kernel
  have hbuffer : (ofNames ["", "a"]).buffer = [0, 0, 1, 97, 0] := by decide +kernel
  exact ⟨hnames, _, yields_writeQnames _, hbuffer,
    not_readsBack_ofNames Unicode.ascii hnames (by decide) (by rw [hbuffer]; decide)⟩

end VectorPacketBuffer
