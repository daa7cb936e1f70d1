/-
# Names with compression

Where the encoder has written a name, there is this name in the sense of the layout, although the
bytes may be a pointer to where its end has been written before.  The reason is an invariant of the
table of labels (`Labels.Sound`): what it says about a text is a position below 0x4000 where the
labels of this text are laid out.  An encoder lays out data of some form (`Encoder.LaysOut`) if it
does so wherever its bytes are, given a table with the invariant, and keeps the invariant, as long as
pointers reach all labels that have been written (`Labels.Near`).
-/
import Ruvname.RecordSizes
import Ruvname.Words

open PacketBuffer

/-! ## Texts and their labels -/

/-- Between two dots there is no dot. -/
theorem dot_not_mem_of_mem_splitOn {xs ys : List Char} (h : ys ∈ xs.splitOn '.') : '.' ∉ ys := by
  induction xs generalizing ys with
  | nil =>
    rw [List.splitOn_nil, List.mem_singleton] at h
    rw [h]
    exact List.not_mem_nil
  | cons x xs ih =>
    rw [List.splitOn_cons_eq_if_modifyHead] at h
    by_cases hx : x = '.'
    · rw [if_pos (beq_iff_eq.mpr hx), List.mem_cons] at h
      rcases h with rfl | h
      · exact List.not_mem_nil
      · exact ih h
    · rw [if_neg (by rwa [beq_iff_eq])] at h
      obtain ⟨zs, zss, hsplit⟩ := List.exists_cons_of_ne_nil (List.splitOn_ne_nil '.' xs)
      rw [hsplit, List.modifyHead_cons, List.mem_cons] at h
      rw [hsplit] at ih
      rcases h with rfl | h
      · rw [List.mem_cons, not_or]
        exact ⟨fun heq => hx heq.symm, ih List.mem_cons_self⟩
      · exact ih (List.mem_cons_of_mem _ h)

/-- A label has no dot in it. -/
theorem dot_not_mem_of_mem_splitDots {s label : String} (h : label ∈ splitDots s) :
    '.' ∉ label.toList := by
  obtain ⟨ys, hys, rfl⟩ := List.mem_map.mp h
  rw [String.toList_ofList]
  exact dot_not_mem_of_mem_splitOn hys

/-- Labels without dots come back when the text that joins them is split. -/
theorem splitDots_intercalate {labels : List String} (hne : labels ≠ [])
    (h : ∀ label ∈ labels, '.' ∉ label.toList) : splitDots (".".intercalate labels) = labels := by
  rw [splitDots, String.toList_intercalate]
  have hsplit : List.splitOn '.' (['.'].intercalate (labels.map String.toList))
      = labels.map String.toList := by
    refine List.splitOn_intercalate '.' (fun ys hys => ?_) (by simpa using hne)
    obtain ⟨label, hlabel, rfl⟩ := List.mem_map.mp hys
    exact h label hlabel
  show (List.splitOn '.' (['.'].intercalate _)).map _ = _
  rw [hsplit, List.map_map]
  exact List.map_id'' (fun _ => String.ofList_toList) labels

/-- A text is joined from what it is split into. -/
theorem intercalate_splitDots (s : String) : ".".intercalate (splitDots s) = s := by
  apply String.toList_inj.mp
  rw [String.toList_intercalate, splitDots, List.map_map]
  have hmap : (s.toList.splitOn '.').map (String.toList ∘ String.ofList) = s.toList.splitOn '.' :=
    List.map_id'' (fun _ => String.toList_ofList) _
  rw [hmap]
  exact List.intercalate_splitOn '.'

/-! ## Bytes in the data -/

/-- The bytes are in the data from a position on. -/
abbrev BytesAt (data : List UInt8) (p : ℕ) (xs : List UInt8) : Prop := RangeAt 0 data p xs.length xs

namespace BytesAt

variable {data xs ys : List UInt8} {p : ℕ}

/-- Each byte is where it should be. -/
theorem getElem? (h : BytesAt data p xs) {i : ℕ} {x : UInt8} (hx : xs[i]? = some x) :
    data[p + i]? = some x := by
  obtain ⟨hi, -⟩ := List.getElem?_eq_some_iff.mp hx
  rw [h.2, List.getElem?_take_of_lt hi, List.getElem?_drop] at hx
  exact hx

/-- A front of the bytes is there. -/
theorem left (h : BytesAt data p (xs ++ ys)) : BytesAt data p xs := by
  obtain ⟨hlen, heq⟩ := h
  rw [List.length_append] at hlen heq
  refine ⟨by omega, ?_⟩
  have htake := congrArg (List.take xs.length) heq
  rw [List.take_left, List.take_take, min_eq_left (Nat.le_add_right _ _)] at htake
  exact htake

/-- The rest is there after the front. -/
theorem right (h : BytesAt data p (xs ++ ys)) : BytesAt data (p + xs.length) ys := by
  obtain ⟨hlen, heq⟩ := h
  rw [List.length_append] at hlen heq
  refine ⟨by omega, ?_⟩
  have hdrop := congrArg (List.drop xs.length) heq
  rw [List.drop_left, List.drop_take, List.drop_drop, Nat.add_sub_cancel_left] at hdrop
  exact hdrop

/-- All the data is there from its start. -/
theorem self (data : List UInt8) : BytesAt data 0 data := ⟨by omega, by simp⟩

theorem u16At {v : UInt16} (h : BytesAt data p (Encoder.bytesU16 v)) : U16At data p v :=
  ⟨_, _, h.getElem? (i := 0) rfl, h.getElem? (i := 1) rfl, (joinBytes16_bytes v).symm⟩

theorem u32At {v : UInt32} (h : BytesAt data p (Encoder.bytesU32 v)) : U32At data p v :=
  ⟨_, _, _, _, h.getElem? (i := 0) rfl, h.getElem? (i := 1) rfl, h.getElem? (i := 2) rfl,
    h.getElem? (i := 3) rfl, (joinBytes32_bytes v).symm⟩

end BytesAt

/-! ## What encoders lay out -/

/-- The bytes of a label. -/
def utf8 (label : String) : List UInt8 := label.toUTF8.data.toList

/-- The bytes of the labels of a name. -/
def nameBytes (s : String) : List (List UInt8) := (splitDots s).map utf8

/-- At the position there is the name, and pointers reach the position. -/
def Referable (data : List UInt8) (s : String) (p : ℕ) : Prop :=
  p < 0x4000 ∧ ∃ next, NameAt data p (nameBytes s) next

/-- What the table says is right. -/
def Labels.Sound (table : Labels) (data : List UInt8) : Prop :=
  ∀ s p, table s = some p → Referable data s p

/-- Pointers reach every label that has been written. -/
def Labels.Near (table : Labels) : Prop := ∀ s p, table s = some p → p < 0x4000

/-- The encoder adds labels to the table, whose places are among the bytes that it writes. -/
structure Encoder.Grows (e : Encoder) : Prop where
  keeps : ∀ p table s q, table s = some q → (e p table).2 s = some q
  places : ∀ p table s q, (e p table).2 s = some q →
    table s = some q ∨ q < p + (e p table).1.length

namespace Encoder.Grows

variable {e f : Encoder}

/-- Bytes that are emitted put no suffix into the table. -/
theorem emit (xs : List UInt8) : (Encoder.emit xs).Grows := ⟨fun _ _ _ _ h => h, fun _ _ _ _ h => .inl h⟩

/-- Both parts keep what is known, and what becomes known is near. -/
theorem andThen (he : e.Grows) (hf : f.Grows) : (e.andThen f).Grows where
  keeps _ _ s q h := hf.keeps _ _ s q (he.keeps _ _ s q h)
  places p table s q h := by
    have hlen : (e.andThen f p table).1.length
        = (e p table).1.length + (f (p + (e p table).1.length) (e p table).2).1.length :=
      List.length_append
    rcases hf.places _ _ s q h with hold | hq
    · exact (he.places _ _ s q hold).imp_right fun hq => by omega
    · exact .inr (by omega)

/-- The same for a list of encoders. -/
theorem all {α : Type} {g : α → Encoder} {as : List α} (h : ∀ a ∈ as, (g a).Grows) :
    (Encoder.all g as).Grows := by
  induction as with
  | nil => exact emit []
  | cons a as ih =>
    exact (h a List.mem_cons_self).andThen (ih fun b hb => h b (List.mem_cons_of_mem _ hb))

theorem sized (he : e.Grows) : e.sized.Grows where
  keeps _ _ s q h := he.keeps _ _ s q h
  places p table s q h := by
    have hlen : (e.sized p table).1.length = 2 + (e (p + 2) table).1.length := List.length_append
    exact (he.places _ _ s q h).imp_right fun hq => by omega

/-- The labels of a name. -/
theorem labels (ls : List String) : (Encoder.labels ls).Grows := by
  induction ls with
  | nil => exact emit [0]
  | cons label rest ih =>
    have hrest := (emit (bytesLabel label)).andThen ih
    constructor
    · intro p table s q h
      cases hfound : table (".".intercalate (label :: rest)) with
      | some prevPos =>
        rw [labels_of_some hfound]
        exact h
      | none =>
        rw [labels_of_none hfound]
        have hne : s ≠ ".".intercalate (label :: rest) := by
          rintro rfl
          exact absurd (h.symm.trans hfound) (by simp)
        exact hrest.keeps _ _ s q (by rwa [Function.update_of_ne hne])
    · intro p table s q h
      cases hfound : table (".".intercalate (label :: rest)) with
      | some prevPos =>
        rw [labels_of_some hfound] at h
        exact .inl h
      | none =>
        rw [labels_of_none hfound] at h ⊢
        rcases hrest.places _ _ s q h with hold | hq
        · by_cases heq : s = ".".intercalate (label :: rest)
          · rw [heq, Function.update_self, Option.some.injEq] at hold
            have hpos : 0 < ((Encoder.emit (bytesLabel label)).andThen (Encoder.labels rest) p
                (Function.update table (".".intercalate (label :: rest)) (some p))).1.length :=
              Nat.succ_pos _
            exact .inr (by omega)
          · rw [Function.update_of_ne heq] at hold
            exact .inl hold
        · exact .inr hq

/-- Pointers reach what was written before, too. -/
theorem near_of_near (he : e.Grows) {p : ℕ} {table : Labels} (h : (e p table).2.Near) : table.Near :=
  fun s q hq => h s q (he.keeps p table s q hq)

/-- Below 0x4000 pointers reach everything. -/
theorem near (he : e.Grows) {p : ℕ} {table : Labels} (htable : table.Near)
    (hend : p + (e p table).1.length ≤ 0x4000) : (e p table).2.Near := by
  intro s q hq
  rcases he.places p table s q hq with hold | hlt
  · exact htable s q hold
  · omega

end Encoder.Grows

/-- Wherever the encoder has written, as long as pointers reach all labels, the data is as the format
says. -/
structure Encoder.LaysOut (e : Encoder) (F : List UInt8 → ℕ → ℕ → Prop) : Prop where
  grows : e.Grows
  lays : ∀ data p table, Labels.Sound table data → BytesAt data p (e p table).1 →
    (e p table).2.Near → F data p (p + (e p table).1.length) ∧ Labels.Sound (e p table).2 data

namespace Encoder.LaysOut

variable {e f : Encoder} {F G : List UInt8 → ℕ → ℕ → Prop}

/-- A weaker format is laid out as well. -/
theorem mono (h : e.LaysOut F) (hFG : ∀ data p q, F data p q → G data p q) : e.LaysOut G where
  grows := h.grows
  lays data p table htable hbytes hnear := by
    obtain ⟨hF, htable'⟩ := h.lays data p table htable hbytes hnear
    exact ⟨hFG _ _ _ hF, htable'⟩

/-- Below 0x4000 the data is as the format says. -/
theorem below (h : e.LaysOut F) {data : List UInt8} {p : ℕ} {table : Labels}
    (htable : table.Sound data) (hbytes : BytesAt data p (e p table).1)
    (hend : p + (e p table).1.length ≤ 0x4000) :
    F data p (p + (e p table).1.length) ∧ Labels.Sound (e p table).2 data :=
  h.lays data p table htable hbytes (h.grows.near (fun s q hq => (htable s q hq).1) hend)

/-- One format after another. -/
theorem andThen (he : e.LaysOut F) (hf : f.LaysOut G) :
    (e.andThen f).LaysOut fun data p q => ∃ m, F data p m ∧ G data m q where
  grows := he.grows.andThen hf.grows
  lays data p table htable hbytes hnear := by
    have hlen : (e.andThen f p table).1.length
        = (e p table).1.length + (f (p + (e p table).1.length) (e p table).2).1.length :=
      List.length_append
    rw [hlen]
    obtain ⟨hF, htable'⟩ := he.lays data p table htable (BytesAt.left hbytes)
      (hf.grows.near_of_near hnear)
    obtain ⟨hG, htable''⟩ := hf.lays data _ _ htable' (BytesAt.right hbytes) hnear
    rw [Nat.add_assoc] at hG
    exact ⟨⟨_, hF, hG⟩, htable''⟩

/-- The items of a list one after another. -/
theorem all {α : Type} {g : α → Encoder} {item : List UInt8 → ℕ → α → ℕ → Prop} {as : List α}
    (h : ∀ a ∈ as, (g a).LaysOut fun data p q => item data p a q) :
    (Encoder.all g as).LaysOut fun data p q => ManyAt (item data) p as q := by
  induction as with
  | nil => exact ⟨.emit [], fun data p table htable _ _ => ⟨.nil, htable⟩⟩
  | cons a as ih =>
    refine ((h a List.mem_cons_self).andThen
      (ih fun b hb => h b (List.mem_cons_of_mem _ hb))).mono fun data p q => ?_
    rintro ⟨m, hfirst, hrest⟩
    exact .cons hfirst hrest

/-- Bytes are laid out as they are. -/
theorem emit (xs : List UInt8) :
    (Encoder.emit xs).LaysOut fun data p q => BytesAt data p xs ∧ q = p + xs.length :=
  ⟨.emit xs, fun _ _ _ htable hbytes _ => ⟨⟨hbytes, rfl⟩, htable⟩⟩

theorem u16 (v : UInt16) : (Encoder.u16 v).LaysOut fun data p q => U16At data p v ∧ q = p + 2 :=
  (emit _).mono fun _ _ _ h => ⟨h.1.u16At, h.2⟩

theorem u32 (v : UInt32) : (Encoder.u32 v).LaysOut fun data p q => U32At data p v ∧ q = p + 4 :=
  (emit _).mono fun _ _ _ h => ⟨h.1.u32At, h.2⟩

theorem byte (x : UInt8) :
    (Encoder.emit [x]).LaysOut fun data p q => data[p]? = some x ∧ q = p + 1 :=
  (emit _).mono fun _ _ _ h => ⟨h.1.getElem? (i := 0) rfl, h.2⟩

/-- Data behind its length. -/
theorem sized (he : e.LaysOut F) :
    e.sized.LaysOut fun data p q => (∃ len, U16At data p len) ∧ F data (p + 2) q where
  grows := he.grows.sized
  lays data p table htable hbytes hnear := by
    have hlen : (e.sized p table).1.length = 2 + (e (p + 2) table).1.length := List.length_append
    rw [hlen]
    obtain ⟨hF, htable'⟩ := he.lays data (p + 2) table htable (BytesAt.right hbytes) hnear
    rw [Nat.add_assoc] at hF
    exact ⟨⟨⟨_, (BytesAt.left hbytes).u16At⟩, hF⟩, htable'⟩

end Encoder.LaysOut

/-! ## Pointers -/

/-- A byte of 64 or more is taken for a pointer. -/
theorem isPointer_iff (x : UInt8) : isPointer x ↔ 0x40 ≤ x.toNat := by
  revert x
  decide +kernel

/-- The two highest bits are taken away. -/
theorem toNat_xor_c0 (x : UInt8) : 0xc0 ≤ x.toNat → (x.toUInt16 ^^^ 0xc0).toNat = x.toNat - 0xc0 := by
  revert x
  decide +kernel

/-- A position below 0x4000 is read from the two bytes that are written for it. -/
theorem pointer_bytes {p : ℕ} (h : p < 0x4000) :
    isPointer ((p.toUInt16 ||| 0xc000) >>> 8).toUInt8 ∧
    pointerOffset ((p.toUInt16 ||| 0xc000) >>> 8).toUInt8
      ((p.toUInt16 ||| 0xc000) &&& 0xff).toUInt8 = p := by
  have hp : p.toUInt16.toNat = p := Nat.mod_eq_of_lt (by omega)
  have hword : (p.toUInt16 ||| 0xc000).toNat = 0xc000 + p := by
    rw [UInt16.toNat_or, hp, Nat.lor_comm]
    exact lor_eq_add 14 3 h
  have hlen := toNat_upperByte16 (p.toUInt16 ||| 0xc000)
  have hb2 := toNat_lowerByte16 (p.toUInt16 ||| 0xc000)
  rw [hword] at hlen hb2
  generalize ((p.toUInt16 ||| 0xc000) >>> 8).toUInt8 = len at hlen ⊢
  generalize ((p.toUInt16 ||| 0xc000) &&& 0xff).toUInt8 = b2 at hb2 ⊢
  refine ⟨(isPointer_iff len).mpr (by omega), ?_⟩
  have hxor := toNat_xor_c0 len (by omega)
  -- without its two highest bits the first byte is again a byte
  have hjoin := toNat_joinBytes16 (len.toUInt16 ^^^ 0xc0).toUInt8 b2
  have hbyte : (len.toUInt16 ^^^ 0xc0).toUInt8.toUInt16 = len.toUInt16 ^^^ 0xc0 := by
    apply UInt16.toNat_inj.mp
    rw [UInt8.toNat_toUInt16, UInt16.toNat_toUInt8]
    omega
  have hbyte' : (len.toUInt16 ^^^ 0xc0).toUInt8.toNat = len.toNat - 0xc0 := by
    rw [← UInt8.toNat_toUInt16, hbyte, hxor]
  rw [hbyte, hbyte'] at hjoin
  exact hjoin.trans (by omega)

/-! ## Names -/

/-- A label that is read as one: its length is neither the end of the name nor a pointer. -/
structure LegibleLabel (label : String) : Prop where
  pos : 0 < label.utf8ByteSize
  le : label.utf8ByteSize ≤ 63

/-- A name of such labels. -/
def LegibleName (name : String) : Prop := ∀ label ∈ splitDots name, LegibleLabel label

/-- A label that can be read back: its length is no pointer, and it is in lower case. -/
structure ValidLabel (label : String) : Prop where
  pos : 0 < label.utf8ByteSize
  le : label.utf8ByteSize ≤ 63
  lower : ∀ c ∈ label.toList, c.toNat < 128 ∧ c.toLower = c

/-- A name of such labels. -/
def ValidName (name : String) : Prop := ∀ label ∈ splitDots name, ValidLabel label

/-- A valid label is legible. -/
theorem ValidLabel.legible {label : String} (h : ValidLabel label) : LegibleLabel label := ⟨h.pos, h.le⟩

theorem ValidName.legible {name : String} (h : ValidName name) : LegibleName name :=
  fun label hlabel => (h label hlabel).legible

/-- The bytes of a valid label are read as this label. -/
theorem Unicode.label_utf8 (U : Unicode) {label : String} (h : ValidLabel label) :
    U.label (utf8 label) = label := by
  rw [Unicode.label, utf8, U.fromUtf8Lossy_toUTF8, U.toLowercase_ascii _ fun c hc => (h.lower c hc).1]
  apply String.toList_inj.mp
  rw [String.toList_ofList]
  exact (List.map_congr_left fun c hc => (h.lower c hc).2).trans (List.map_id _)

/-- A valid name is what its bytes say. -/
theorem Unicode.name_nameBytes (U : Unicode) {name : String} (h : ValidName name) :
    U.name (nameBytes name) = name := by
  rw [Unicode.name, nameBytes, List.map_map]
  have hmap : (splitDots name).map (U.label ∘ utf8) = splitDots name :=
    (List.map_congr_left fun label hlabel => U.label_utf8 (h label hlabel)).trans (List.map_id _)
  rw [hmap, intercalate_splitDots]

/-- The length of a legible label is neither a pointer nor the end, and fits its byte. -/
theorem not_isPointer_size {label : String} (h : LegibleLabel label) :
    ¬ isPointer label.utf8ByteSize.toUInt8 ∧ label.utf8ByteSize.toUInt8 ≠ 0 ∧
      label.utf8ByteSize.toUInt8.toNat = label.utf8ByteSize := by
  have hpos := h.pos
  have hle := h.le
  have hsize : label.utf8ByteSize.toUInt8.toNat = label.utf8ByteSize := Nat.mod_eq_of_lt (by omega)
  refine ⟨?_, ?_, hsize⟩
  · rw [isPointer_iff]
    omega
  · intro hzero
    rw [hzero] at hsize
    exact absurd hsize hpos.ne

/-- One label in front of those that are laid out behind it. -/
theorem nameAt_label {data : List UInt8} {p next : ℕ} {label : String} {names : List (List UInt8)}
    (h : LegibleLabel label) (hbytes : BytesAt data p (Encoder.bytesLabel label))
    (hrest : NameAt data (p + (Encoder.bytesLabel label).length) names next) :
    NameAt data p (utf8 label :: names) next := by
  obtain ⟨hpointer, hne, hsize⟩ := not_isPointer_size h
  have hlen : data[p]? = some label.utf8ByteSize.toUInt8 := hbytes.getElem? (i := 0) rfl
  have hsplit : BytesAt data p ([label.utf8ByteSize.toUInt8] ++ utf8 label) := hbytes
  have hlabel : BytesAt data (p + 1) (utf8 label) := hsplit.right
  have hbyteLength : (utf8 label).length = label.utf8ByteSize := Encoder.HasSize.length_utf8 label
  have htake : utf8 label = (data.drop (p + 1)).take label.utf8ByteSize.toUInt8.toNat := by
    rw [hsize, ← hbyteLength]
    exact hlabel.2
  rw [htake]
  refine .label hlen hpointer hne ?_
  rw [hsize, Nat.add_assoc, ← Encoder.HasSize.length_bytesLabel]
  exact hrest

/-- The table may already have an entry for a text with more labels, whose bytes are only being
written; so nothing is asked about entries with more labels than are left. -/
theorem nameAt_labels {labels : List String} (hlegible : ∀ label ∈ labels, LegibleLabel label)
    (hdot : ∀ label ∈ labels, '.' ∉ label.toList) (data : List UInt8) (p : ℕ) (table : Labels)
    (htable : ∀ s q, table s = some q → (splitDots s).length ≤ labels.length → Referable data s q)
    (hbytes : BytesAt data p (Encoder.labels labels p table).1)
    (hnear : (Encoder.labels labels p table).2.Near) :
    NameAt data p (labels.map utf8) (p + (Encoder.labels labels p table).1.length) ∧
      ∀ s q, (Encoder.labels labels p table).2 s = some q →
        table s = some q ∨ Referable data s q := by
  induction labels generalizing p table with
  | nil => exact ⟨.stop (hbytes.getElem? (i := 0) rfl), fun _ _ h => .inl h⟩
  | cons label rest ih =>
    have hsplit : splitDots (".".intercalate (label :: rest)) = label :: rest :=
      splitDots_intercalate (List.cons_ne_nil _ _) hdot
    have hname : nameBytes (".".intercalate (label :: rest)) = (label :: rest).map utf8 := by
      rw [nameBytes, hsplit]
    cases hfound : table (".".intercalate (label :: rest)) with
    | some prevPos =>
      -- a pointer to where the text has been written
      rw [Encoder.labels_of_some hfound] at hbytes ⊢
      obtain ⟨hprev, next, htarget⟩ := htable _ _ hfound (by rw [hsplit])
      obtain ⟨hpointer, hoffset⟩ := pointer_bytes hprev
      rw [hname, ← hoffset] at htarget
      exact ⟨.pointer (hbytes.getElem? (i := 0) rfl) hpointer (hbytes.getElem? (i := 1) rfl) htarget,
        fun _ _ h => .inl h⟩
    | none =>
      rw [Encoder.labels_of_none hfound] at hbytes hnear ⊢
      set table' := Function.update table (".".intercalate (label :: rest)) (some p) with hupdate
      have hlen : (((Encoder.emit (Encoder.bytesLabel label)).andThen (Encoder.labels rest)) p
          table').1.length = (Encoder.bytesLabel label).length
            + (Encoder.labels rest (p + (Encoder.bytesLabel label).length) table').1.length :=
        List.length_append
      rw [hlen]
      -- the new entry has more labels than are left
      have htable' : ∀ s q, table' s = some q → (splitDots s).length ≤ rest.length →
          Referable data s q := by
        intro s q hs hle
        have hne : s ≠ ".".intercalate (label :: rest) := by
          rintro rfl
          rw [hsplit, List.length_cons] at hle
          omega
        rw [hupdate, Function.update_of_ne hne] at hs
        exact htable s q hs (by rw [List.length_cons]; omega)
      obtain ⟨hrest, hnew⟩ := ih (fun l hl => hlegible l (List.mem_cons_of_mem _ hl))
        (fun l hl => hdot l (List.mem_cons_of_mem _ hl)) (p + (Encoder.bytesLabel label).length)
        table' htable' (BytesAt.right hbytes) hnear
      have hall := nameAt_label (hlegible label List.mem_cons_self) (BytesAt.left hbytes) hrest
      rw [Nat.add_assoc] at hall
      refine ⟨hall, fun s q hs => ?_⟩
      rcases hnew s q hs with hold | href
      · by_cases heq : s = ".".intercalate (label :: rest)
        · rw [hupdate, heq, Function.update_self, Option.some.injEq] at hold
          subst heq hold
          have hplace := (Encoder.Grows.labels rest).near_of_near hnear _ p (Function.update_self ..)
          exact .inr ⟨hplace, _, (congrArg (NameAt data p · _) hname).mpr hall⟩
        · rw [hupdate, Function.update_of_ne heq] at hold
          exact .inl hold
      · exact .inr href

/-- **Names are laid out**, and the table stays sound. -/
theorem Encoder.LaysOut.qname {name : String} (h : LegibleName name) :
    (Encoder.qname name).LaysOut fun data p q => NameAt data p (nameBytes name) q where
  grows := .labels _
  lays data p table htable hbytes hnear := by
    obtain ⟨hname, hnew⟩ := nameAt_labels h (fun _ hl => dot_not_mem_of_mem_splitDots hl) data p
      table (fun s q hs _ => htable s q hs) hbytes hnear
    refine ⟨hname, fun s q hs => ?_⟩
    rcases hnew s q hs with hold | href
    · exact htable s q hold
    · exact href
