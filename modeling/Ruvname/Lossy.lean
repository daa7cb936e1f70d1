/-
# Decoding text with replacement

`String::from_utf8_lossy` as it is documented: bytes are decoded character by character; where no
character can be decoded, the longest beginning of one that is there, or else one byte, is replaced
by U+FFFD.  Encoded text is decoded to itself, and a byte above 127 in front of it is replaced, as
the text does not go on with a continuation byte.
-/
import Mathlib

namespace Lossy

/-! ## The decoder -/

/-- The character that the bytes begin with. -/
def char? (bytes : List UInt8) : Option Char := bytes.toByteArray.utf8DecodeChar? 0

/-- A continuation byte. -/
def isCont (x : UInt8) : Bool := x &&& 0xc0 = 0x80

/-- A character of more than one byte can begin with these two. -/
def beginsChar (x y : UInt8) : Bool :=
  (0xc2 ≤ x && x ≤ 0xdf && isCont y) || (x = 0xe0 && 0xa0 ≤ y && y ≤ 0xbf) ||
  (0xe1 ≤ x && x ≤ 0xec && isCont y) || (x = 0xed && 0x80 ≤ y && y ≤ 0x9f) ||
  (0xee ≤ x && x ≤ 0xef && isCont y) || (x = 0xf0 && 0x90 ≤ y && y ≤ 0xbf) ||
  (0xf1 ≤ x && x ≤ 0xf3 && isCont y) || (x = 0xf4 && 0x80 ≤ y && y ≤ 0x8f)

/-- How many bytes are replaced where no character can be decoded. -/
def brokenLen : List UInt8 → ℕ
  | x :: y :: z :: _ => if beginsChar x y then (if 0xf0 ≤ x && isCont z then 3 else 2) else 1
  | [x, y] => if beginsChar x y then 2 else 1
  | _ => 1

/-- The characters behind the first `skip` bytes. -/
def decode : ℕ → List UInt8 → List Char
  | _, [] => []
  | skip + 1, _ :: bytes => decode skip bytes
  | 0, x :: bytes =>
    match char? (x :: bytes) with
    | some c => c :: decode (c.utf8Size - 1) bytes
    | none => '\uFFFD' :: decode (brokenLen (x :: bytes) - 1) bytes

/-- `String::from_utf8_lossy`. -/
def fromUtf8Lossy (bytes : List UInt8) : String := String.ofList (decode 0 bytes)

/-! ## Encoded text -/

/-- The bytes of characters. -/
def encode (cs : List Char) : List UInt8 := cs.flatMap String.utf8EncodeChar

/-- A text is encoded character by character. -/
theorem toUTF8_eq (s : String) : s.toUTF8.data.toList = encode s.toList := by
  conv_lhs => rw [← String.ofList_toList (s := s)]
  rw [String.toUTF8_eq_toByteArray, String.toByteArray_ofList]
  exact List.toList_data_toByteArray

/-- Bytes that belong to a character are skipped. -/
theorem decode_skip (xs ys : List UInt8) : decode xs.length (xs ++ ys) = decode 0 ys := by
  induction xs with
  | nil => rfl
  | cons x xs ih => exact ih

/-- The encoding of a character begins with this character. -/
theorem char?_encodeChar (c : Char) (bytes : List UInt8) :
    char? (String.utf8EncodeChar c ++ bytes) = some c := by
  rw [char?, List.toByteArray_append]
  exact ByteArray.utf8DecodeChar?_utf8EncodeChar_append

/-- The encoding of a character is decoded as this character. -/
theorem decode_encodeChar (c : Char) (bytes : List UInt8) :
    decode 0 (String.utf8EncodeChar c ++ bytes) = c :: decode 0 bytes := by
  have hchar := char?_encodeChar c bytes
  have hlength := String.length_utf8EncodeChar c
  cases hencoded : String.utf8EncodeChar c with
  | nil =>
    rw [hencoded] at hlength
    exact absurd hlength (Nat.ne_of_lt c.utf8Size_pos)
  | cons x xs =>
    rw [hencoded, List.length_cons] at hlength
    rw [hencoded, List.cons_append] at hchar
    rw [List.cons_append, decode, hchar]
    simp only
    rw [← hlength, Nat.add_sub_cancel, decode_skip]

/-- Encoded characters are decoded. -/
theorem decode_encode (cs : List Char) : decode 0 (encode cs) = cs := by
  induction cs with
  | nil => rfl
  | cons c cs ih => rw [encode, List.flatMap_cons, decode_encodeChar, ← encode, ih]

/-- **A text survives its encoding.** -/
theorem fromUtf8Lossy_toUTF8 (s : String) : fromUtf8Lossy s.toUTF8.data.toList = s := by
  rw [fromUtf8Lossy, toUTF8_eq, decode_encode, String.ofList_toList]

/-! ## A byte in front of encoded text -/

/-- The second byte of a character does not begin one. -/
theorem not_isUTF8FirstByte_of_beginsChar {x y : UInt8} (h : beginsChar x y = true) :
    ¬ y.IsUTF8FirstByte := by
  have hcont : ∀ y : UInt8, isCont y = true → 0x80 ≤ y ∧ y ≤ 0xbf := by decide +kernel
  have hnot : ∀ y : UInt8, 0x80 ≤ y ∧ y ≤ 0xbf → ¬ y.IsUTF8FirstByte := by decide +kernel
  refine hnot y ?_
  simp only [beginsChar, Bool.or_eq_true, Bool.and_eq_true, decide_eq_true_eq] at h
  rcases h with ((((((h | h) | h) | h) | h) | h) | h) | h
  · exact hcont y h.2
  · exact ⟨UInt8.le_trans (by decide) h.1.2, h.2⟩
  · exact hcont y h.2
  · exact ⟨h.1.2, UInt8.le_trans h.2 (by decide)⟩
  · exact hcont y h.2
  · exact ⟨UInt8.le_trans (by decide) h.1.2, h.2⟩
  · exact hcont y h.2
  · exact ⟨h.1.2, UInt8.le_trans h.2 (by decide)⟩

/-- Encoded text begins with the first byte of a character. -/
theorem isUTF8FirstByte_of_encode {cs : List Char} {y : UInt8}
    (h : (encode cs)[0]? = some y) : y.IsUTF8FirstByte := by
  cases cs with
  | nil => cases h
  | cons c cs =>
    have hpos : 0 < (String.utf8EncodeChar c).length := by
      rw [String.length_utf8EncodeChar]
      exact c.utf8Size_pos
    rw [encode, List.flatMap_cons, List.getElem?_append_left hpos, List.getElem?_eq_getElem hpos,
      Option.some.injEq] at h
    rw [← h]
    exact UInt8.isUTF8FirstByte_getElem_utf8EncodeChar.mpr rfl

/-- A byte above 127 and encoded text are no character together: its second byte would be the
first byte of one. -/
theorem char?_eq_none {x : UInt8} (hx : 128 ≤ x) (cs : List Char) :
    char? (x :: encode cs) = none := by
  cases hchar : char? (x :: encode cs) with
  | none => rfl
  | some c =>
    exfalso
    obtain ⟨l, hl⟩ := ByteArray.exists_of_utf8DecodeChar?_eq_some hchar
    have hbytes : x :: encode cs = String.utf8EncodeChar c ++ l.data.toList := by
      have hdata := congrArg (fun b => b.data.toList) hl
      simpa using hdata
    have hlength := String.length_utf8EncodeChar c
    by_cases hsize : c.utf8Size = 1
    · -- a character of one byte is below 128
      rw [String.utf8EncodeChar_eq_singleton hsize, List.singleton_append, List.cons.injEq] at hbytes
      have hval := UInt32.le_iff_toNat_le.mp (Char.utf8Size_eq_one_iff.mp hsize)
      have hx' := UInt8.le_iff_toNat_le.mp hx
      rw [hbytes.1, UInt32.toNat_toUInt8] at hx'
      have h128 : (128 : UInt8).toNat = 128 := rfl
      have h127 : (127 : UInt32).toNat = 127 := rfl
      omega
    · have hone : 1 < (String.utf8EncodeChar c).length := by
        have := c.utf8Size_pos
        omega
      have hsecond := congrArg (·[1]?) hbytes
      simp only [List.getElem?_cons_succ, List.getElem?_append_left hone,
        List.getElem?_eq_getElem hone] at hsecond
      exact absurd (UInt8.isUTF8FirstByte_getElem_utf8EncodeChar.mp
        (isUTF8FirstByte_of_encode hsecond)) Nat.one_ne_zero

/-- In front of encoded text a broken byte is alone. -/
theorem brokenLen_encode (x : UInt8) (cs : List Char) : brokenLen (x :: encode cs) = 1 := by
  have hnot : ∀ y, (encode cs)[0]? = some y → beginsChar x y = false := by
    intro y hy
    rw [Bool.eq_false_iff]
    exact fun h => not_isUTF8FirstByte_of_beginsChar h (isUTF8FirstByte_of_encode hy)
  cases hencoded : encode cs with
  | nil => rfl
  | cons y bytes =>
    rw [hencoded] at hnot
    cases bytes with
    | nil => simp [brokenLen, hnot y rfl]
    | cons z bytes => simp [brokenLen, hnot y rfl]

/-- Text behind a byte is decoded to one more character. -/
theorem exists_fromUtf8Lossy_cons (x : UInt8) (s : String) :
    ∃ c, fromUtf8Lossy (x :: s.toUTF8.data.toList) = String.ofList (c :: s.toList) := by
  rw [fromUtf8Lossy, toUTF8_eq]
  by_cases hx : x < 128
  · have hascii : ∀ x : UInt8, x < 128 → String.utf8EncodeChar (Char.ofUInt8 x) = [x] := by
      decide +kernel
    have hdecode := decode_encodeChar (Char.ofUInt8 x) (encode s.toList)
    rw [hascii x hx, List.singleton_append, decode_encode] at hdecode
    exact ⟨_, congrArg String.ofList hdecode⟩
  · have hnone := char?_eq_none (UInt8.not_lt.mp hx) s.toList
    refine ⟨'\uFFFD', congrArg String.ofList ?_⟩
    rw [decode, hnone]
    simp only
    rw [brokenLen_encode, Nat.sub_self, decode_encode]

end Lossy
