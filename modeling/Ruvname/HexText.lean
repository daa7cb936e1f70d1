/-
# The text of a byte string

`from_hex` of `commons/mod.rs` and `visit_str` of `bytes.rs`.  The reader refuses a text of odd
length before it looks at the digits.  A text of even length is trimmed, cut into slices of two
bytes and parsed, and what fails on the way panics: the reader is right about a text exactly when
its length is odd or it has nothing but digits.
-/
import Ruvname.Preimage

open Exec

/-! ## A text cut at a character -/

theorem notMem_takeWhile_ne {c : Char} {s : List Char} : c ∉ s.takeWhile (· ≠ c) := by
  intro hmem
  simpa using List.mem_takeWhile_imp hmem

/-- What the front stops at is the character. -/
theorem eq_of_dropWhile_ne {c x : Char} {s rest : List Char} (h : s.dropWhile (· ≠ c) = x :: rest) :
    s = s.takeWhile (· ≠ c) ++ c :: rest := by
  have hhead := List.head_dropWhile_not (fun x => decide (x ≠ c)) (l := s)
    (by rw [h]; exact List.cons_ne_nil _ _)
  have hx : x = c := by
    simp only [h, List.head_cons] at hhead
    simpa using hhead
  have hsplit := List.takeWhile_append_dropWhile (p := fun x => decide (x ≠ c)) (l := s)
  rw [h, hx] at hsplit
  exact hsplit.symm

/-! ## What a text denotes -/

/-- A hexadecimal digit, of either case. -/
def IsHexDigit (c : Char) : Prop :=
  ('0' ≤ c ∧ c ≤ '9') ∨ ('A' ≤ c ∧ c ≤ 'F') ∨ ('a' ≤ c ∧ c ≤ 'f')

instance : DecidablePred IsHexDigit := fun _ => inferInstanceAs (Decidable (_ ∨ _))

/-- Two digits for each byte, the higher one first. -/
inductive Denotes : List Char → List UInt8 → Prop
  | nil : Denotes [] []
  | cons {c d : Char} {high low : ℕ} {rest : List Char} {data : List UInt8}
      (hhigh : hexValue c = some high) (hlow : hexValue d = some low) (hrest : Denotes rest data) :
      Denotes (c :: d :: rest) (UInt8.ofNat (high * 16 + low) :: data)

/-- **The reader decodes a text**: it returns, and accepts the text exactly with the bytes that it
denotes. -/
structure DecodesHex (checks : Bool) (s : String) : Prop where
  returns : (visitStr checks s).Returns
  accepts : ∀ b : Bytes, visitStr checks s = .ok (some b) ↔ Denotes s.toList b.data

section Digits

variable {c d : Char} {n : ℕ} {s : List Char} {data data' : List UInt8}

theorem hexValue_isSome : (hexValue c).isSome ↔ IsHexDigit c := by
  have h : IsHexDigit c ↔ (48 ≤ c.toNat ∧ c.toNat ≤ 57) ∨ (65 ≤ c.toNat ∧ c.toNat ≤ 70)
      ∨ (97 ≤ c.toNat ∧ c.toNat ≤ 102) := by
    simp only [IsHexDigit, Char.le_def, UInt32.le_iff_toNat_le]
    rfl
  rw [h]
  unfold hexValue
  dsimp only
  split_ifs <;> simp <;> omega

/-- A digit is one byte long, is not trimmed and is no sign. -/
theorem plain_of_isHexDigit (h : IsHexDigit c) :
    c.utf8Size = 1 ∧ isWhiteSpace c = false ∧ c ≠ '+' := by
  have hrange : 48 ≤ c.toNat ∧ c.toNat ≤ 102 := by
    simp only [IsHexDigit, Char.le_def, UInt32.le_iff_toNat_le] at h
    change (48 ≤ c.toNat ∧ c.toNat ≤ 57) ∨ (65 ≤ c.toNat ∧ c.toNat ≤ 70)
      ∨ (97 ≤ c.toNat ∧ c.toNat ≤ 102) at h
    omega
  refine ⟨?_, ?_, ?_⟩
  · rw [Char.utf8Size_eq_one_iff, UInt32.le_iff_toNat_le]
    show c.toNat ≤ 127
    omega
  · simp only [isWhiteSpace, decide_eq_false_iff_not]
    omega
  · rintro rfl
    exact absurd hrange.1 (by decide)

theorem hexValue_hexDigit (h : n < 16) : hexValue (hexDigit n) = some n := by
  have hall : ∀ n < 16, hexValue (hexDigit n) = some n := by decide
  exact hall n h

theorem isHexDigit_of_hexValue (h : hexValue c = some n) : IsHexDigit c :=
  hexValue_isSome.mp (by rw [h]; rfl)

namespace Denotes

theorem isHexDigit (h : Denotes s data) : ∀ c ∈ s, IsHexDigit c := by
  induction h with
  | nil => simp
  | cons hhigh hlow _ ih =>
    rintro e (_ | ⟨_, _ | ⟨_, he⟩⟩)
    · exact isHexDigit_of_hexValue hhigh
    · exact isHexDigit_of_hexValue hlow
    · exact ih e he

theorem length_eq (h : Denotes s data) : s.length = 2 * data.length := by
  induction h with
  | nil => rfl
  | cons _ _ _ ih =>
    simp only [List.length_cons, ih]
    omega

theorem unique (h : Denotes s data) (h' : Denotes s data') : data = data' := by
  induction h generalizing data' with
  | nil =>
    cases h'
    rfl
  | cons hhigh hlow _ ih =>
    cases h' with
    | cons hhigh' hlow' hrest' =>
      rw [hhigh, Option.some.injEq] at hhigh'
      rw [hlow, Option.some.injEq] at hlow'
      rw [hhigh', hlow', ih hrest']

end Denotes

/-- An even number of digits denotes bytes. -/
theorem exists_denotes : ∀ {s : List Char}, s.length % 2 = 0 → (∀ c ∈ s, IsHexDigit c) →
    ∃ data, Denotes s data
  | [], _, _ => ⟨[], .nil⟩
  | [_], heven, _ => by cases heven
  | c :: d :: rest, heven, hdigits => by
    obtain ⟨high, hhigh⟩ := Option.isSome_iff_exists.mp (hexValue_isSome.mpr (hdigits c (by simp)))
    obtain ⟨low, hlow⟩ := Option.isSome_iff_exists.mp (hexValue_isSome.mpr (hdigits d (by simp)))
    have hrest : rest.length % 2 = 0 := by
      rw [List.length_cons, List.length_cons] at heven
      omega
    obtain ⟨data, h⟩ := exists_denotes hrest fun e he =>
      hdigits e (List.mem_cons_of_mem _ (List.mem_cons_of_mem _ he))
    exact ⟨_, .cons hhigh hlow h⟩

/-- **The texts that denote bytes**: those that consist of an even number of digits. -/
theorem exists_denotes_iff : (∃ data, Denotes s data) ↔ s.length % 2 = 0 ∧ ∀ c ∈ s, IsHexDigit c := by
  constructor
  · rintro ⟨data, h⟩
    exact ⟨by rw [h.length_eq]; omega, h.isHexDigit⟩
  · rintro ⟨heven, hdigits⟩
    exact exists_denotes heven hdigits

/-- A text of digits is as long as it has digits. -/
theorem utf8ByteSize_of_digits {s : String} (h : ∀ c ∈ s.toList, IsHexDigit c) :
    s.utf8ByteSize = s.toList.length := by
  rw [← utf8ByteSize_ofList fun c hc => (plain_of_isHexDigit (h c hc)).1, String.ofList_toList]

theorem trim_of_plain (h : ∀ c ∈ s, isWhiteSpace c = false) : trim s = s := by
  have hdrop : ∀ l : List Char, (∀ c ∈ l, isWhiteSpace c = false) → l.dropWhile isWhiteSpace = l := by
    intro l hl
    rw [List.dropWhile_eq_self_iff]
    intro hpos
    simp [hl _ (List.getElem_mem hpos)]
  unfold trim
  rw [hdrop s h, hdrop s.reverse (fun c hc => h c (List.mem_reverse.mp hc)), List.reverse_reverse]

/-- The slices of a text of digits are parsed to what it denotes. -/
theorem slicesOfTwo_of_denotes (h : Denotes s data) :
    ∃ slices, slicesOfTwo s = .ok slices ∧ slices.mapM fromStrRadix = some data := by
  induction h with
  | nil => exact ⟨[], rfl, rfl⟩
  | @cons c d high low rest data hhigh hlow hrest ih =>
    obtain ⟨slices, hslices, hparsed⟩ := ih
    obtain ⟨hc, -, hplus⟩ := plain_of_isHexDigit (isHexDigit_of_hexValue hhigh)
    obtain ⟨hd, -, -⟩ := plain_of_isHexDigit (isHexDigit_of_hexValue hlow)
    refine ⟨[c, d] :: slices, ?_, ?_⟩
    · rw [slicesOfTwo, hc, hd, if_neg (by decide), if_pos ⟨rfl, rfl⟩, hslices]
      rfl
    · have hbyte : fromStrRadix [c, d] = some (UInt8.ofNat (high * 16 + low)) := by
        rw [fromStrRadix, if_neg hplus, hhigh, hlow]
        rfl
      rw [List.mapM_cons, hbyte, hparsed]
      rfl

end Digits

/-! ## The reader on texts of digits, and on others -/

section Reading

variable {checks : Bool} {s : String}

/-- A text that denotes bytes is read as these bytes. -/
theorem visitStr_of_denotes {data : List UInt8} (h : Denotes s.toList data) :
    visitStr checks s = .ok (some ⟨data⟩) := by
  have hsize := utf8ByteSize_of_digits h.isHexDigit
  have hlength := h.length_eq
  unfold visitStr
  by_cases hne : s = ""
  · subst hne
    rw [if_pos rfl, h.unique .nil]
    rfl
  · have hpos : s.utf8ByteSize ≠ 0 := fun h0 => hne (String.utf8ByteSize_eq_zero_iff.mp h0)
    obtain ⟨slices, hslices, hparsed⟩ := slicesOfTwo_of_denotes h
    have hplain : trim s.toList = s.toList :=
      trim_of_plain fun c hc => (plain_of_isHexDigit (h.isHexDigit c hc)).2.1
    rw [if_neg hne, if_pos (by omega), fromHex, hplain, splitN, String.ofList_toList,
      if_neg (by omega), hslices, ok_bind, hparsed]
    rfl

/-- A text of odd length is refused. -/
theorem visitStr_odd (h : s.utf8ByteSize % 2 = 1) : visitStr checks s = .ok none := by
  unfold visitStr
  rw [if_neg (by rintro rfl; cases h), if_neg (by omega)]

/-- A text of even length is never refused: it is accepted, or the reader panics. -/
theorem visitStr_even (h : s.utf8ByteSize % 2 = 0) : visitStr checks s ≠ .ok none := by
  unfold visitStr
  rw [if_pos h]
  split
  · simp
  · cases fromHex checks s with
    | error e => simp
    | ok read => cases read <;> simp

/-- **Exactly when the reader decodes a text**: it has an odd number of bytes, or nothing but
digits. -/
theorem decodesHex_iff :
    DecodesHex checks s ↔ s.utf8ByteSize % 2 = 1 ∨ ∀ c ∈ s.toList, IsHexDigit c := by
  constructor
  · rintro ⟨⟨read, hread⟩, haccepts⟩
    rcases Nat.mod_two_eq_zero_or_one s.utf8ByteSize with heven | hodd
    · right
      cases read with
      | none => exact absurd hread (visitStr_even heven)
      | some b => exact ((haccepts b).mp hread).isHexDigit
    · exact Or.inl hodd
  · intro h
    by_cases hdenotes : ∃ data, Denotes s.toList data
    · obtain ⟨data, hdata⟩ := hdenotes
      have hread : visitStr checks s = .ok (some ⟨data⟩) := visitStr_of_denotes hdata
      refine ⟨⟨_, hread⟩, fun b => ?_⟩
      rw [hread, Except.ok.injEq, Option.some.injEq]
      constructor
      · rintro rfl
        exact hdata
      · intro hb
        rw [hdata.unique hb]
    · have hodd : s.utf8ByteSize % 2 = 1 := by
        rcases h with hodd | hdigits
        · exact hodd
        · by_contra hne
          rw [utf8ByteSize_of_digits hdigits] at hne
          exact hdenotes (exists_denotes_iff.mpr ⟨by omega, hdigits⟩)
      refine ⟨⟨_, visitStr_odd hodd⟩, fun b => ?_⟩
      rw [visitStr_odd hodd]
      constructor
      · intro hread
        cases hread
      · intro hb
        exact absurd ⟨_, hb⟩ hdenotes

end Reading

/-! ## There and back -/

/-- The digits of a byte. -/
def byteDigits (x : UInt8) : List Char := [hexDigit (x.toNat / 16), hexDigit (x.toNat % 16)]

theorem toList_toHex (data : List UInt8) : (toHex data).toList = data.flatMap byteDigits := by
  rw [toHex, String.toList_ofList]
  rfl

/-- What is written denotes the bytes. -/
theorem denotes_toHex (data : List UInt8) : Denotes (toHex data).toList data := by
  rw [toList_toHex]
  induction data with
  | nil => exact .nil
  | cons x data ih =>
    have hbound := x.toNat_lt
    have hbyte : UInt8.ofNat (x.toNat / 16 * 16 + x.toNat % 16) = x := by
      rw [show x.toNat / 16 * 16 + x.toNat % 16 = x.toNat from by omega, UInt8.ofNat_toNat]
    have h := Denotes.cons (hexValue_hexDigit (n := x.toNat / 16) (by omega))
      (hexValue_hexDigit (n := x.toNat % 16) (by omega)) ih
    rw [hbyte] at h
    exact h

/-- **A byte string survives its text.** -/
theorem visitStr_toHex (checks : Bool) (b : Bytes) : visitStr checks (toHex b.data) = .ok (some b) :=
  visitStr_of_denotes (denotes_toHex b.data)

/-- **Byte strings and their texts**: every byte string survives its text, and a text is decoded
exactly if it has an odd number of bytes or nothing but digits. -/
theorem Bytes.visitStr_iff (checks : Bool) :
    (∀ b : Bytes, visitStr checks (toHex b.data) = .ok (some b)) ∧
      ∀ s : String, DecodesHex checks s ↔
        (s.utf8ByteSize % 2 = 1 ∨ ∀ c ∈ s.toList, IsHexDigit c) :=
  ⟨visitStr_toHex checks, fun _ => decodesHex_iff⟩

/-- A text that is not hexadecimal panics, and one with a plus sign is accepted. -/
theorem Bytes.not_decodesHex_zz :
    (∀ checks, visitStr checks "zz" = .error (.expect "called `Result::unwrap()` on an `Err` value") ∧
      ¬ DecodesHex checks "zz") ∧
    ∀ checks, visitStr checks "+F" = .ok (some ⟨[15]⟩) ∧ ¬ DecodesHex checks "+F" := by
  constructor
  · intro checks
    have hzz : visitStr checks "zz" = .error (.expect "called `Result::unwrap()` on an `Err` value") := by
      cases checks <;> decide +kernel
    refine ⟨hzz, fun h => ?_⟩
    obtain ⟨read, hread⟩ := h.returns
    rw [hzz] at hread
    cases hread
  · intro checks
    have hplus : visitStr checks "+F" = .ok (some ⟨[15]⟩) := by
      cases checks <;> decide +kernel
    refine ⟨hplus, fun h => ?_⟩
    exact absurd (((h.accepts ⟨[15]⟩).mp hplus).isHexDigit '+' (by decide)) (by decide)
