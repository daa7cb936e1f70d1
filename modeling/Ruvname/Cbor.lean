/-
# Concise binary objects

A small library: the part of CBOR that structures of integers, texts, sequences and maps with
text keys are written in, with definite lengths and the shortest heads, and a reader of it.
The reader gives back what was written (`Cbor.fromSlice_toVec`).
-/
import Mathlib.Data.List.Basic
import Mathlib.Tactic.Ring

/-- A value.  `nint n` stands for `-1 - n`. -/
inductive Cbor where
  | uint (n : UInt64)
  | nint (n : UInt64)
  | byteString (data : List UInt8)
  | text (s : String)
  | array (xs : List Cbor)
  | map (xs : List (String × Cbor))
  | bool (value : Bool)
  | null

namespace Cbor

variable {α : Type}

/-! ## Writing -/

/-- The last `w` bytes of a number, the most significant first. -/
def bigEndian : ℕ → ℕ → List UInt8
  | 0, _ => []
  | w + 1, n => bigEndian w (n / 256) ++ [UInt8.ofNat n]

/-- The exponent of the width of an argument that does not fit the first byte. -/
def widthExponent (n : ℕ) : ℕ :=
  if n < 2 ^ 8 then 0 else if n < 2 ^ 16 then 1 else if n < 2 ^ 32 then 2 else 3

/-- A major type and its argument. -/
def head (major n : ℕ) : List UInt8 :=
  if n < 24 then [UInt8.ofNat (major * 32 + n)]
  else UInt8.ofNat (major * 32 + 24 + widthExponent n) :: bigEndian (2 ^ widthExponent n) n

def encodeText (s : String) : List UInt8 := head 3 s.utf8ByteSize ++ s.toUTF8.data.toList

mutual

/-- The bytes of a value. -/
def encode : Cbor → List UInt8
  | .uint n => head 0 n.toNat
  | .nint n => head 1 n.toNat
  | .byteString data => head 2 data.length ++ data
  | .text s => encodeText s
  | .array xs => head 4 xs.length ++ encodeArray xs
  | .map xs => head 5 xs.length ++ encodeMap xs
  | .bool value => [if value then 0xf5 else 0xf4]
  | .null => [0xf6]

def encodeArray : List Cbor → List UInt8
  | [] => []
  | x :: xs => encode x ++ encodeArray xs

def encodeMap : List (String × Cbor) → List UInt8
  | [] => []
  | (key, x) :: xs => encodeText key ++ (encode x ++ encodeMap xs)

end

/-! ## Reading -/

def ofBigEndian (bytes : List UInt8) : ℕ := bytes.foldl (fun acc x => acc * 256 + x.toNat) 0

/-- The first `n` bytes, if there are that many. -/
def takeBytes (n : ℕ) (bytes : List UInt8) : Option (List UInt8 × List UInt8) :=
  if n ≤ bytes.length then some (bytes.take n, bytes.drop n) else none

/-- The major type and its argument. -/
def decodeHead : List UInt8 → Option (ℕ × ℕ × List UInt8)
  | [] => none
  | first :: rest =>
    let info := first.toNat % 32
    if info < 24 then some (first.toNat / 32, info, rest)
    else if info ≤ 27 then do
      let (bytes, rest) ← takeBytes (2 ^ (info - 24)) rest
      some (first.toNat / 32, ofBigEndian bytes, rest)
    else none

/-- The text of `n` bytes. -/
def readText (n : ℕ) (bytes : List UInt8) : Option (String × List UInt8) := do
  let (data, rest) ← takeBytes n bytes
  let s ← String.fromUTF8? ⟨data.toArray⟩
  some (s, rest)

def decodeText (bytes : List UInt8) : Option (String × List UInt8) := do
  let (major, n, rest) ← decodeHead bytes
  if major = 3 then readText n rest else none

/-- `n` items one after the other. -/
def decodeMany (item : List UInt8 → Option (α × List UInt8)) :
    ℕ → List UInt8 → Option (List α × List UInt8)
  | 0, bytes => some ([], bytes)
  | n + 1, bytes => do
    let (x, rest) ← item bytes
    let (xs, rest) ← decodeMany item n rest
    some (x :: xs, rest)

def decodePair (item : List UInt8 → Option (α × List UInt8)) (bytes : List UInt8) :
    Option ((String × α) × List UInt8) := do
  let (key, rest) ← decodeText bytes
  let (x, rest) ← item rest
  some ((key, x), rest)

/-- A value from the front of the bytes; `fuel` bounds its depth. -/
def decode : ℕ → List UInt8 → Option (Cbor × List UInt8)
  | 0, _ => none
  | fuel + 1, bytes => do
    let (major, n, rest) ← decodeHead bytes
    match major with
    | 0 => some (.uint (UInt64.ofNat n), rest)
    | 1 => some (.nint (UInt64.ofNat n), rest)
    | 2 => do
      let (data, rest) ← takeBytes n rest
      some (.byteString data, rest)
    | 3 => do
      let (s, rest) ← readText n rest
      some (.text s, rest)
    | 4 => do
      let (xs, rest) ← decodeMany (decode fuel) n rest
      some (.array xs, rest)
    | 5 => do
      let (xs, rest) ← decodeMany (decodePair (decode fuel)) n rest
      some (.map xs, rest)
    | 7 =>
      match bytes.head? with
      | some 0xf4 => some (.bool false, rest)
      | some 0xf5 => some (.bool true, rest)
      | some 0xf6 => some (.null, rest)
      | _ => none
    | _ => none

/-- `to_vec`. -/
def toVec (v : Cbor) : List UInt8 := v.encode

/-- `from_slice`: one value and nothing after it. -/
def fromSlice (bytes : List UInt8) : Option Cbor :=
  match decode bytes.length bytes with
  | some (v, []) => some v
  | _ => none

/-! ## Reading what was written -/

/-- A number is written with the width that was chosen. -/
theorem length_bigEndian (w n : ℕ) : (bigEndian w n).length = w := by
  induction w generalizing n with
  | zero => rfl
  | succ w ih => rw [bigEndian, List.length_append, ih, List.length_singleton]

/-- A number that fits its width is read back. -/
theorem ofBigEndian_bigEndian {w n : ℕ} (h : n < 256 ^ w) : ofBigEndian (bigEndian w n) = n := by
  induction w generalizing n with
  | zero =>
    rw [pow_zero] at h
    show 0 = n
    omega
  | succ w ih =>
    rw [pow_succ'] at h
    have hhigh := ih (Nat.div_lt_of_lt_mul h)
    unfold ofBigEndian at hhigh ⊢
    rw [bigEndian, List.foldl_append, hhigh]
    show n / 256 * 256 + (UInt8.ofNat n).toNat = n
    rw [UInt8.toNat_ofNat']
    omega

/-- As many bytes as were written are taken. -/
theorem takeBytes_append {n : ℕ} {bytes : List UInt8} (h : bytes.length = n) (rest : List UInt8) :
    takeBytes n (bytes ++ rest) = some (bytes, rest) := by
  subst h
  simp [takeBytes]

/-- At most eight bytes are used. -/
theorem widthExponent_le (n : ℕ) : widthExponent n ≤ 3 := by
  unfold widthExponent
  split_ifs <;> omega

/-- A number fits the width that is chosen for it. -/
theorem lt_of_widthExponent {n : ℕ} (h : n < 2 ^ 64) : n < 256 ^ 2 ^ widthExponent n := by
  unfold widthExponent
  split_ifs with h₈ h₁₆ h₃₂
  · exact h₈
  · exact h₁₆
  · exact h₃₂
  · exact h

/-- The head of a value is read back, whatever follows it. -/
theorem decodeHead_head {major n : ℕ} (hmajor : major < 8) (hn : n < 2 ^ 64) (rest : List UInt8) :
    decodeHead (head major n ++ rest) = some (major, n, rest) := by
  unfold head
  by_cases hsmall : n < 24
  · have hfirst : (UInt8.ofNat (major * 32 + n)).toNat = major * 32 + n := by
      rw [UInt8.toNat_ofNat']
      omega
    rw [if_pos hsmall, List.singleton_append, decodeHead, hfirst]
    simp only
    rw [if_pos (by omega), show (major * 32 + n) / 32 = major from by omega,
      show (major * 32 + n) % 32 = n from by omega]
  · have hwidth := widthExponent_le n
    have hfirst : (UInt8.ofNat (major * 32 + 24 + widthExponent n)).toNat
        = major * 32 + 24 + widthExponent n := by
      rw [UInt8.toNat_ofNat']
      omega
    rw [if_neg hsmall, List.cons_append, decodeHead, hfirst]
    simp only
    rw [if_neg (by omega), if_pos (by omega),
      show (major * 32 + 24 + widthExponent n) % 32 - 24 = widthExponent n from by omega,
      show (major * 32 + 24 + widthExponent n) / 32 = major from by omega,
      takeBytes_append (length_bigEndian _ _)]
    show some (major, ofBigEndian (bigEndian _ n), rest) = _
    rw [ofBigEndian_bigEndian (lt_of_widthExponent hn)]

/-- A head is never empty, so the reader gets on with every value. -/
theorem head_pos (major n : ℕ) : 0 < (head major n).length := by
  unfold head
  split
  · exact Nat.one_pos
  · exact Nat.succ_pos _

/-- The bytes of a text are read as this text. -/
theorem readText_utf8 (s : String) (rest : List UInt8) :
    readText s.utf8ByteSize (s.toUTF8.data.toList ++ rest) = some (s, rest) := by
  have hlength : s.toUTF8.data.toList.length = s.utf8ByteSize := by
    rw [Array.length_toList]
    rfl
  have htext : String.fromUTF8? ⟨s.toUTF8.data.toList.toArray⟩ = some s := by
    rw [Array.toArray_toList]
    show String.fromUTF8? s.toUTF8 = some s
    unfold String.fromUTF8?
    rw [String.toUTF8_eq_toByteArray, dif_pos s.isValidUTF8]
    rfl
  unfold readText
  rw [takeBytes_append hlength]
  show (String.fromUTF8? ⟨s.toUTF8.data.toList.toArray⟩ >>= fun s => some (s, rest)) = _
  rw [htext]
  rfl

/-- A text is read back. -/
theorem decodeText_encodeText {s : String} (hs : s.utf8ByteSize < 2 ^ 64) (rest : List UInt8) :
    decodeText (encodeText s ++ rest) = some (s, rest) := by
  unfold decodeText encodeText
  rw [List.append_assoc, decodeHead_head (by decide) hs]
  exact readText_utf8 s rest

/-- The bytes of a text are all there. -/
theorem size_le_encodeText (s : String) : s.utf8ByteSize ≤ (encodeText s).length := by
  have hlength : s.toUTF8.data.toList.length = s.utf8ByteSize := by
    rw [Array.length_toList]
    rfl
  rw [encodeText, List.length_append, hlength]
  omega

/-- No value is written as nothing. -/
theorem encode_pos (v : Cbor) : 0 < (encode v).length := by
  cases v with
  | uint n => rw [encode]; exact head_pos _ _
  | nint n => rw [encode]; exact head_pos _ _
  | byteString data => rw [encode, List.length_append]; have := head_pos 2 data.length; omega
  | text s => rw [encode, encodeText, List.length_append]; have := head_pos 3 s.utf8ByteSize; omega
  | array xs => rw [encode, List.length_append]; have := head_pos 4 xs.length; omega
  | map xs => rw [encode, List.length_append]; have := head_pos 5 xs.length; omega
  | bool value => rw [encode]; exact Nat.one_pos
  | null => rw [encode]; exact Nat.one_pos

/-- An array takes at least a byte for each item, so its length bounds the fuel. -/
theorem length_le_encodeArray (xs : List Cbor) : xs.length ≤ (encodeArray xs).length := by
  induction xs with
  | nil => exact Nat.zero_le _
  | cons x xs ih =>
    rw [encodeArray, List.length_append, List.length_cons]
    have := encode_pos x
    omega

/-- So does a map. -/
theorem length_le_encodeMap (xs : List (String × Cbor)) : xs.length ≤ (encodeMap xs).length := by
  induction xs with
  | nil => exact Nat.zero_le _
  | cons x xs ih =>
    obtain ⟨key, x⟩ := x
    rw [encodeMap, List.length_append, List.length_append, List.length_cons]
    have := encode_pos x
    omega

/-- A member of a map is part of it. -/
theorem length_encode_le {name : String} {v : Cbor} {xs : List (String × Cbor)}
    (h : (name, v) ∈ xs) : (encode v).length ≤ (encode (.map xs)).length := by
  have hmap : (encode v).length ≤ (encodeMap xs).length := by
    induction xs with
    | nil => cases h
    | cons x xs ih =>
      obtain ⟨key, w⟩ := x
      rw [encodeMap, List.length_append, List.length_append]
      rcases List.mem_cons.mp h with heq | hrest
      · rw [Prod.mk.injEq] at heq
        rw [heq.2]
        omega
      · have := ih hrest
        omega
  rw [encode, List.length_append]
  omega

mutual

/-- **A value is read back**, whatever follows it. -/
theorem decode_encode (v : Cbor) {fuel : ℕ} (hlength : (encode v).length ≤ fuel)
    (hfuel : fuel < 2 ^ 64) (rest : List UInt8) : decode fuel (encode v ++ rest) = some (v, rest) := by
  have hpos := encode_pos v
  obtain ⟨fuel, rfl⟩ : ∃ k, fuel = k + 1 := ⟨fuel - 1, by omega⟩
  cases v with
  | uint n =>
    rw [encode, decode, decodeHead_head (by decide) n.toNat_lt]
    show some (Cbor.uint (UInt64.ofNat n.toNat), rest) = _
    rw [UInt64.ofNat_toNat]
  | nint n =>
    rw [encode, decode, decodeHead_head (by decide) n.toNat_lt]
    show some (Cbor.nint (UInt64.ofNat n.toNat), rest) = _
    rw [UInt64.ofNat_toNat]
  | byteString data =>
    rw [encode, List.length_append] at hlength
    rw [encode, decode, List.append_assoc, decodeHead_head (by decide) (by omega)]
    show (takeBytes data.length (data ++ rest) >>= fun r => some (Cbor.byteString r.1, r.2)) = _
    rw [takeBytes_append rfl]
    rfl
  | text s =>
    rw [encode] at hlength
    have hsize := size_le_encodeText s
    rw [encode, decode, encodeText, List.append_assoc, decodeHead_head (by decide) (by omega)]
    show (readText s.utf8ByteSize (s.toUTF8.data.toList ++ rest) >>= fun r => some (Cbor.text r.1, r.2)) = _
    rw [readText_utf8]
    rfl
  | array xs =>
    rw [encode, List.length_append] at hlength
    have hhead := head_pos 4 xs.length
    have hcount := length_le_encodeArray xs
    rw [encode, decode, List.append_assoc, decodeHead_head (by decide) (by omega)]
    show (decodeMany (decode fuel) xs.length (encodeArray xs ++ rest)
      >>= fun r => some (Cbor.array r.1, r.2)) = _
    rw [decodeMany_encodeArray xs (by omega) (by omega)]
    rfl
  | map xs =>
    rw [encode, List.length_append] at hlength
    have hhead := head_pos 5 xs.length
    have hcount := length_le_encodeMap xs
    rw [encode, decode, List.append_assoc, decodeHead_head (by decide) (by omega)]
    show (decodeMany (decodePair (decode fuel)) xs.length (encodeMap xs ++ rest)
      >>= fun r => some (Cbor.map r.1, r.2)) = _
    rw [decodeMany_encodeMap xs (by omega) (by omega)]
    rfl
  | bool value =>
    rw [encode, decode]
    cases value <;> rfl
  | null =>
    rw [encode, decode]
    rfl

/-- The items of an array are read back one after another. -/
theorem decodeMany_encodeArray (xs : List Cbor) {fuel : ℕ} (hlength : (encodeArray xs).length ≤ fuel)
    (hfuel : fuel < 2 ^ 64) (rest : List UInt8) :
    decodeMany (decode fuel) xs.length (encodeArray xs ++ rest) = some (xs, rest) := by
  cases xs with
  | nil => rfl
  | cons x xs =>
    rw [encodeArray, List.length_append] at hlength
    rw [encodeArray, List.append_assoc, List.length_cons, decodeMany,
      decode_encode x (by omega) hfuel]
    show (decodeMany (decode fuel) xs.length (encodeArray xs ++ rest)
      >>= fun r => some (x :: r.1, r.2)) = _
    rw [decodeMany_encodeArray xs (by omega) hfuel]
    rfl

/-- The members of a map are read back, each with its name. -/
theorem decodeMany_encodeMap (xs : List (String × Cbor)) {fuel : ℕ}
    (hlength : (encodeMap xs).length ≤ fuel) (hfuel : fuel < 2 ^ 64) (rest : List UInt8) :
    decodeMany (decodePair (decode fuel)) xs.length (encodeMap xs ++ rest) = some (xs, rest) := by
  match xs with
  | [] => rfl
  | (key, x) :: xs =>
    rw [encodeMap, List.length_append, List.length_append] at hlength
    have hsize := size_le_encodeText key
    have hpair : decodePair (decode fuel) (encodeText key ++ (encode x ++ encodeMap xs) ++ rest)
        = some ((key, x), encodeMap xs ++ rest) := by
      rw [decodePair, List.append_assoc, decodeText_encodeText (by omega), List.append_assoc]
      show (decode fuel (encode x ++ (encodeMap xs ++ rest)) >>= fun r => some ((key, r.1), r.2)) = _
      rw [decode_encode x (by omega) hfuel]
      rfl
    rw [encodeMap, List.length_cons, decodeMany, hpair]
    show (decodeMany (decodePair (decode fuel)) xs.length (encodeMap xs ++ rest)
      >>= fun r => some ((key, x) :: r.1, r.2)) = _
    rw [decodeMany_encodeMap xs (by omega) hfuel]
    rfl

end

/-- **Round trip.** -/
theorem fromSlice_toVec {v : Cbor} (h : v.toVec.length < 2 ^ 64) : fromSlice v.toVec = some v := by
  have hdecode := decode_encode v (le_refl _) h []
  rw [List.append_nil] at hdecode
  unfold fromSlice toVec
  rw [hdecode]

/-! ## Structures with members that may be left out -/

/-- The map of the members that are present. -/
def present (fields : List (String × Option Cbor)) : List (String × Cbor) :=
  fields.filterMap fun field => field.2.map fun v => (field.1, v)

/-- The value of a member, if there is one.  `none` is a member that occurs twice. -/
def field (name : String) (members : List (String × Cbor)) : Option (Option Cbor) :=
  match members.filter fun m => m.1 = name with
  | [] => some none
  | [m] => some (some m.2)
  | _ => none

/-- A member that is not left out is written. -/
theorem mem_present {fields : List (String × Option Cbor)} {name : String} {v : Cbor}
    (h : (name, some v) ∈ fields) : (name, v) ∈ present fields :=
  List.mem_filterMap.mpr ⟨_, h, rfl⟩

/-- No other name occurs among the members. -/
theorem filter_present_of_not_mem {fields : List (String × Option Cbor)} {name : String}
    (h : name ∉ fields.map Prod.fst) : ((present fields).filter fun m => m.1 = name) = [] := by
  rw [List.filter_eq_nil_iff]
  intro m hm
  obtain ⟨entry, hentry, hvalue⟩ := List.mem_filterMap.mp hm
  obtain ⟨v, -, rfl⟩ := Option.map_eq_some_iff.mp hvalue
  simp only [decide_eq_true_eq]
  rintro rfl
  exact h (List.mem_map_of_mem hentry)

/-- A member is found, or found to be left out, among the present ones. -/
theorem field_present {fields : List (String × Option Cbor)} (hnodup : (fields.map Prod.fst).Nodup)
    {name : String} {v : Option Cbor} (hmem : (name, v) ∈ fields) :
    field name (present fields) = some v := by
  induction fields with
  | nil => cases hmem
  | cons entry fields ih =>
    obtain ⟨key, other⟩ := entry
    rw [List.map_cons, List.nodup_cons] at hnodup
    rcases List.mem_cons.mp hmem with heq | hrest
    · -- the member itself: it does not occur again
      rw [Prod.mk.injEq] at heq
      obtain ⟨rfl, rfl⟩ := heq
      have hothers := filter_present_of_not_mem hnodup.1
      unfold field
      cases v with
      | none =>
        rw [show present ((name, none) :: fields) = present fields from rfl, hothers]
      | some v =>
        rw [show present ((name, some v) :: fields) = (name, v) :: present fields from rfl,
          List.filter_cons_of_pos (by simp), hothers]
    · have hne : key ≠ name := by
        rintro rfl
        exact hnodup.1 (List.mem_map.mpr ⟨_, hrest, rfl⟩)
      rw [← ih hnodup.2 hrest]
      unfold field
      cases other with
      | none => rfl
      | some w =>
        rw [show present ((key, some w) :: fields) = (key, w) :: present fields from rfl,
          List.filter_cons_of_neg (by simp [hne])]

end Cbor
