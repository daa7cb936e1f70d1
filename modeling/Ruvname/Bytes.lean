/-
# Byte strings, hexadecimal text and hash difficulty

`Bytes` of `bytes.rs`, `to_hex` and `from_hex` of `commons/mod.rs`, and the difficulty functions
of `hash_utils.rs`.  Equality of `Bytes` is the source's `same_hash`, a comparison that
visits every byte; `sameHash_iff` says that it is equality.
-/
import Ruvname.Exec

/-! ## Byte strings -/

/-- A byte string (`Bytes` of `bytes.rs`): hashes, keys, signatures, identities. -/
structure Bytes where
  data : List UInt8
  deriving Repr, Inhabited

/-- `same_hash`: compares the lengths, then every pair of bytes. -/
def sameHash (left right : List UInt8) : Bool :=
  if left.length ≠ right.length then false
  else (left.zip right).foldl (fun result p => if p.1 ≠ p.2 then false else result) true

/-- A difference is never forgotten. -/
theorem foldl_sameHash_false (l : List (UInt8 × UInt8)) :
    l.foldl (fun result p => if p.1 ≠ p.2 then false else result) false = false := by
  induction l with
  | nil => rfl
  | cons p l ih =>
    rw [List.foldl_cons]
    split <;> exact ih

/-- `same_hash` decides equality. -/
theorem sameHash_iff (left right : List UInt8) : sameHash left right = true ↔ left = right := by
  unfold sameHash
  induction left generalizing right with
  | nil => cases right <;> simp
  | cons x left ih =>
    cases right with
    | nil => simp
    | cons y right =>
      simp only [List.length_cons, List.zip_cons_cons, List.foldl_cons]
      by_cases hxy : x = y
      · subst hxy
        simpa using ih right
      · rw [if_pos hxy, foldl_sameHash_false]
        simp [hxy]

instance : BEq Bytes := ⟨fun a b => sameHash a.data b.data⟩

instance : LawfulBEq Bytes where
  eq_of_beq := by
    rintro ⟨a⟩ ⟨b⟩ h
    rw [(sameHash_iff a b).mp h]
  rfl := by
    intro a
    exact (sameHash_iff _ _).mpr rfl

instance : DecidableEq Bytes := instDecidableEqOfLawfulBEq

namespace Bytes

/-- `Bytes::default()`: no bytes. -/
def default : Bytes := ⟨[]⟩

def length (b : Bytes) : ℕ := b.data.length

def isEmpty (b : Bytes) : Bool := b.data.isEmpty

/-- `is_zero`: empty, or nothing but zero bytes. -/
def isZero (b : Bytes) : Bool := b.data.all (· == 0)

/-- `zero32`, the origin of a node that has none configured. -/
def zero32 : Bytes := ⟨List.replicate 32 0⟩

theorem isZero_default : default.isZero = true := rfl

end Bytes

/-! ## Hexadecimal text -/

/-- The upper-case hexadecimal digit of `n < 16`. -/
def hexDigit (n : ℕ) : Char := Char.ofNat (if n < 10 then 48 + n else 55 + n)

/-- `to_hex`: two upper-case digits for each byte. -/
def toHex (buf : List UInt8) : String :=
  String.ofList (buf.flatMap fun x => [hexDigit (x.toNat / 16), hexDigit (x.toNat % 16)])

/-! ## Hexadecimal text read back -/

/-- The Unicode property `White_Space`. -/
def isWhiteSpace (c : Char) : Bool :=
  let n := c.toNat
  (9 ≤ n ∧ n ≤ 13) ∨ n = 32 ∨ n = 0x85 ∨ n = 0xa0 ∨ n = 0x1680 ∨ (0x2000 ≤ n ∧ n ≤ 0x200a)
    ∨ n = 0x2028 ∨ n = 0x2029 ∨ n = 0x202f ∨ n = 0x205f ∨ n = 0x3000

/-- `str::trim`. -/
def trim (s : List Char) : List Char :=
  ((s.dropWhile isWhiteSpace).reverse.dropWhile isWhiteSpace).reverse

/-- The slices of two bytes.  A slice that ends inside a character, or after the text, is out
of range. -/
def slicesOfTwo : List Char → Exec (List (List Char))
  | [] => .ok []
  | [c] => if c.utf8Size = 2 then .ok [[c]] else .error .outOfRange
  | c :: d :: rest =>
    if c.utf8Size = 2 then do
      let slices ← slicesOfTwo (d :: rest)
      .ok ([c] :: slices)
    else if c.utf8Size = 1 ∧ d.utf8Size = 1 then do
      let slices ← slicesOfTwo rest
      .ok ([c, d] :: slices)
    else .error .outOfRange

/-- `split_n(s, 2)`.  On fewer than two bytes `len - 2` overflows, or wraps to a range whose first
slice is refused. -/
def splitN (checks : Bool) (s : List Char) : Exec (List (List Char)) :=
  if (String.ofList s).utf8ByteSize < 2 then .error (if checks then .overflow else .outOfRange)
  else slicesOfTwo s

/-- `to_digit(16)`. -/
def hexValue (c : Char) : Option ℕ :=
  let n := c.toNat
  if 48 ≤ n ∧ n ≤ 57 then some (n - 48)
  else if 65 ≤ n ∧ n ≤ 70 then some (n - 55)
  else if 97 ≤ n ∧ n ≤ 102 then some (n - 87)
  else none

/-- `u8::from_str_radix(_, 16)` on a slice of two bytes: a leading plus sign is allowed. -/
def fromStrRadix : List Char → Option UInt8
  | [c, d] =>
    if c = '+' then (hexValue d).map UInt8.ofNat
    else do
      let high ← hexValue c
      let low ← hexValue d
      some (UInt8.ofNat (high * 16 + low))
  | _ => none

/-- `from_hex`. -/
def fromHex (checks : Bool) (s : String) : Exec (Option (List UInt8)) := do
  let slices ← splitN checks (trim s.toList)
  .ok (slices.mapM fromStrRadix)

/-- `visit_str` of `BytesVisitor`: `none` is a refusal, a text of even length that is not
hexadecimal panics. -/
def visitStr (checks : Bool) (value : String) : Exec (Option Bytes) :=
  if value = "" then .ok (some Bytes.default)
  else if value.utf8ByteSize % 2 = 0 then do
    match ← fromHex checks value with
    | some data => .ok (some ⟨data⟩)
    | none => .error (.expect "called `Result::unwrap()` on an `Err` value")
  else .ok none

/-- The build profile decides how a text of one byte fails, and nothing else. -/
theorem splitN_checks {checks : Bool} (checks' : Bool) {s : List Char} {slices : List (List Char)}
    (h : splitN checks s = .ok slices) : splitN checks' s = .ok slices := by
  unfold splitN at h ⊢
  split_ifs at h ⊢
  exact h

/-- A text that is read is read by every build. -/
theorem visitStr_checks {checks : Bool} (checks' : Bool) {value : String} {r : Option Bytes}
    (h : visitStr checks value = .ok r) : visitStr checks' value = .ok r := by
  unfold visitStr at h ⊢
  split_ifs at h ⊢
  · exact h
  · obtain ⟨read, hread, hr⟩ := Exec.bind_eq_ok.mp h
    obtain ⟨slices, hslices, hparsed⟩ := Exec.bind_eq_ok.mp hread
    rw [fromHex, splitN_checks checks' hslices, Exec.ok_bind, hparsed]
    exact hr
  · exact h

/-! ## Big-endian reads and difficulty -/

/-- `u64::from_be_bytes` of eight bytes. -/
def fromBeBytes (bytes : List UInt8) : ℕ := bytes.foldl (fun acc x => acc * 256 + x.toNat) 0

/-- `u64::leading_zeros`. -/
def leadingZeros (x : ℕ) : ℕ := if x = 0 then 64 else 63 - x.log2

/-- `u64::trailing_zeros`. -/
def trailingZeros (x : ℕ) : ℕ := ((List.range 64).find? (fun i => x.testBit i)).getD 64

/-- `get_tail_u64`: the last eight bytes.  On fewer than eight bytes the subtraction
`len - 8` overflows, or wraps to an index that the slice refuses. -/
def Bytes.getTailU64 (checks : Bool) (b : Bytes) : Exec ℕ :=
  if b.length < 8 then .error (if checks then .overflow else .outOfRange)
  else .ok (fromBeBytes (b.data.drop (b.length - 8)))

/-- `hash_difficulty`: zero bits at the start of the first eight bytes and at the end of
the last eight. -/
def hashDifficulty (hash : Bytes) : Exec ℕ :=
  if hash.length < 8 then .error .outOfRange
  else .ok (leadingZeros (fromBeBytes (hash.data.take 8))
    + trailingZeros (fromBeBytes (hash.data.drop (hash.length - 8))))

/-- `key_hash_difficulty`: zero bits at the start only. -/
def keyHashDifficulty (hash : Bytes) : Exec ℕ :=
  if hash.length < 8 then .error .outOfRange
  else .ok (leadingZeros (fromBeBytes (hash.data.take 8)))

/-- There are 64 bits to count. -/
theorem leadingZeros_le (x : ℕ) : leadingZeros x ≤ 64 := by
  unfold leadingZeros
  split <;> omega

theorem trailingZeros_le (x : ℕ) : trailingZeros x ≤ 64 := by
  unfold trailingZeros
  cases h : (List.range 64).find? (fun i => x.testBit i) with
  | none => simp
  | some i =>
    have := List.mem_range.mp (List.mem_of_find?_eq_some h)
    simpa using this.le

/-- No hash is more difficult than its 128 inspected bits. -/
theorem hashDifficulty_le {hash : Bytes} {d : ℕ} (h : hashDifficulty hash = .ok d) : d ≤ 128 := by
  unfold hashDifficulty at h
  split at h
  · cases h
  · cases h
    exact Nat.add_le_add (leadingZeros_le _) (trailingZeros_le _)

/-- `hash_difficulty` returns exactly on at least eight bytes. -/
theorem returns_hashDifficulty {hash : Bytes} : (hashDifficulty hash).Returns ↔ 8 ≤ hash.length := by
  unfold hashDifficulty
  split
  · rename_i h
    simpa using h
  · rename_i h
    simpa using h
