/-
# What the hash is taken of

The bytes that are hashed and signed are the members of a block one after the other, without
names, and a member that is empty or all-zero is left out without a mark.  The bytes therefore
determine the numbers of a block and the sequence of texts it writes, but not to which members
the texts belong: two blocks that write the same texts under different members share their
bytes, and their hash.
-/
import Ruvname.Framing
import Ruvname.Block

open Framing

/-! ## Numbers and texts -/

/-- A number of `n` bytes has `n` bytes. -/
theorem length_leBytes (n x : ℕ) : (leBytes n x).length = n := by
  simp [leBytes]

/-- The lowest byte comes first. -/
theorem leBytes_succ (n x : ℕ) : leBytes (n + 1) x = UInt8.ofNat x :: leBytes n (x / 256) := by
  unfold leBytes
  rw [List.range_succ_eq_map, List.map_cons, List.map_map, pow_zero, Nat.div_one]
  congr 1
  apply List.map_congr_left
  intro i _
  show UInt8.ofNat (x / 256 ^ (i + 1)) = UInt8.ofNat (x / 256 / 256 ^ i)
  rw [Nat.div_div_eq_div_mul, pow_succ']

/-- Numbers that fit are told apart by their bytes. -/
theorem leBytes_injective {n x y : ℕ} (hx : x < 256 ^ n) (hy : y < 256 ^ n)
    (h : leBytes n x = leBytes n y) : x = y := by
  induction n generalizing x y with
  | zero =>
    rw [pow_zero] at hx hy
    omega
  | succ n ih =>
    rw [leBytes_succ, leBytes_succ, List.cons.injEq] at h
    obtain ⟨hlow, hhigh⟩ := h
    have hmod : x % 256 = y % 256 := by
      have := congrArg UInt8.toNat hlow
      simpa using this
    rw [pow_succ'] at hx hy
    have hdiv : x / 256 = y / 256 :=
      ih (Nat.div_lt_of_lt_mul hx) (Nat.div_lt_of_lt_mul hy) hhigh
    omega

/-- A number of fixed width is split off the front. -/
theorem leBytes_append_inj {n x y : ℕ} {r s : List UInt8} (hx : x < 256 ^ n) (hy : y < 256 ^ n)
    (h : leBytes n x ++ r = leBytes n y ++ s) : x = y ∧ r = s := by
  obtain ⟨hnumber, hrest⟩ := List.append_inj h (by rw [length_leBytes, length_leBytes])
  exact ⟨leBytes_injective hx hy hnumber, hrest⟩

/-- A text whose length fits the eight bytes written for it.  A string of the source always
does: an allocation has at most `isize::MAX` bytes. -/
def Representable (s : String) : Prop := s.utf8ByteSize < 2 ^ 64

instance (s : String) : Decidable (Representable s) :=
  inferInstanceAs (Decidable (s.utf8ByteSize < 2 ^ 64))

/-- A text says how long it is, so what follows it cannot be mistaken for it. -/
theorem selfDelimiting_bincodeStr : SelfDelimiting Representable bincodeStr := by
  intro a b ha hb r s h
  unfold bincodeStr at h
  rw [List.append_assoc, List.append_assoc] at h
  obtain ⟨hsize, hrest⟩ := leBytes_append_inj ha hb h
  obtain ⟨hdata, htail⟩ := List.append_inj hrest (by
    simp only [Array.length_toList]
    exact hsize)
  refine ⟨?_, htail⟩
  rw [← String.toByteArray_inj]
  exact ByteArray.ext (Array.toList_inj.mp hdata)

/-! ## Hexadecimal text -/

/-- Every value has a digit of its own. -/
theorem hexDigit_injective {m n : ℕ} (hm : m < 16) (hn : n < 16) (h : hexDigit m = hexDigit n) :
    m = n := by
  have hall : ∀ m < 16, ∀ n < 16, hexDigit m = hexDigit n → m = n := by decide
  exact hall m hm n hn h

/-- Byte strings are told apart by their texts. -/
theorem toHex_injective : Function.Injective toHex := by
  intro xs ys h
  unfold toHex at h
  rw [String.ofList_inj] at h
  induction xs generalizing ys with
  | nil =>
    cases ys with
    | nil => rfl
    | cons y ys => simp at h
  | cons x xs ih =>
    cases ys with
    | nil => simp at h
    | cons y ys =>
      simp only [List.flatMap_cons, List.cons_append, List.nil_append, List.cons.injEq] at h
      obtain ⟨hhigh, hlow, hrest⟩ := h
      have hx := x.toNat_lt
      have hy := y.toNat_lt
      have hdiv := hexDigit_injective (by omega) (by omega) hhigh
      have hmod := hexDigit_injective (by omega) (by omega) hlow
      have hxy : x = y := UInt8.toNat_inj.mp (by omega)
      rw [hxy, ih hrest]

/-- A digit is one byte long. -/
theorem utf8Size_hexDigit {n : ℕ} (h : n < 16) : (hexDigit n).utf8Size = 1 := by
  have hall : ∀ n < 16, (hexDigit n).utf8Size = 1 := by decide
  exact hall n h

/-- A text of characters of one byte is as long as it has characters. -/
theorem utf8ByteSize_ofList {l : List Char} (h : ∀ c ∈ l, c.utf8Size = 1) :
    (String.ofList l).utf8ByteSize = l.length := by
  induction l with
  | nil => rfl
  | cons c l ih =>
    have hc := h c List.mem_cons_self
    have hl := ih fun d hd => h d (List.mem_cons_of_mem c hd)
    rw [← List.singleton_append, String.ofList_append, String.utf8ByteSize_append, hl, List.length_append]
    simp [hc]

/-- Two digits for each byte. -/
theorem utf8ByteSize_toHex (data : List UInt8) : (toHex data).utf8ByteSize = 2 * data.length := by
  unfold toHex
  rw [utf8ByteSize_ofList]
  · induction data with
    | nil => rfl
    | cons x data ih =>
      rw [List.flatMap_cons, List.length_append, ih, List.length_cons]
      show 2 + 2 * data.length = 2 * (data.length + 1)
      omega
  · intro c hc
    obtain ⟨x, -, hx⟩ := List.mem_flatMap.mp hc
    have hbound := x.toNat_lt
    simp only [List.mem_cons, List.not_mem_nil, or_false] at hx
    rcases hx with rfl | rfl
    · exact utf8Size_hexDigit (by omega)
    · exact utf8Size_hexDigit (by omega)

/-! ## Members that may be left out -/

/-- The text written for a `Bytes` member, if any. -/
def Bytes.text (b : Bytes) : Option String := b.unlessZero.map fun b => toHex b.data

/-- The members of a transaction in declaration order, `none` for one that is left out. -/
def Transaction.texts (t : Transaction) : List (Option String) :=
  [some t.class', t.identity.text, t.confirmation.text, t.signing.text, t.encryption.text,
    if t.data = "" then none else some t.data]

/-- The members of a cleared block before the transaction. -/
def Block.texts (b : Block) : List (Option String) := [b.prevBlockHash.text, b.pubKey.text]

/-- The block as it is hashed: hash and signature cleared. -/
def Block.cleared (b : Block) : Block :=
  { b with hash := Bytes.default, signature := Bytes.default }

/-- The numbers that start the bytes. -/
def Block.numbers (b : Block) : UInt64 × Int64 × UInt32 × UInt32 × UInt32 × UInt64 :=
  (b.index, b.timestamp, b.version, b.difficulty, b.random, b.nonce)

/-- The texts of a block are those a program of the source can hold. -/
def Block.Allocated (b : Block) : Prop :=
  (∀ s ∈ b.texts.reduceOption, Representable s)
    ∧ ∀ t, b.transaction = some t → ∀ s ∈ t.texts.reduceOption, Representable s

/-- The same content, an all-zero `Bytes` identified with the empty one. -/
structure Block.SameContent (b₁ b₂ : Block) : Prop where
  index : b₁.index = b₂.index
  timestamp : b₁.timestamp = b₂.timestamp
  version : b₁.version = b₂.version
  difficulty : b₁.difficulty = b₂.difficulty
  random : b₁.random = b₂.random
  nonce : b₁.nonce = b₂.nonce
  prevBlockHash : b₁.prevBlockHash.collapse = b₂.prevBlockHash.collapse
  pubKey : b₁.pubKey.collapse = b₂.pubKey.collapse
  transaction : b₁.transaction.map Transaction.collapse = b₂.transaction.map Transaction.collapse

/-- All members of a block that may be left out, with those of its transaction. -/
def Block.pattern (b : Block) : List Bool × Option (List Bool) :=
  (b.texts.map Option.isSome, b.transaction.map fun t => t.texts.map Option.isSome)

/-- **Shifted blocks.**  The same numbers and the same texts in the same order, but under other
members: what one of the blocks leaves out the other writes. -/
structure Block.Shifted (b₁ b₂ : Block) : Prop where
  numbers : b₁.numbers = b₂.numbers
  texts : b₁.texts.reduceOption = b₂.texts.reduceOption
  transaction : (b₁.transaction.map fun t => t.texts.reduceOption)
    = b₂.transaction.map fun t => t.texts.reduceOption
  pattern : b₁.pattern ≠ b₂.pattern

/-- Members have the same text if they are equal, or if both are nothing but zero bytes. -/
theorem Bytes.text_eq_iff {b₁ b₂ : Bytes} : b₁.text = b₂.text ↔ b₁.collapse = b₂.collapse := by
  have hzero : Bytes.default.isZero = true := Bytes.isZero_default
  unfold text unlessZero collapse
  by_cases h₁ : b₁.isZero <;> by_cases h₂ : b₂.isZero
  · simp [h₁, h₂]
  · simp only [h₁, h₂, if_true, Bool.false_eq_true, if_false, Option.map_none, Option.map_some,
      reduceCtorEq, false_iff]
    rintro rfl
    exact h₂ hzero
  · simp only [h₁, h₂, if_true, Bool.false_eq_true, if_false, Option.map_none, Option.map_some,
      reduceCtorEq, false_iff]
    rintro rfl
    exact h₁ hzero
  · simp only [h₁, h₂, Bool.false_eq_true, if_false, Option.map_some, Option.some.injEq]
    constructor
    · intro h
      obtain ⟨data₁⟩ := b₁
      obtain ⟨data₂⟩ := b₂
      exact congrArg Bytes.mk (toHex_injective h)
    · rintro rfl
      rfl

/-- The content is the numbers and the members. -/
theorem Transaction.texts_eq_iff {t₁ t₂ : Transaction} :
    t₁.texts = t₂.texts ↔ t₁.collapse = t₂.collapse := by
  have hdata : ((if t₁.data = "" then none else some t₁.data)
      = if t₂.data = "" then none else some t₂.data) ↔ t₁.data = t₂.data := by
    by_cases h₁ : t₁.data = "" <;> by_cases h₂ : t₂.data = "" <;> simp [h₁, h₂, eq_comm]
  simp only [texts, collapse, List.cons.injEq, Option.some.injEq, Bytes.text_eq_iff, hdata,
    and_true, Transaction.mk.injEq]

/-- Two blocks have the same contents if their numbers and their texts agree. -/
theorem Block.sameContent_iff {b₁ b₂ : Block} :
    b₁.SameContent b₂ ↔ b₁.numbers = b₂.numbers ∧ b₁.texts = b₂.texts
      ∧ b₁.transaction.map Transaction.texts = b₂.transaction.map Transaction.texts := by
  have htexts : b₁.texts = b₂.texts ↔ b₁.prevBlockHash.collapse = b₂.prevBlockHash.collapse
      ∧ b₁.pubKey.collapse = b₂.pubKey.collapse := by
    simp only [texts, List.cons.injEq, Bytes.text_eq_iff, and_true]
  have htransaction : b₁.transaction.map Transaction.texts = b₂.transaction.map Transaction.texts
      ↔ b₁.transaction.map Transaction.collapse = b₂.transaction.map Transaction.collapse := by
    cases b₁.transaction <;> cases b₂.transaction <;> simp [Transaction.texts_eq_iff]
  rw [htexts, htransaction]
  simp only [numbers, Prod.mk.injEq]
  constructor
  · intro h
    exact ⟨⟨h.index, h.timestamp, h.version, h.difficulty, h.random, h.nonce⟩,
      ⟨h.prevBlockHash, h.pubKey⟩, h.transaction⟩
  · rintro ⟨⟨h₁, h₂, h₃, h₄, h₅, h₆⟩, ⟨h₇, h₈⟩, h₉⟩
    exact ⟨h₁, h₂, h₃, h₄, h₅, h₆, h₇, h₈, h₉⟩

/-! ## The bytes -/

/-- A member is its text, or nothing. -/
theorem bincodeBytes_eq (b : Bytes) : bincodeBytes b = (b.text.map bincodeStr).getD [] := by
  unfold bincodeBytes Bytes.text Bytes.unlessZero
  by_cases h : b.isZero <;> simp [h]

/-- The present members of a list, one after the other. -/
def written (members : List (Option String)) : List UInt8 := members.reduceOption.flatMap bincodeStr

/-- The members are written in their order. -/
theorem written_cons (member : Option String) (members : List (Option String)) :
    written (member :: members) = (member.map bincodeStr).getD [] ++ written members := by
  cases member with
  | none => rfl
  | some s => rfl

theorem written_nil : written [] = [] := rfl

/-- A transaction is written as its texts. -/
theorem Transaction.asBytesCompact_eq (t : Transaction) : t.asBytesCompact = written t.texts := by
  have hdata : (if t.data = "" then [] else bincodeStr t.data)
      = ((if t.data = "" then none else some t.data).map bincodeStr).getD [] := by
    split <;> rfl
  unfold asBytesCompact texts
  rw [hdata]
  simp only [written_cons, written_nil, bincodeBytes_eq, List.append_assoc, List.append_nil,
    Option.map_some, Option.getD_some]

/-- The tag byte and the transaction, or nothing. -/
def transactionBytes : Option Transaction → List UInt8
  | none => []
  | some t => 1 :: written t.texts

/-- A cleared block is written as six numbers, its texts and its transaction. -/
theorem Block.asBytesCompact_cleared (b : Block) :
    b.cleared.asBytesCompact = leBytes 8 b.index.toNat ++ (leBytes 8 b.timestamp.toUInt64.toNat
      ++ (leBytes 4 b.version.toNat ++ (leBytes 4 b.difficulty.toNat ++ (leBytes 4 b.random.toNat
      ++ (leBytes 8 b.nonce.toNat ++ (written b.texts ++ transactionBytes b.transaction)))))) := by
  have hempty : bincodeBytes Bytes.default = [] := rfl
  unfold asBytesCompact cleared
  dsimp only
  rw [hempty]
  rcases b.transaction with _ | t
  · simp only [texts, written_cons, written_nil, bincodeBytes_eq, List.append_assoc,
      List.append_nil, transactionBytes]
  · simp only [texts, written_cons, written_nil, bincodeBytes_eq, List.append_assoc,
      List.append_nil, transactionBytes, Transaction.asBytesCompact_eq]

/-- A text before the transaction: hexadecimal, so of even length. -/
def HeaderText (s : String) : Prop := Representable s ∧ 2 ∣ s.utf8ByteSize

/-- The text of a byte string has an even number of bytes. -/
theorem Bytes.even_text {b : Bytes} {s : String} (h : b.text = some s) : 2 ∣ s.utf8ByteSize := by
  obtain ⟨c, -, rfl⟩ := Option.map_eq_some_iff.mp h
  rw [utf8ByteSize_toHex]
  exact Nat.dvd_mul_right 2 _

/-- The texts before the transaction are all of this kind. -/
theorem Block.headerText_of_mem {b : Block} (hb : b.Allocated) :
    ∀ s ∈ b.texts.reduceOption, HeaderText s := by
  intro s hs
  refine ⟨hb.1 s hs, ?_⟩
  rw [List.reduceOption_mem_iff, texts, List.mem_cons, List.mem_singleton] at hs
  rcases hs with h | h
  · exact Bytes.even_text h.symm
  · exact Bytes.even_text h.symm

/-- The first byte of a text is the lowest one of its length. -/
theorem bincodeStr_eq_cons (s : String) : ∃ rest, bincodeStr s = UInt8.ofNat s.utf8ByteSize :: rest := by
  unfold bincodeStr
  rw [leBytes_succ]
  exact ⟨_, rfl⟩

/-- The end of the bytes and the tag of a transaction start no text of even length. -/
theorem not_bincodeStr_prefix {s : String} (hs : HeaderText s) (transaction : Option Transaction) :
    ¬ bincodeStr s <+: transactionBytes transaction := by
  obtain ⟨rest, hrest⟩ := bincodeStr_eq_cons s
  rw [hrest]
  cases transaction with
  | none => simp [transactionBytes]
  | some t =>
    rw [transactionBytes, List.cons_prefix_cons]
    rintro ⟨htag, -⟩
    have hmod : s.utf8ByteSize % 256 = 1 := by
      have := congrArg UInt8.toNat htag
      simpa using this
    obtain ⟨n, hn⟩ := hs.2
    omega

/-- The texts that are there are told apart by the bytes. -/
theorem written_inj {xs ys : List (Option String)} (hx : ∀ s ∈ xs.reduceOption, Representable s)
    (hy : ∀ s ∈ ys.reduceOption, Representable s) (h : written xs = written ys) :
    xs.reduceOption = ys.reduceOption := by
  have hend : ∀ s, Representable s → ¬ bincodeStr s <+: [] := by
    intro s _
    obtain ⟨rest, hrest⟩ := bincodeStr_eq_cons s
    simp [hrest]
  refine (selfDelimiting_bincodeStr.flatMap_append_inj hx hy hend hend ?_).1
  rw [List.append_nil, List.append_nil]
  exact h

/-- Transactions are told apart by their bytes, as far as their texts go. -/
theorem transactionBytes_inj {x y : Option Transaction}
    (hx : ∀ t, x = some t → ∀ s ∈ t.texts.reduceOption, Representable s)
    (hy : ∀ t, y = some t → ∀ s ∈ t.texts.reduceOption, Representable s)
    (h : transactionBytes x = transactionBytes y) :
    (x.map fun t => t.texts.reduceOption) = y.map fun t => t.texts.reduceOption := by
  cases x with
  | none =>
    cases y with
    | none => rfl
    | some t => cases h
  | some t =>
    cases y with
    | none => cases h
    | some u =>
      rw [transactionBytes, transactionBytes, List.cons.injEq] at h
      exact congrArg some (written_inj (hx t rfl) (hy u rfl) h.2)

/-- **What the bytes determine**: the numbers and the texts in their order. -/
theorem Block.asBytesCompact_eq_iff {b₁ b₂ : Block} (h₁ : b₁.Allocated) (h₂ : b₂.Allocated) :
    b₁.cleared.asBytesCompact = b₂.cleared.asBytesCompact ↔ b₁.numbers = b₂.numbers
      ∧ b₁.texts.reduceOption = b₂.texts.reduceOption
      ∧ (b₁.transaction.map fun t => t.texts.reduceOption)
        = b₂.transaction.map fun t => t.texts.reduceOption := by
  rw [asBytesCompact_cleared, asBytesCompact_cleared]
  constructor
  · intro h
    -- the numbers have fixed width
    obtain ⟨hindex, h⟩ := leBytes_append_inj b₁.index.toNat_lt b₂.index.toNat_lt h
    obtain ⟨htimestamp, h⟩ := leBytes_append_inj b₁.timestamp.toUInt64.toNat_lt
      b₂.timestamp.toUInt64.toNat_lt h
    obtain ⟨hversion, h⟩ := leBytes_append_inj b₁.version.toNat_lt b₂.version.toNat_lt h
    obtain ⟨hdifficulty, h⟩ := leBytes_append_inj b₁.difficulty.toNat_lt b₂.difficulty.toNat_lt h
    obtain ⟨hrandom, h⟩ := leBytes_append_inj b₁.random.toNat_lt b₂.random.toNat_lt h
    obtain ⟨hnonce, h⟩ := leBytes_append_inj b₁.nonce.toNat_lt b₂.nonce.toNat_lt h
    have hself : SelfDelimiting HeaderText bincodeStr := fun a b ha hb =>
      selfDelimiting_bincodeStr a b ha.1 hb.1
    obtain ⟨htexts, htail⟩ := hself.flatMap_append_inj (headerText_of_mem h₁) (headerText_of_mem h₂)
      (fun s hs => not_bincodeStr_prefix hs _) (fun s hs => not_bincodeStr_prefix hs _) h
    refine ⟨?_, htexts, transactionBytes_inj h₁.2 h₂.2 htail⟩
    have htime : b₁.timestamp = b₂.timestamp :=
      congrArg Int64.ofUInt64 (UInt64.toNat_inj.mp htimestamp)
    rw [numbers, numbers, UInt64.toNat_inj.mp hindex, UInt32.toNat_inj.mp hversion, htime, UInt32.toNat_inj.mp hdifficulty,
      UInt32.toNat_inj.mp hrandom, UInt64.toNat_inj.mp hnonce]
  · rintro ⟨hnumbers, htexts, htransaction⟩
    simp only [numbers, Prod.mk.injEq] at hnumbers
    obtain ⟨hindex, htimestamp, hversion, hdifficulty, hrandom, hnonce⟩ := hnumbers
    have htail : transactionBytes b₁.transaction = transactionBytes b₂.transaction := by
      rcases ht₁ : b₁.transaction with _ | t₁ <;> rcases ht₂ : b₂.transaction with _ | t₂
      · rfl
      · simp [ht₁, ht₂] at htransaction
      · simp [ht₁, ht₂] at htransaction
      · rw [ht₁, ht₂, Option.map_some, Option.map_some, Option.some.injEq] at htransaction
        rw [transactionBytes, transactionBytes, written, written, htransaction]
    rw [hindex, htimestamp, hversion, hdifficulty, hrandom, hnonce, written, written, htexts, htail]

/-- **The preimage determines the content exactly for blocks that are not shifted.** -/
theorem Block.preimage_injective_iff {b₁ b₂ : Block} (h₁ : b₁.Allocated) (h₂ : b₂.Allocated) :
    (b₁.cleared.asBytesCompact = b₂.cleared.asBytesCompact → b₁.SameContent b₂)
      ↔ ¬ b₁.Shifted b₂ := by
  rw [asBytesCompact_eq_iff h₁ h₂, sameContent_iff]
  constructor
  · intro h hshift
    obtain ⟨-, htexts, htransaction⟩ := h ⟨hshift.numbers, hshift.texts, hshift.transaction⟩
    -- the same members are present in the same places
    have hpattern : (b₁.transaction.map fun t => t.texts.map Option.isSome)
        = b₂.transaction.map fun t => t.texts.map Option.isSome := by
      have := congrArg (Option.map (List.map Option.isSome)) htransaction
      rw [Option.map_map, Option.map_map] at this
      exact this
    apply hshift.pattern
    rw [pattern, pattern, htexts, hpattern]
  · rintro hnot ⟨hnumbers, htexts, htransaction⟩
    have hpattern : b₁.pattern = b₂.pattern := by
      by_contra hne
      exact hnot ⟨hnumbers, htexts, htransaction, hne⟩
    rw [pattern, pattern, Prod.mk.injEq] at hpattern
    refine ⟨hnumbers, eq_of_reduceOption_eq hpattern.1 htexts, ?_⟩
    rcases ht₁ : b₁.transaction with _ | t₁ <;> rcases ht₂ : b₂.transaction with _ | t₂
    · rfl
    · simp [ht₁, ht₂] at htransaction
    · simp [ht₁, ht₂] at htransaction
    · rw [ht₁, ht₂, Option.map_some, Option.map_some, Option.some.injEq] at htransaction
      have htwo := hpattern.2
      rw [ht₁, ht₂, Option.map_some, Option.map_some, Option.some.injEq] at htwo
      rw [Option.map_some, Option.map_some, eq_of_reduceOption_eq htwo htransaction]

namespace Sample

/-- A domain block with confirmation `[8]`, owner `[9]` and no encryption key, and one with no
confirmation, owner `[8]` and encryption key `[9]`. -/
def ownedByNine : Block where
  index := 2
  timestamp := 10
  version := 1
  difficulty := 24
  random := 0
  nonce := 0
  hash := Bytes.default
  prevBlockHash := ⟨[1]⟩
  pubKey := ⟨[2]⟩
  signature := Bytes.default
  transaction := some
    { class' := classDomain
      identity := ⟨[7]⟩
      confirmation := ⟨[8]⟩
      signing := ⟨[9]⟩
      encryption := Bytes.default
      data := "" }

def ownedByEight : Block :=
  { ownedByNine with
    transaction := some
      { class' := classDomain
        identity := ⟨[7]⟩
        confirmation := Bytes.default
        signing := ⟨[8]⟩
        encryption := ⟨[9]⟩
        data := "" } }

/-- The first block with an encryption key of one zero byte. -/
def ownedByNineZero : Block :=
  { ownedByNine with
    transaction := some
      { class' := classDomain
        identity := ⟨[7]⟩
        confirmation := ⟨[8]⟩
        signing := ⟨[9]⟩
        encryption := ⟨[0]⟩
        data := "" } }

end Sample

/-- A block and one that differs in an all-zero member share their bytes and their content. -/
theorem Block.preimage_injective_zero :
    Sample.ownedByNine ≠ Sample.ownedByNineZero
      ∧ Sample.ownedByNine.cleared.asBytesCompact = Sample.ownedByNineZero.cleared.asBytesCompact
      ∧ Sample.ownedByNine.SameContent Sample.ownedByNineZero := by
  have hnine : Sample.ownedByNine.Allocated := by
    constructor
    · decide +kernel
    · rintro t ht
      rw [← Option.some.inj ht]
      decide +kernel
  have hzero : Sample.ownedByNineZero.Allocated := by
    constructor
    · decide +kernel
    · rintro t ht
      rw [← Option.some.inj ht]
      decide +kernel
  have hbytes : Sample.ownedByNine.cleared.asBytesCompact
      = Sample.ownedByNineZero.cleared.asBytesCompact := rfl
  exact ⟨by decide +kernel, hbytes,
    (Block.preimage_injective_iff hnine hzero).mpr (fun hshift => hshift.pattern rfl) hbytes⟩

/-- Two blocks with different owners share the bytes that are hashed and signed. -/
theorem Block.not_preimage_injective :
    Sample.ownedByNine.cleared.asBytesCompact = Sample.ownedByEight.cleared.asBytesCompact
      ∧ ¬ Sample.ownedByNine.SameContent Sample.ownedByEight := by
  constructor
  · rfl
  · intro h
    have := h.transaction
    revert this
    decide +kernel
