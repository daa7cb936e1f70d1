/-
# Partial computations with machine integers

A small library for programs of a systems language: a computation either returns or
stops with a `Fault`.  The two build profiles of such a language differ in integer
arithmetic only: one stops on an overflow, the other wraps around.  Every operation
below therefore takes `checks : Bool`, the profile's overflow checks.

The last section is about *decision lists*: a long validator is a list of checks,
each of which passes (`none`) or ends the run with a verdict (`some v`).
-/
import Mathlib

/-! ## Faults -/

/-- What stops a computation instead of a result. -/
inductive Fault where
  /-- Arithmetic left the range of its type in a build that checks for it. -/
  | overflow
  /-- A slice or an index outside the data. -/
  | outOfRange
  /-- `expect`, `unwrap` or `assert!` on a value that is not there. -/
  | expect (msg : String)
  /-- An explicit `panic!`. -/
  | panic (msg : String)
  /-- A loop that has not ended within the fuel it was given. -/
  | unfinished
  deriving DecidableEq, Repr

/-- A computation that returns a value or stops with a fault. -/
abbrev Exec := Except Fault

namespace Exec

variable {α β V : Type}

/-- The computation returns. -/
def Returns (x : Exec α) : Prop := ∃ a, x = .ok a

/-- What stops the computation. -/
def fault? : Exec α → Option Fault
  | .error fault => some fault
  | .ok _ => none

/-- A computation with a fault has no result. -/
theorem fault?_eq_some {x : Exec α} {fault : Fault} : x.fault? = some fault ↔ x = .error fault := by
  cases x with
  | error e => simp [fault?]
  | ok a => simp [fault?]

@[simp] theorem ok_bind (a : α) (f : α → Exec β) : (Except.ok a >>= f) = f a := rfl

@[simp] theorem error_bind (e : Fault) (f : α → Exec β) :
    ((Except.error e : Exec α) >>= f) = .error e := rfl

/-- A sequence returns exactly when both parts do. -/
theorem bind_eq_ok {x : Exec α} {f : α → Exec β} {b : β} :
    (x >>= f) = .ok b ↔ ∃ a, x = .ok a ∧ f a = .ok b := by
  cases x with
  | error e => simp
  | ok a => simp

/-- Two parts return if the first one does, and the second one on its result. -/
theorem returns_bind {x : Exec α} {f : α → Exec β} :
    Returns (x >>= f) ↔ ∃ a, x = .ok a ∧ Returns (f a) := by
  cases x with
  | error e => simp [Returns]
  | ok a => simp [Returns]

/-- Computing something of the result does not change whether there is one. -/
theorem returns_bind_ok {x : Exec α} {g : α → β} :
    Returns (x >>= fun a => .ok (g a)) ↔ Returns x := by
  cases x with
  | error e => simp [Returns]
  | ok a => simp [Returns]

@[simp] theorem returns_ok (a : α) : Returns (Except.ok a : Exec α) := ⟨a, rfl⟩

@[simp] theorem returns_pure (a : α) : Returns (pure a : Exec α) := ⟨a, rfl⟩

@[simp] theorem not_returns_error (e : Fault) : ¬ Returns (Except.error e : Exec α) := by
  rintro ⟨a, h⟩
  cases h

/-- Whether a computation returns a value with a decidable property is decidable. -/
instance decidableExistsOk {x : Exec α} {p : α → Prop} [DecidablePred p] :
    Decidable (∃ a, x = .ok a ∧ p a) :=
  match x with
  | .ok a => decidable_of_iff (p a) (by simp)
  | .error _ => isFalse (by simp)

instance decidableExistsOkSome {x : Exec (Option α)} {p : α → Prop} [DecidablePred p] :
    Decidable (∃ a, x = .ok (some a) ∧ p a) :=
  match x with
  | .ok (some a) => decidable_of_iff (p a) (by simp)
  | .ok none => isFalse (by simp)
  | .error _ => isFalse (by simp)

/-! ## Arithmetic -/

/-- An operation whose exact result may leave the range: with checks it then stops,
without them the wrapped value `r` is returned. -/
def guarded (checks : Bool) (overflows : Bool) (r : α) : Exec α :=
  if checks && overflows then .error .overflow else .ok r

/-- Without an overflow there is nothing to guard. -/
theorem guarded_of_false {checks : Bool} {overflows : Bool} {r : α} (h : overflows = false) :
    guarded checks overflows r = .ok r := by
  simp [guarded, h]

/-- Without checks an overflow wraps. -/
theorem guarded_unchecked (overflows : Bool) (r : α) : guarded false overflows r = .ok r := by
  simp [guarded]

/-- A guarded result is the result. -/
theorem guarded_eq_ok {checks overflows : Bool} {r s : α} (h : guarded checks overflows r = .ok s) :
    s = r := by
  unfold guarded at h
  split at h
  · cases h
  · cases h; rfl

/-- With checks it is had without an overflow only. -/
theorem guarded_eq_ok_iff {checks overflows : Bool} {r s : α} :
    guarded checks overflows r = .ok s ↔ (checks = true → overflows = false) ∧ s = r := by
  cases checks <;> cases overflows <;> simp [guarded, eq_comm]

/-- With checks an overflow is a fault. -/
theorem returns_guarded {overflows : Bool} {r : α} :
    Returns (guarded true overflows r) ↔ overflows = false := by
  cases overflows <;> simp [guarded]

/-- `a + b` on `u64`. -/
def addU64 (checks : Bool) (a b : UInt64) : Exec UInt64 :=
  guarded checks (decide (2 ^ 64 ≤ a.toNat + b.toNat)) (a + b)

/-- `a - b` on `u64`. -/
def subU64 (checks : Bool) (a b : UInt64) : Exec UInt64 :=
  guarded checks (decide (a.toNat < b.toNat)) (a - b)

/-- `a + b` on `u16`. -/
def addU16 (checks : Bool) (a b : UInt16) : Exec UInt16 :=
  guarded checks (decide (2 ^ 16 ≤ a.toNat + b.toNat)) (a + b)

/-- `a - b` on `u16`. -/
def subU16 (checks : Bool) (a b : UInt16) : Exec UInt16 :=
  guarded checks (decide (a.toNat < b.toNat)) (a - b)

/-- `a - b` on `u32`. -/
def subU32 (checks : Bool) (a b : UInt32) : Exec UInt32 :=
  guarded checks (decide (a.toNat < b.toNat)) (a - b)

/-- `a + b` on `i64`. -/
def addI64 (checks : Bool) (a b : Int64) : Exec Int64 :=
  guarded checks (decide (¬ (-2 ^ 63 ≤ a.toInt + b.toInt ∧ a.toInt + b.toInt < 2 ^ 63))) (a + b)

/-- `a - b` on `i64`. -/
def subI64 (checks : Bool) (a b : Int64) : Exec Int64 :=
  guarded checks (decide (¬ (-2 ^ 63 ≤ a.toInt - b.toInt ∧ a.toInt - b.toInt < 2 ^ 63))) (a - b)

variable {checks : Bool}

/-- The operations on operands that do not overflow. -/
theorem addU64_of_lt {a b : UInt64} (h : a.toNat + b.toNat < 2 ^ 64) :
    addU64 checks a b = .ok (a + b) :=
  guarded_of_false (by simpa using h)

theorem subU64_of_le {a b : UInt64} (h : b.toNat ≤ a.toNat) :
    subU64 checks a b = .ok (a - b) :=
  guarded_of_false (by simpa using h)

theorem subU32_of_le {a b : UInt32} (h : b.toNat ≤ a.toNat) :
    subU32 checks a b = .ok (a - b) :=
  guarded_of_false (by simpa using h)

theorem addI64_of_range {a b : Int64} (h₁ : -2 ^ 63 ≤ a.toInt + b.toInt)
    (h₂ : a.toInt + b.toInt < 2 ^ 63) : addI64 checks a b = .ok (a + b) :=
  guarded_of_false (decide_eq_false (not_not_intro ⟨h₁, h₂⟩))

theorem subI64_of_range {a b : Int64} (h₁ : -2 ^ 63 ≤ a.toInt - b.toInt)
    (h₂ : a.toInt - b.toInt < 2 ^ 63) : subI64 checks a b = .ok (a - b) :=
  guarded_of_false (decide_eq_false (not_not_intro ⟨h₁, h₂⟩))

/-- What an `i64` difference is, if it is computed. -/
theorem subI64_eq_ok {a b r : Int64} : subI64 checks a b = .ok r ↔
    (checks = true → -2 ^ 63 ≤ a.toInt - b.toInt ∧ a.toInt - b.toInt < 2 ^ 63) ∧ r = a - b := by
  rw [subI64, guarded_eq_ok_iff, decide_eq_false_iff_not, not_not]

/-- With checks, a `u64` difference is computed exactly when it is not negative. -/
theorem returns_subU64 {a b : UInt64} : Returns (subU64 true a b) ↔ b.toNat ≤ a.toNat := by
  rw [subU64, returns_guarded, decide_eq_false_iff_not, not_lt]

/-- With checks a difference is had only if it is not negative. -/
theorem returns_subU32 {a b : UInt32} : Returns (subU32 true a b) ↔ b.toNat ≤ a.toNat := by
  rw [subU32, returns_guarded, decide_eq_false_iff_not, not_lt]

/-- With checks, an `i64` difference is computed exactly when it is in range. -/
theorem returns_subI64 {a b : Int64} :
    Returns (subI64 true a b) ↔ -2 ^ 63 ≤ a.toInt - b.toInt ∧ a.toInt - b.toInt < 2 ^ 63 := by
  rw [subI64, returns_guarded, decide_eq_false_iff_not, not_not]

/-- An `i64` sum inside the range is the sum of the integers. -/
theorem toInt_add_of_range {a b : Int64} (h₁ : -2 ^ 63 ≤ a.toInt + b.toInt)
    (h₂ : a.toInt + b.toInt < 2 ^ 63) : (a + b).toInt = a.toInt + b.toInt := by
  rw [Int64.toInt_add]
  exact Int.bmod_eq_of_le (by omega) (by omega)

/-- An `i64` difference inside the range is the difference of the integers. -/
theorem toInt_sub_of_range {a b : Int64} (h₁ : -2 ^ 63 ≤ a.toInt - b.toInt)
    (h₂ : a.toInt - b.toInt < 2 ^ 63) : (a - b).toInt = a.toInt - b.toInt := by
  rw [Int64.toInt_sub]
  exact Int.bmod_eq_of_le (by omega) (by omega)

/-- A `u64` sum inside the range is the sum of the naturals. -/
theorem toNat_addU64 {a b : UInt64} (h : a.toNat + b.toNat < 2 ^ 64) :
    (a + b).toNat = a.toNat + b.toNat := by
  rw [UInt64.toNat_add]
  exact Nat.mod_eq_of_lt h

/-- The successor of an index. -/
theorem toNat_add_one {x : UInt64} (h : x.toNat + 1 < 2 ^ 64) : (x + 1).toNat = x.toNat + 1 :=
  toNat_addU64 h

/-- The next number, where there is one. -/
theorem addU64_one {checks : Bool} {x : UInt64} (h : x.toNat + 1 < 2 ^ 64) :
    addU64 checks x 1 = .ok (x + 1) :=
  addU64_of_lt h

/-- The predecessor of a positive index. -/
theorem toNat_sub_one {x : UInt64} (h : 1 ≤ x.toNat) : (x - 1).toNat = x.toNat - 1 :=
  UInt64.toNat_sub_of_le _ _ (UInt64.le_iff_toNat_le.mpr h)

/-- The number before, where there is one. -/
theorem subU64_one {checks : Bool} {x : UInt64} (h : 1 ≤ x.toNat) : subU64 checks x 1 = .ok (x - 1) :=
  subU64_of_le h

/-! ## The signed view of a `u64` -/

/-- The cast `x as i64`, read as an integer. -/
def asI64 (x : UInt64) : ℤ := x.toInt64.toInt

/-- The cast `k as u64` of an `i64` value. -/
def asU64 (k : ℤ) : UInt64 := .ofBitVec (BitVec.ofInt 64 k)

/-- Below `2 ^ 63` the cast keeps the value. -/
theorem asI64_of_lt {x : UInt64} (h : x.toNat < 2 ^ 63) : asI64 x = x.toNat := by
  show x.toBitVec.toInt = (x.toBitVec.toNat : ℤ)
  apply BitVec.toInt_eq_toNat_of_lt
  have : x.toBitVec.toNat = x.toNat := rfl
  omega

/-- Up to a value below `2 ^ 63` the cast keeps the order. -/
theorem asI64_le_asI64 {x y : UInt64} (hy : y.toNat < 2 ^ 63) (h : x.toNat ≤ y.toNat) :
    asI64 x ≤ asI64 y := by
  rw [asI64_of_lt hy, asI64_of_lt (by omega)]
  exact_mod_cast h

/-- The signed view keeps the order below `2 ^ 63`. -/
theorem asI64_lt_asI64 {x y : UInt64} (hy : y.toNat < 2 ^ 63) (h : x.toNat < y.toNat) :
    asI64 x < asI64 y := by
  rw [asI64_of_lt hy, asI64_of_lt (by omega)]
  exact_mod_cast h

/-- From `2 ^ 63` on the cast is negative. -/
theorem asI64_neg_of_le {x : UInt64} (h : 2 ^ 63 ≤ x.toNat) : asI64 x < 0 := by
  show x.toBitVec.toInt < 0
  have hx : x.toBitVec.toNat = x.toNat := rfl
  rw [BitVec.toInt_eq_toNat_cond]
  split <;> omega

/-- Casting to `i64` and back is the identity. -/
@[simp] theorem asU64_asI64 (x : UInt64) : asU64 (asI64 x) = x := by
  apply UInt64.toBitVec_inj.mp
  show BitVec.ofInt 64 x.toBitVec.toInt = x.toBitVec
  exact BitVec.ofInt_toInt

/-! ## Decision lists -/

/-- The verdict `v` if `c` holds, no verdict otherwise. -/
def verdictIf (c : Prop) [Decidable c] (v : V) : Option V := if c then some v else none

/-- A condition that does not hold leaves the verdict open. -/
@[simp] theorem verdictIf_eq_none {c : Prop} [Decidable c] {v : V} :
    verdictIf c v = none ↔ ¬ c := by
  simp [verdictIf]

/-- One that holds decides it. -/
@[simp] theorem verdictIf_eq_some {c : Prop} [Decidable c] {v w : V} :
    verdictIf c v = some w ↔ c ∧ v = w := by
  simp [verdictIf]

/-- Runs the checks in order; the first verdict ends the run. -/
def firstVerdict : List (Exec (Option V)) → Exec (Option V)
  | [] => .ok none
  | x :: xs => do
    match ← x with
    | some v => .ok (some v)
    | none => firstVerdict xs

/-- No verdict: every check has passed. -/
theorem firstVerdict_eq_none {xs : List (Exec (Option V))} :
    firstVerdict xs = .ok none ↔ ∀ x ∈ xs, x = .ok none := by
  induction xs with
  | nil => simp [firstVerdict]
  | cons x xs ih =>
    rw [firstVerdict, bind_eq_ok, List.forall_mem_cons, ← ih]
    constructor
    · rintro ⟨r, rfl, hr⟩
      cases r with
      | none => exact ⟨rfl, hr⟩
      | some v => cases hr
    · rintro ⟨rfl, hxs⟩
      exact ⟨none, rfl, hxs⟩

/-- A verdict comes from one of the checks. -/
theorem mem_of_firstVerdict_eq_some {xs : List (Exec (Option V))} {v : V}
    (h : firstVerdict xs = .ok (some v)) : .ok (some v) ∈ xs := by
  induction xs with
  | nil => cases h
  | cons x xs ih =>
    rw [firstVerdict, bind_eq_ok] at h
    obtain ⟨r, rfl, hr⟩ := h
    cases r with
    | none => exact List.mem_cons_of_mem _ (ih hr)
    | some w => cases hr; exact List.mem_cons_self

/-- The first check has passed: the others decide. -/
theorem firstVerdict_cons_none {xs : List (Exec (Option V))} :
    firstVerdict (.ok none :: xs) = firstVerdict xs := rfl

/-- The first verdict that is there counts. -/
theorem firstVerdict_cons_some {v : V} {xs : List (Exec (Option V))} :
    firstVerdict (.ok (some v) :: xs) = .ok (some v) := rfl

/-- A fault before it is a fault of the whole. -/
theorem firstVerdict_cons_error {e : Fault} {xs : List (Exec (Option V))} :
    firstVerdict (.error e :: xs) = .error e := rfl

/-- Two lists of checks, one after the other. -/
theorem firstVerdict_append (xs ys : List (Exec (Option V))) :
    firstVerdict (xs ++ ys) = firstVerdict xs >>= fun verdict =>
      match verdict with
      | some v => .ok (some v)
      | none => firstVerdict ys := by
  induction xs with
  | nil => rfl
  | cons x xs ih =>
    cases x with
    | error e => rfl
    | ok r =>
      cases r with
      | none => exact ih
      | some v => rfl

/-- A list of checks returns when its head does and, should the head pass, the rest does. -/
theorem returns_firstVerdict_cons {x : Exec (Option V)} {xs : List (Exec (Option V))} :
    Returns (firstVerdict (x :: xs)) ↔ Returns x ∧ (x = .ok none → Returns (firstVerdict xs)) := by
  rw [firstVerdict, returns_bind]
  cases x with
  | error e => simp
  | ok r => cases r <;> simp

/-- **When a decision list returns.**  Each check has to return if all before it pass. -/
theorem returns_firstVerdict_iff {xs : List (Exec (Option V))} :
    Returns (firstVerdict xs) ↔
      ∀ k x, xs[k]? = some x → firstVerdict (xs.take k) = .ok none → Returns x := by
  induction xs with
  | nil => simp [firstVerdict]
  | cons y xs ih =>
    rw [returns_firstVerdict_cons, ih]
    constructor
    · rintro ⟨hy, hrest⟩ k x hk hpass
      cases k with
      | zero =>
        rw [List.getElem?_cons_zero, Option.some.injEq] at hk
        exact hk ▸ hy
      | succ k =>
        rw [List.getElem?_cons_succ] at hk
        rw [List.take_succ_cons, firstVerdict_eq_none, List.forall_mem_cons,
          ← firstVerdict_eq_none] at hpass
        exact hrest hpass.1 k x hk hpass.2
    · intro h
      refine ⟨h 0 y rfl rfl, fun hy k x hk hpass => ?_⟩
      refine h (k + 1) x (by rw [List.getElem?_cons_succ, hk]) ?_
      rw [List.take_succ_cons, hy, firstVerdict_cons_none, hpass]

end Exec
