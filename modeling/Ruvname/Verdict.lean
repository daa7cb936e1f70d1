/-
# What a verdict says about a block

Inversion lemmas for the validator: a block that is judged `Good`, `Twin` or `Fork` has
passed every check of the decision list (`Passed`) and then stands in a known relation to
the tip.  Later modules argue from these facts and never unfold the validator.
-/
import Ruvname.Network

open Exec

namespace Chain

variable {P : Platform} {now : UtcTime} {c : Chain} {b l : Block} {last lastFull : Option Block}
  {q : BlockQuality} {s : SignersCache}

/-! ## The decision list -/

/-- All the checks that precede the comparison with the tip have passed. -/
structure Passed (P : Platform) (now : UtcTime) (c : Chain) (b : Block) (last : Option Block) :
    Prop where
  version : checkVersion b = .ok none
  wrongHash : checkWrongHash b = .ok none
  clock : checkClock P now b = .ok none
  ahead : checkAhead P b last = .ok none
  declaredDifficulty : c.checkDeclaredDifficulty P b = .ok none
  hashDifficulty : checkHashDifficulty b = .ok none
  hash : checkHash P b = .ok none
  signature : checkSignature P b = .ok none
  parent : c.checkParent P b = .ok none
  transaction : c.checkTransaction P now b = .ok none

/-- A block passes the checks if each of them leaves the verdict open. -/
theorem firstVerdict_checks_eq_none :
    firstVerdict (c.checks P now b last) = .ok none ↔ Passed P now c b last := by
  rw [firstVerdict_eq_none, checks]
  simp only [List.forall_mem_cons, List.not_mem_nil, false_implies, implies_true, and_true]
  constructor
  · rintro ⟨h₁, h₂, h₃, h₄, h₅, h₆, h₇, h₈, h₉, h₁₀⟩
    exact ⟨h₁, h₂, h₃, h₄, h₅, h₆, h₇, h₈, h₉, h₁₀⟩
  · rintro ⟨h₁, h₂, h₃, h₄, h₅, h₆, h₇, h₈, h₉, h₁₀⟩
    exact ⟨h₁, h₂, h₃, h₄, h₅, h₆, h₇, h₈, h₉, h₁₀⟩

/-- A check that computes a value and then decides gives its own verdict only. -/
theorem eq_of_bind_verdictIf {α : Type} {x : Exec α} {p : α → Prop} [DecidablePred p]
    {v : BlockQuality} (h : (x >>= fun a => .ok (verdictIf (p a) v)) = .ok (some q)) : q = v := by
  obtain ⟨a, -, ha⟩ := bind_eq_ok.mp h
  simp only [Except.ok.injEq, verdictIf_eq_some] at ha
  exact ha.2.symm

/-- The same check passes when the computed value does not call for the verdict. -/
theorem bind_verdictIf_eq_none {α : Type} {x : Exec α} {p : α → Prop} [DecidablePred p]
    {v : BlockQuality} :
    (x >>= fun a => .ok (verdictIf (p a) v)) = .ok none ↔ ∃ a, x = .ok a ∧ ¬ p a := by
  rw [bind_eq_ok]
  simp

/-- The checks of a transaction refuse only. -/
theorem eq_bad_of_checkTransaction (h : c.checkTransaction P now b = .ok (some q)) : q = .bad := by
  unfold checkTransaction at h
  split at h
  · cases h
  · have hmem := mem_of_firstVerdict_eq_some h
    simp only [List.mem_cons, List.not_mem_nil, or_false] at hmem
    rcases hmem with h | h | h | h
    · exact eq_of_bind_verdictIf h.symm
    · obtain ⟨_, -, h⟩ := bind_eq_ok.mp h.symm
      exact eq_of_bind_verdictIf h
    · exact eq_of_bind_verdictIf h.symm
    · obtain ⟨d, -, h⟩ := bind_eq_ok.mp h.symm
      cases d with
      | none => cases h
      | some d =>
        simp only [Except.ok.injEq, verdictIf_eq_some] at h
        exact h.2.symm

/-- The check of the parent refuses, or asks for older blocks. -/
theorem eq_of_checkParent (h : c.checkParent P b = .ok (some q)) : q = .bad ∨ q = .rewind := by
  obtain ⟨prev, -, h⟩ := bind_eq_ok.mp h
  split at h
  · cases h
  · split at h
    · obtain ⟨depth, -, h⟩ := bind_eq_ok.mp h
      cases h
      split
      · exact Or.inl rfl
      · exact Or.inr rfl
    · cases h

/-- The checks before the tip refuse, postpone or rewind; they accept nothing. -/
theorem eq_of_firstVerdict_checks (h : firstVerdict (c.checks P now b last) = .ok (some q)) :
    q = .bad ∨ q = .future ∨ q = .rewind := by
  have hmem := mem_of_firstVerdict_eq_some h
  simp only [checks, List.mem_cons, List.not_mem_nil, or_false] at hmem
  rcases hmem with h | h | h | h | h | h | h | h | h | h
  · simp only [checkVersion, Except.ok.injEq, eq_comm, verdictIf_eq_some] at h
    exact Or.inl h.2
  · simp only [checkWrongHash, Except.ok.injEq, eq_comm, verdictIf_eq_some] at h
    exact Or.inl h.2
  · exact Or.inl (eq_of_bind_verdictIf h.symm)
  · unfold checkAhead at h
    split at h
    · cases h
    · exact Or.inr (Or.inl (eq_of_bind_verdictIf h.symm))
  · exact Or.inl (eq_of_bind_verdictIf h.symm)
  · exact Or.inl (eq_of_bind_verdictIf h.symm)
  · simp only [checkHash, Except.ok.injEq, eq_comm, verdictIf_eq_some] at h
    exact Or.inl h.2
  · exact Or.inl (eq_of_bind_verdictIf h.symm)
  · rcases eq_of_checkParent h.symm with h | h
    · exact Or.inl h
    · exact Or.inr (Or.inr h)
  · exact Or.inl (eq_bad_of_checkTransaction h.symm)

/-- The reading of the clock leaves room for the minute of tolerance. -/
theorem checkClock_eq :
    checkClock P now b = .ok (verdictIf (now.secs.toInt + 60 < b.timestamp.toInt) .bad) := by
  have hupper := now.upper
  have hlower := now.lower
  have hsixty : (60 : Int64).toInt = 60 := rfl
  have hlow : -2 ^ 63 ≤ now.secs.toInt + (60 : Int64).toInt := by
    rw [hsixty]
    omega
  have hhigh : now.secs.toInt + (60 : Int64).toInt < 2 ^ 63 := by
    rw [hsixty]
    omega
  have hlt : b.timestamp > now.secs + 60 ↔ now.secs.toInt + 60 < b.timestamp.toInt := by
    rw [gt_iff_lt, Int64.lt_iff_toInt_lt, toInt_add_of_range hlow hhigh, hsixty]
  rw [checkClock, addI64_of_range hlow hhigh, ok_bind]
  simp only [verdictIf, hlt]

/-! ## Facts about a block that has passed -/

namespace Passed

variable (h : Passed P now c b last)
include h

/-- The block is at most a minute ahead of the clock. -/
theorem timestamp_le : b.timestamp.toInt ≤ now.secs.toInt + 60 := by
  have hclock := h.clock
  rw [checkClock_eq, Except.ok.injEq, verdictIf_eq_none] at hclock
  omega

/-- Its hash is right. -/
theorem checkBlockHash : checkBlockHash P b := by
  have hh := h.hash
  simpa [checkHash] using hh

theorem hash_length : b.hash.length = 32 := length_of_checkBlockHash h.checkBlockHash

/-- Its signature is right. -/
theorem checkBlockSignature : checkBlockSignature P b = .ok true := by
  obtain ⟨good, hgood, hnot⟩ := bind_verdictIf_eq_none.mp h.signature
  rw [hgood]
  cases good with
  | true => rfl
  | false => exact absurd (by simp) hnot

theorem signature_length : b.signature.length = 64 :=
  (length_of_checkBlockSignature h.checkBlockSignature).1

/-- No hash reaches more than 128 bits. -/
theorem difficulty_le : b.difficulty.toNat ≤ 128 := by
  obtain ⟨reached, hreached, hhash⟩ := bind_verdictIf_eq_none.mp h.hashDifficulty
  have hmax := hashDifficulty_le hreached
  omega

/-- The transaction of a block that passes is of a known class: the others would need a
difficulty that no hash reaches. -/
theorem class_eq {t : Transaction} (ht : b.transaction = some t) :
    t.class' = classDomain ∨ t.class' = classOrigin := by
  obtain ⟨needed, hneeded, hdeclared⟩ := bind_verdictIf_eq_none.mp h.declaredDifficulty
  have hlow : needed.toNat ≤ 128 := by
    rw [UInt32.not_lt, UInt32.le_iff_toNat_le] at hdeclared
    exact hdeclared.trans h.difficulty_le
  unfold neededDifficulty at hneeded
  rw [ht] at hneeded
  simp only [getDifficultyForTransaction] at hneeded
  by_cases hd : t.class' = classDomain
  · exact Or.inl hd
  · by_cases ho : t.class' = classOrigin
    · exact Or.inr ho
    · rw [if_neg hd, if_neg ho] at hneeded
      cases hneeded
      exact absurd hlow (by decide)

/-- A stored predecessor has the block's previous hash. -/
theorem prevBlockHash_eq {parent : Block} (hindex : b.index ≠ 0)
    (hparent : c.getBlock (b.index - 1) = some parent) : b.prevBlockHash = parent.hash := by
  have hle : (1 : UInt64).toNat ≤ b.index.toNat := by
    have : b.index.toNat ≠ 0 := fun h0 => hindex (UInt64.toNat_inj.mp h0)
    have : (1 : UInt64).toNat = 1 := rfl
    omega
  have hp := h.parent
  rw [checkParent, subU64_of_le hle, ok_bind, hparent] at hp
  simp only at hp
  by_contra hne
  rw [if_pos hne] at hp
  obtain ⟨depth, -, hdepth⟩ := bind_eq_ok.mp hp
  cases hdepth

end Passed

/-! ## Accepting verdicts -/

/-- The verdicts that are only given after the whole decision list has been passed. -/
def Accepting (q : BlockQuality) : Prop := q = .good ∨ q = .twin ∨ q = .fork

theorem accepting_good : Accepting .good := Or.inl rfl

theorem accepting_fork : Accepting .fork := Or.inr (Or.inr rfl)

/-- An accepted block has passed all checks and is accepted by its position. -/
theorem checkBlock_accepting (hq : Accepting q) :
    c.checkBlock P now b last lastFull = .ok (q, s) ↔
      Passed P now c b last ∧ c.checkPosition P b last lastFull = .ok (q, s) := by
  rw [checkBlock, bind_eq_ok, ← firstVerdict_checks_eq_none]
  constructor
  · rintro ⟨r, hr, h⟩
    cases r with
    | none => exact ⟨hr, h⟩
    | some q' =>
      cases h
      rcases eq_of_firstVerdict_checks hr with rfl | rfl | rfl <;>
        rcases hq with h | h | h <;> cases h
  · rintro ⟨hr, h⟩
    exact ⟨none, hr, h⟩

/-- Acceptance above an existing tip. -/
theorem checkPosition_some (hq : Accepting q) :
    c.checkPosition P b (some l) lastFull = .ok (q, s) ↔
      ¬ (b.timestamp < l.timestamp ∧ b.index > l.index) ∧
      (∃ next, addU64 P.checks l.index 1 = .ok next ∧ ¬ next < b.index) ∧
      c.signStage P b lastFull = .ok (true, s) ∧ c.compareWithTip b l = q := by
  have hnb : q ≠ .bad := by rcases hq with rfl | rfl | rfl <;> simp
  have hnf : q ≠ .future := by rcases hq with rfl | rfl | rfl <;> simp
  simp only [checkPosition]
  constructor
  · intro h
    split at h
    · cases h; exact absurd rfl hnb
    · rename_i htime
      obtain ⟨next, hnext, h⟩ := bind_eq_ok.mp h
      split at h
      · cases h; exact absurd rfl hnf
      · rename_i hle
        obtain ⟨⟨signed, cache⟩, hsign, h⟩ := bind_eq_ok.mp h
        cases signed with
        | false => cases h; exact absurd rfl hnb
        | true =>
          cases h
          exact ⟨htime, ⟨next, hnext, hle⟩, hsign, rfl⟩
  · rintro ⟨htime, ⟨next, hnext, hle⟩, hsign, hcmp⟩
    rw [if_neg htime, hnext, ok_bind, if_neg hle, hsign, ok_bind]
    simp [hcmp]

/-- Acceptance on an empty chain: the genesis block, of the configured origin if any. -/
theorem checkPosition_none (hq : Accepting q) :
    c.checkPosition P b none lastFull = .ok (q, s) ↔
      b.isGenesis ∧ ¬ (¬ c.origin.isZero ∧ b.hash ≠ c.origin) ∧ q = .good ∧ s = c.signers := by
  have hnb : q ≠ .bad := by rcases hq with rfl | rfl | rfl <;> simp
  have hnf : q ≠ .future := by rcases hq with rfl | rfl | rfl <;> simp
  simp only [checkPosition]
  constructor
  · intro h
    split at h
    · cases h; exact absurd rfl hnf
    · rename_i hgen
      split at h
      · cases h; exact absurd rfl hnb
      · rename_i horigin
        cases h
        exact ⟨not_not.mp hgen, horigin, rfl, rfl⟩
  · rintro ⟨hgen, horigin, rfl, rfl⟩
    rw [if_neg (not_not_intro hgen), if_neg horigin]

/-! ## The comparison with the tip -/

/-- Exactly when the comparison finds a block good. -/
theorem compareWithTip_eq_good :
    c.compareWithTip b l = .good ↔
      (b.index ≤ l.index ∧ ¬ (b.index = l.index ∧ l.hash = b.hash) ∧ c.getBlock b.index = none)
        ∨ (l.index < b.index ∧ b.prevBlockHash = l.hash) := by
  unfold compareWithTip
  by_cases hle : b.index ≤ l.index
  · have hlt : ¬ l.index < b.index := UInt64.not_lt.mpr hle
    rw [if_pos hle]
    by_cases htwin : b.index = l.index ∧ l.hash = b.hash
    · simp [htwin]
    · rw [if_neg htwin]
      cases hget : c.getBlock b.index with
      | none => simp [hle, htwin]
      | some my => by_cases hhash : my.hash ≠ b.hash <;> simp [hhash, hlt]
  · have hlt : l.index < b.index := UInt64.not_le.mp hle
    rw [if_neg hle]
    by_cases hprev : b.prevBlockHash = l.hash <;> simp [hprev, hle, hlt]

/-- Exactly when it finds a fork. -/
theorem compareWithTip_eq_fork :
    c.compareWithTip b l = .fork ↔
      b.index ≤ l.index ∧ ¬ (b.index = l.index ∧ l.hash = b.hash)
        ∧ ∃ my, c.getBlock b.index = some my ∧ my.hash ≠ b.hash := by
  unfold compareWithTip
  by_cases hle : b.index ≤ l.index
  · rw [if_pos hle]
    by_cases htwin : b.index = l.index ∧ l.hash = b.hash
    · simp [htwin]
    · rw [if_neg htwin]
      cases hget : c.getBlock b.index with
      | none => simp
      | some my => by_cases hhash : my.hash ≠ b.hash <;> simp [hhash, hle, htwin]
  · rw [if_neg hle]
    by_cases hprev : b.prevBlockHash = l.hash <;> simp [hprev, hle]

/-- A twin is not ahead of the tip. -/
theorem index_le_of_compareWithTip_eq_twin (h : c.compareWithTip b l = .twin) :
    b.index ≤ l.index := by
  unfold compareWithTip at h
  split at h
  · assumption
  · split at h <;> cases h

end Chain
