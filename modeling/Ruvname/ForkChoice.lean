/-
# Fork choice as an order

`Block::is_better_than` lets a full block win against a signing one, and otherwise compares the
scores of the hashes and then the nonces.  The first rule is one-sided: a signing block with the
better score is still better than the full one.

The comparison is a strict total order on a set of candidates exactly if in this set no signing
block has the better score, and no two hashes tie in score and nonce.
-/
import Ruvname.Reachable

open Exec

/-! ## A rank with an override

A library: candidates have a key in a linear order, and those of a favoured class win against
the others whatever their keys are. -/

namespace Favour

variable {α K : Type} [LinearOrder K] (favoured : α → Prop) (key : α → K)

/-- `a` wins: by its class, or by its key. -/
def Wins (a b : α) : Prop := (favoured a ∧ ¬ favoured b) ∨ key b < key a

variable {favoured key} {S : Set α}

/-- No candidate outside of the class has a better key than one inside. -/
def Aligned (favoured : α → Prop) (key : α → K) (S : Set α) : Prop :=
  ∀ a ∈ S, ∀ b ∈ S, favoured a → ¬ favoured b → ¬ key a < key b

theorem wins_of_same {a b : α} (h : favoured a ↔ favoured b) :
    Wins favoured key a b ↔ key b < key a := by
  unfold Wins
  rw [h]
  simp

/-- Nobody wins in both directions exactly if the keys are aligned with the class. -/
theorem asymm_iff :
    (∀ a ∈ S, ∀ b ∈ S, ¬ (Wins favoured key a b ∧ Wins favoured key b a)) ↔ Aligned favoured key S := by
  constructor
  · intro h a ha b hb hfa hfb hlt
    exact h a ha b hb ⟨Or.inl ⟨hfa, hfb⟩, Or.inr hlt⟩
  · rintro h a ha b hb ⟨hab, hba⟩
    rcases hab with ⟨hfa, hfb⟩ | hab
    · rcases hba with ⟨hfb', -⟩ | hba
      · exact hfb hfb'
      · exact h a ha b hb hfa hfb hba
    · rcases hba with ⟨hfb, hfa⟩ | hba
      · exact h b hb a ha hfb hfa hab
      · exact lt_asymm hab hba

/-- Then winning is transitive: by class first, by key inside a class. -/
theorem Aligned.trans (h : Aligned favoured key S) {a b c : α} (ha : a ∈ S) (hb : b ∈ S) (hc : c ∈ S)
    (hab : Wins favoured key a b) (hbc : Wins favoured key b c) : Wins favoured key a c := by
  rcases hab with ⟨hfa, hfb⟩ | hab
  · rcases hbc with ⟨hfb', -⟩ | hbc
    · exact absurd hfb' hfb
    · refine Or.inl ⟨hfa, fun hfc => ?_⟩
      exact h c hc b hb hfc hfb hbc
  · rcases hbc with ⟨hfb, hfc⟩ | hbc
    · refine Or.inl ⟨?_, hfc⟩
      by_contra hfa
      exact h b hb a ha hfb hfa hab
    · exact Or.inr (hbc.trans hab)

/-- One of two candidates wins unless they are of one class and have one key. -/
theorem total_iff {a b : α} : (Wins favoured key a b ∨ Wins favoured key b a)
    ↔ ((favoured a ↔ favoured b) → key a ≠ key b) := by
  constructor
  · rintro h hsame heq
    rw [wins_of_same hsame, wins_of_same hsame.symm, heq] at h
    exact h.elim (lt_irrefl _) (lt_irrefl _)
  · intro h
    by_cases hsame : favoured a ↔ favoured b
    · rw [wins_of_same hsame, wins_of_same hsame.symm]
      exact (lt_or_gt_of_ne (h hsame)).symm
    · by_cases hfa : favoured a
      · refine Or.inl (Or.inl ⟨hfa, fun hfb => hsame ⟨fun _ => hfb, fun _ => hfa⟩⟩)
      · refine Or.inr (Or.inl ⟨?_, hfa⟩)
        by_contra hfb
        exact hsame ⟨fun h => absurd h hfa, fun h => absurd h hfb⟩

end Favour

/-! ## The comparison of blocks -/

namespace Block

variable {checks : Bool} {a b : Block} {S : Set Block}

/-- `a.is_better_than(b)`. -/
def Better (checks : Bool) (a b : Block) : Prop := a.isBetterThan checks b = .ok true

/-- A full block carries a transaction, a signing block does not. -/
def IsFull (b : Block) : Prop := b.transaction.isSome

/-- The score of the hash. -/
def score (b : Block) : ℕ := ((hashScore false b.hash).toOption).getD 0

/-- What decides between two blocks of one kind: the score, and then the smaller nonce. -/
def rank (b : Block) : ℕ ×ₗ ℕᵒᵈ := toLex (b.score, OrderDual.toDual b.nonce.toNat)

theorem rank_lt : b.rank < a.rank ↔ b.score < a.score ∨ b.score = a.score ∧ a.nonce < b.nonce := by
  unfold rank
  rw [Prod.Lex.toLex_lt_toLex, OrderDual.toDual_lt_toDual, UInt64.lt_iff_toNat_lt]

theorem hashScore_eq_score (h : b.hash.length = 32) : hashScore checks b.hash = .ok b.score := by
  have hlt : ¬ b.hash.length < 8 := by omega
  unfold score hashScore hashDifficulty keyHashDifficulty Bytes.getTailU64
  simp only [if_neg hlt, ok_bind]
  rfl

/-- **What the comparison decides.** -/
theorem better_iff (ha : a.hash.length = 32) (hb : b.hash.length = 32) :
    Better checks a b ↔ Favour.Wins IsFull rank a b := by
  have hkind : (a.transaction.isSome ∧ b.transaction.isNone) ↔ a.IsFull ∧ ¬ b.IsFull := by
    unfold IsFull
    cases b.transaction <;> simp
  unfold Better isBetterThan Favour.Wins
  rw [← hkind, rank_lt]
  by_cases hfavoured : a.transaction.isSome ∧ b.transaction.isNone
  · rw [if_pos hfavoured]
    exact ⟨fun _ => Or.inl hfavoured, fun _ => rfl⟩
  · rw [if_neg hfavoured, hashScore_eq_score ha, hashScore_eq_score hb, ok_bind, ok_bind,
      Except.ok.injEq, decide_eq_true_eq, or_iff_right hfavoured]
    constructor
    · rintro (h | ⟨heq, -, hlt⟩)
      · exact Or.inl h
      · exact Or.inr ⟨heq.symm, hlt⟩
    · rintro (h | ⟨heq, hlt⟩)
      · exact Or.inl h
      · exact Or.inr ⟨heq.symm, UInt64.ne_of_lt hlt, hlt⟩

/-! ## The order -/

/-- **What fork choice needs**: among these candidates the comparison is asymmetric, transitive,
and decides between any two different hashes. -/
structure StrictTotal (checks : Bool) (S : Set Block) : Prop where
  asymm : ∀ a ∈ S, ∀ b ∈ S, ¬ (Better checks a b ∧ Better checks b a)
  trans : ∀ a ∈ S, ∀ b ∈ S, ∀ c ∈ S, Better checks a b → Better checks b c → Better checks a c
  total : ∀ a ∈ S, ∀ b ∈ S, a.hash ≠ b.hash → Xor (Better checks a b) (Better checks b a)

/-- The candidates between which there is no doubt: no signing block ranks above a full one, and
no two blocks of one kind with different hashes rank the same. -/
structure Unambiguous (S : Set Block) : Prop where
  full : ∀ a ∈ S, ∀ b ∈ S, a.IsFull → ¬ b.IsFull → ¬ a.rank < b.rank
  tie : ∀ a ∈ S, ∀ b ∈ S, a.hash ≠ b.hash → (a.IsFull ↔ b.IsFull) → a.rank ≠ b.rank

/-- **The comparison is a strict total order exactly on unambiguous candidates.** -/
theorem strictTotal_iff (hS : ∀ b ∈ S, b.hash.length = 32) :
    StrictTotal checks S ↔ Unambiguous S := by
  have hbetter : ∀ a ∈ S, ∀ b ∈ S, Better checks a b ↔ Favour.Wins IsFull rank a b :=
    fun a ha b hb => better_iff (hS a ha) (hS b hb)
  have hasymm : (∀ a ∈ S, ∀ b ∈ S, ¬ (Better checks a b ∧ Better checks b a))
      ↔ Favour.Aligned IsFull rank S := by
    rw [← Favour.asymm_iff]
    constructor
    · intro h a ha b hb
      rw [← hbetter a ha b hb, ← hbetter b hb a ha]
      exact h a ha b hb
    · intro h a ha b hb
      rw [hbetter a ha b hb, hbetter b hb a ha]
      exact h a ha b hb
  constructor
  · intro h
    refine ⟨hasymm.mp h.asymm, ?_⟩
    intro a ha b hb hne
    have hone : Better checks a b ∨ Better checks b a := by
      rcases h.total a ha b hb hne with ⟨hab, -⟩ | ⟨hba, -⟩
      · exact Or.inl hab
      · exact Or.inr hba
    rw [hbetter a ha b hb, hbetter b hb a ha] at hone
    exact Favour.total_iff.mp hone
  · intro h
    have haligned : Favour.Aligned IsFull rank S := h.full
    refine ⟨hasymm.mpr haligned, ?_, ?_⟩
    · intro a ha b hb c hc hab hbc
      rw [hbetter a ha b hb] at hab
      rw [hbetter b hb c hc] at hbc
      exact (hbetter a ha c hc).mpr (haligned.trans ha hb hc hab hbc)
    · intro a ha b hb hne
      rw [xor_iff_or_and_not_and]
      refine ⟨?_, hasymm.mpr haligned a ha b hb⟩
      rw [hbetter a ha b hb, hbetter b hb a ha]
      exact Favour.total_iff.mpr (h.tie a ha b hb hne)

end Block

namespace Sample

/-- Candidates for index 2: a full block, and signing blocks of lower and of higher score. -/
def full2 : Block := block 2 10 4 genesis.hash (key 2) (some (domain ⟨[7]⟩))
def low2 : Block := block 2 10 3 genesis.hash (key 3) none
def high2 : Block := block 2 10 8 genesis.hash (key 4) none

end Sample

namespace Block

/-- A full block above a signing one. -/
theorem strictTotal_full2 : StrictTotal true {Sample.full2, Sample.low2} := by
  have hlength : ∀ b ∈ ({Sample.full2, Sample.low2} : Set Block), b.hash.length = 32 := by
    rintro b (rfl | rfl) <;> decide
  refine (strictTotal_iff hlength).mpr ⟨?_, ?_⟩
  · rintro a (rfl | rfl) b (rfl | rfl) hfull hsigning
    · exact absurd hfull hsigning
    · rw [rank_lt]
      decide +kernel
    · exact absurd hfull (by unfold IsFull; decide)
    · exact absurd hfull hsigning
  · rintro a (rfl | rfl) b (rfl | rfl) hne hkind
    · exact absurd rfl hne
    · exact absurd hkind (by unfold IsFull; decide)
    · exact absurd hkind (by unfold IsFull; decide)
    · exact absurd rfl hne

/-- Among all blocks of index 2 the comparison is no order: the full block and the signing block
of higher score are each better than the other. -/
theorem not_strictTotal_high2 : ¬ StrictTotal true {b | b.index = 2 ∧ b.hash.length = 32} := by
  intro h
  apply h.asymm Sample.full2 ⟨rfl, by decide⟩ Sample.high2 ⟨rfl, by decide⟩
  unfold Better
  decide +kernel

end Block
