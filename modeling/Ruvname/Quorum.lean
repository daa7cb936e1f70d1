/-
# Signing blocks between full blocks

From index `BLOCK_SIGNERS_START` on, a full block is to be followed by at least
`BLOCK_SIGNERS_MIN` signing blocks before the next full one.  The miner keeps to the rule
(`is_waiting_signers`); the validator does not enforce it, as `is_good_sign_block` returns
at once for a block with a transaction.  The rule holds in every chain whose full blocks
are appended when no signers are awaited.
-/
import Ruvname.Ownership

open Exec

/-- Full positions of the signed part of a ledger keep their distance. -/
def Ledger.Spaced (f : Ledger) : Prop :=
  ∀ i j x y, f i = some x → f j = some y → blockSignersStart.toNat ≤ i → i < j →
    x.transaction.isSome → y.transaction.isSome → i + blockSignersMin.toNat + 1 ≤ j

/-- Between two full rows of the signed part of the chain there are enough signing rows. -/
def Chain.QuorumKept (c : Chain) : Prop :=
  ∀ (i j : ℤ) x y, c.db.blocks.find? i = some x → c.db.blocks.find? j = some y →
    (blockSignersStart.toNat : ℤ) ≤ i → i < j → x.transaction.isSome → y.transaction.isSome →
    i + blockSignersMin.toNat + 1 ≤ j

namespace Chain

variable {P : Platform} {now : UtcTime} {c c' : Chain} {b l : Block} {f : Ledger} {s : SignersCache}

theorem quorumKept_of_spaced (hr : c.db.Represents f) (hf : f.Spaced) : c.QuorumKept := by
  intro i j x y hi hj hstart hlt hx hy
  obtain ⟨m, a, rfl, ha, rfl⟩ := hr.exists_of_find? hi
  obtain ⟨n, d, rfl, hd, rfl⟩ := hr.exists_of_find? hj
  rw [BlockRow.ofBlock_transaction_isSome] at hx hy
  have := hf m n a d ha hd (by omega) (by omega) hx hy
  omega

/-- When no signers are awaited for a full block of the signed part, it has them all. -/
theorem signed_of_not_waiting {full : Block} (hfull : c.lastFullBlock = some full)
    (hle : full.index ≤ c.getHeight) (hstart : blockSignersStart ≤ full.index)
    (hnot : c.isWaitingSigners P ≠ .ok true) :
    full.index.toNat + blockSignersMin.toNat ≤ c.getHeight.toNat := by
  have hle' := UInt64.le_iff_toNat_le.mp hle
  have hheight : ¬ c.getHeight < blockSignersStart := by
    rw [UInt64.not_lt, UInt64.le_iff_toNat_le]
    exact (UInt64.le_iff_toNat_le.mp hstart).trans hle'
  rw [isWaitingSigners, if_neg hheight, hfull] at hnot
  simp only [subU64_of_le hle', ok_bind, ne_eq, Except.ok.injEq, decide_eq_true_eq] at hnot
  rw [UInt64.not_lt, UInt64.le_iff_toNat_le, UInt64.toNat_sub_of_le _ _ hle] at hnot
  omega

/-! ## One more block -/

/-- The condition on an appended block: a full one does not come while signers are awaited
for the last full block of the signed part. -/
def QuorumCond (P : Platform) (c : Chain) : ChainAction → Prop
  | .append _ b => b.transaction.isSome →
    ¬ (c.isWaitingSigners P = .ok true
      ∧ ∃ full, c.lastFullBlock = some full ∧ blockSignersStart ≤ full.index)
  | _ => False

/-- A block on top of a spaced ledger. -/
theorem Cached.spaced_put (hc : c.Cached f) (hf : f.Spaced) (hindex : b.index.toNat = c.getHeight.toNat + 1)
    (hcond : QuorumCond P c (.append now b)) : (f.put b).Spaced := by
  intro i j x y hx hy hstart hlt hxfull hyfull
  have hi : i ≠ b.index.toNat := by
    rintro rfl
    rw [Ledger.put_of_ne (by omega)] at hy
    have := hc.top j (by rw [hy]; rfl)
    omega
  rw [Ledger.put_of_ne hi] at hx
  by_cases hj : j = b.index.toNat
  · subst hj
    rw [Ledger.put_self] at hy
    cases hy
    -- the block below is at most the last full block, which has its signers
    have hlast := hc.full
    cases hfull : c.lastFullBlock with
    | none =>
      rw [hfull] at hlast
      have hnone := hlast i x hx
      rw [Option.isNone_iff_eq_none] at hnone
      rw [hnone] at hxfull
      cases hxfull
    | some full =>
      rw [hfull] at hlast
      have hmax := hlast.2.2 i x hx hxfull
      have hsigned : blockSignersStart ≤ full.index :=
        UInt64.le_iff_toNat_le.mpr (hstart.trans hmax)
      have := signed_of_not_waiting (P := P) hfull (hc.index_le hfull) hsigned
        (fun hwaiting => hcond hyfull ⟨hwaiting, full, hfull, hsigned⟩)
      omega
  · rw [Ledger.put_of_ne hj] at hy
    exact hf i j x y hx hy hstart hlt hxfull hyfull

/-- Position 0 is not in the signed part. -/
theorem spaced_put_zero (hf : f.Spaced) (hb : b.index = 0) : (f.put b).Spaced := by
  have hzero : b.index.toNat = 0 := by
    rw [hb]
    rfl
  have hstart : 1 ≤ blockSignersStart.toNat := by decide
  intro i j x y hx hy hi hlt
  rw [Ledger.put_of_ne (by omega)] at hx hy
  exact hf i j x y hx hy hi hlt

/-- A chain whose tip is a block of index 0, which an unchecked build accepts.  Nothing can
be appended to it: index 1 is taken. -/
structure Frozen (c : Chain) (f : Ledger) : Prop extends c.Grounded f where
  zero : ∃ l, c.lastBlock = some l ∧ l.index = 0
  one : (f 1).isSome

theorem Frozen.append (hz : c.Frozen f) (hgood : c.checkNewBlock P now b = .ok (.good, s))
    (h : { c with signers := s }.addBlock b = .ok c') : c'.Frozen f := by
  rcases append_ledger hz.toGrounded hgood h with ⟨rfl, -⟩ | ⟨hfree, -, -⟩
  · exact ⟨hz.toGrounded.congr rfl rfl, hz.zero, hz.one⟩
  · exfalso
    obtain ⟨l, hl, hl0⟩ := hz.zero
    have hlzero : l.index.toNat = 0 := by
      rw [hl0]
      rfl
    rcases hz.good_cases hgood with ⟨hnone, -⟩ | ⟨l', hl', ⟨hindex, -⟩ | ⟨-, hf0⟩⟩
    · rw [hl] at hnone
      cases hnone
    · rw [hl, Option.some.injEq] at hl'
      subst hl'
      have hone := hz.one
      rw [hindex, hlzero] at hfree
      rw [hfree] at hone
      cases hone
    · obtain ⟨x, hx, -⟩ := hz.tip l hl
      rw [hlzero, hf0] at hx
      cases hx

/-- A block of index 0 freezes the chain. -/
theorem Cached.append_zero (hc : c.Cached f) (hb : b.index = 0)
    (hgood : c.checkNewBlock P now b = .ok (.good, s))
    (h : { c with signers := s }.addBlock b = .ok c') :
    c'.Cached f ∨ c'.Frozen (f.put b) := by
  rcases append_ledger hc.toGrounded hgood h with ⟨rfl, -⟩ | ⟨-, hg', hadded⟩
  · exact Or.inl (hc.congr rfl rfl rfl)
  · refine Or.inr ⟨hg', ⟨b, hadded.lastBlock, hb⟩, ?_⟩
    have hzero : b.index.toNat = 0 := by
      rw [hb]
      rfl
    rw [Ledger.put_of_ne (by omega)]
    rcases hc.good_cases hgood with ⟨-, hgen, -⟩ | ⟨l, hl, hplace⟩
    · have h1 : b.index = 1 := (of_decide_eq_true hgen).1
      rw [hb] at h1
      exact absurd h1 (by decide)
    · obtain ⟨x, hx, -⟩ := hc.tip l hl
      rcases hplace with ⟨hindex, -⟩ | ⟨-, hf0⟩
      · omega
      · have hl0 : l.index.toNat ≠ 0 := by
          intro h0
          rw [h0, hf0] at hx
          cases hx
        exact hc.db.closed _ (by rw [hx]; rfl) 1 le_rfl (by omega)

/-! ## Chains grown by good blocks -/

/-- **The step lemma.** -/
theorem quorum_step {a : ChainAction} (hf : f.Spaced) (hc : c.Cached f ∨ c.Frozen f)
    (hcond : QuorumCond P c a) (h : c.Step P a c') :
    ∃ f', f'.Spaced ∧ (c'.Cached f' ∨ c'.Frozen f') := by
  cases a with
  | append now b =>
    obtain ⟨s, hgood, hadd⟩ := h
    rcases hc with hc | hz
    · by_cases hb : b.index = 0
      · rcases hc.append_zero hb hgood hadd with hc' | hz'
        · exact ⟨f, hf, Or.inl hc'⟩
        · exact ⟨_, spaced_put_zero hf hb, Or.inr hz'⟩
      · rcases hc.append hb hgood hadd with hc' | ⟨-, hc'⟩
        · exact ⟨f, hf, Or.inl hc'⟩
        · exact ⟨_, hc.spaced_put hf (hc.index_eq_succ hb hgood) hcond, Or.inl hc'⟩
    · exact ⟨f, hf, Or.inr (hz.append hgood hadd)⟩
  | _ => exact hcond.elim

/-- **The signing quorum.**  In every chain grown from an empty database by good blocks that
meet the condition, enough signing blocks separate the full blocks of the signed part. -/
theorem run_quorumKept {origin : Bytes}
    (run : Run (Step P) (QuorumCond P) (Chain.new origin Db.empty) c) : c.QuorumKept := by
  have hinv : ∃ f : Ledger, f.Spaced ∧ (c.Cached f ∨ c.Frozen f) := by
    refine run.invariant (I := fun c => ∃ f : Ledger, f.Spaced ∧ (c.Cached f ∨ c.Frozen f)) ?_ ?_
    · obtain ⟨f, hc⟩ := Cached.of_new Db.represents_empty origin
      have hempty := hc.db
      rw [new_empty] at hempty
      refine ⟨f, fun i j x y hx => ?_, Or.inl hc⟩
      rw [hempty.eq_none_of_empty] at hx
      cases hx
    · rintro c₁ a c₂ ⟨f, hf, hc⟩ hcond hstep
      exact quorum_step hf hc hcond hstep
  obtain ⟨f, hf, hc | hz⟩ := hinv
  · exact quorumKept_of_spaced hc.db hf
  · exact quorumKept_of_spaced hz.db hf

end Chain

namespace Sample

/-- The origin block and 33 signing blocks, by eight keys in turn. -/
def early : List Block :=
  genesis :: (List.range 33).map fun k =>
    block (UInt64.ofNat (k + 2)) 10 (UInt64.ofNat (k + 2)) (hash [UInt8.ofNat (k + 1)])
      (key (UInt8.ofNat (k % 8 + 10))) none

/-- The first full block of the signed part. -/
def full35 : Block := block 35 20 35 (hash [34]) (key 2) (some (domain ⟨[7]⟩))

/-- A full block right on top of it. -/
def full36 : Block := block 36 30 36 (hash [35]) (key 3) (some (domain ⟨[8]⟩))

/-- Four of its signers. -/
def signers35 : List Block :=
  [block 36 30 36 (hash [35]) (key 10) none, block 37 30 37 (hash [36]) (key 17) none,
    block 38 30 38 (hash [37]) (key 16) none, block 39 30 39 (hash [38]) (key 15) none]

/-- The block of the first of them. -/
def signing36 : Block := block 36 30 36 (hash [35]) (key 10) none

/-- A full block on top of the four signers. -/
def full40 : Block := block 40 40 40 (hash [39]) (key 3) (some (domain ⟨[8]⟩))

end Sample

namespace Chain

theorem quorumCond_of_signing {P : Platform} {c : Chain} {now : UtcTime} {b : Block}
    (h : b.transaction = none) : QuorumCond P c (.append now b) := by
  intro hfull
  rw [h] at hfull
  cases hfull

theorem quorumCond_of_not_waiting {P : Platform} {c : Chain} {now : UtcTime} {b : Block}
    (h : ∃ waiting, c.isWaitingSigners P = .ok waiting ∧ waiting = false) :
    QuorumCond P c (.append now b) := by
  rintro - ⟨hwaiting, -⟩
  obtain ⟨waiting, hok, rfl⟩ := h
  rw [hok] at hwaiting
  cases hwaiting

/-- Full blocks 35 and 40, with four signing blocks in between. -/
theorem run_quorumKept_full40 : ∃ c,
    Run (Step (Sample.platform true)) (QuorumCond (Sample.platform true))
        (Chain.new Sample.genesis.hash Db.empty) c
      ∧ c.getHeight = 40 ∧ c.QuorumKept := by
  have hrun :
      (∃ waiting, (Chain.new Sample.genesis.hash Db.empty).isWaitingSigners (Sample.platform true)
        = .ok waiting ∧ waiting = false)
      ∧ ∃ c₁, (Chain.new Sample.genesis.hash Db.empty).appendAll (Sample.platform true) Sample.now
        [Sample.genesis] = .ok (some c₁)
      ∧ ∃ c₂, c₁.appendAll (Sample.platform true) Sample.now Sample.early.tail = .ok (some c₂)
      ∧ (∃ waiting, c₂.isWaitingSigners (Sample.platform true) = .ok waiting ∧ waiting = false)
      ∧ ∃ c₃, c₂.appendAll (Sample.platform true) Sample.now [Sample.full35] = .ok (some c₃)
      ∧ ∃ c₄, c₃.appendAll (Sample.platform true) Sample.now Sample.signers35 = .ok (some c₄)
      ∧ (∃ waiting, c₄.isWaitingSigners (Sample.platform true) = .ok waiting ∧ waiting = false)
      ∧ ∃ c₅, c₄.appendAll (Sample.platform true) Sample.now [Sample.full40] = .ok (some c₅)
        ∧ c₅.getHeight = 40 := by
    decide +kernel
  obtain ⟨hw₀, c₁, h₁, c₂, h₂, hw₂, c₃, h₃, c₄, h₄, hw₄, c₅, h₅, hheight⟩ := hrun
  have hsigning : ∀ b ∈ Sample.early.tail, b.transaction = none := by
    intro b hb
    obtain ⟨k, -, rfl⟩ := List.mem_map.mp hb
    rfl
  have hsigners : ∀ b ∈ Sample.signers35, b.transaction = none := by decide
  have hrun₁ := Run.single (quorumCond_of_not_waiting hw₀) (appendAll_singleton h₁)
  have hrun₂ := hrun₁.trans (appendAll_run (fun c b hb => quorumCond_of_signing (hsigning b hb)) h₂)
  have hrun₃ := hrun₂.tail (quorumCond_of_not_waiting hw₂) (appendAll_singleton h₃)
  have hrun₄ := hrun₃.trans (appendAll_run (fun c b hb => quorumCond_of_signing (hsigners b hb)) h₄)
  have hrun₅ := hrun₄.tail (quorumCond_of_not_waiting hw₄) (appendAll_singleton h₅)
  exact ⟨c₅, hrun₅, hheight, run_quorumKept hrun₅⟩

/-- Two adjacent full blocks are both good. -/
theorem not_quorumKept_full36 : ∃ c,
    Run (Step (Sample.platform true)) (fun _ a => ∃ now b, a = .append now b)
        (Chain.new Sample.genesis.hash Db.empty) c
      ∧ ¬ c.QuorumKept := by
  have hrun : ∃ c,
      (Chain.new Sample.genesis.hash Db.empty).appendAll (Sample.platform true) Sample.now
          (Sample.early ++ [Sample.full35, Sample.full36]) = .ok (some c)
        ∧ (c.db.blocks.find? 35).map (fun row => row.transaction.isSome) = some true
        ∧ (c.db.blocks.find? 36).map (fun row => row.transaction.isSome) = some true := by
    decide +kernel
  obtain ⟨c, hc, hrow, hrow'⟩ := hrun
  refine ⟨c, appendAll_run (fun _ b _ => ⟨_, b, rfl⟩) hc, fun hquorum => ?_⟩
  obtain ⟨x, hx, hxfull⟩ := Option.map_eq_some_iff.mp hrow
  obtain ⟨y, hy, hyfull⟩ := Option.map_eq_some_iff.mp hrow'
  exact absurd (hquorum 35 36 x y hx hy (by decide) (by decide) hxfull hyfull) (by decide)

end Chain
