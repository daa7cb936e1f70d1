/-
# The search for signers

The loop of `get_block_signers` draws blocks at the positions `tail * count mod 2^64` in the window
below the full block, with one change of the tail after 5000 rounds, and collects the keys of their
authors.  What it has collected after a number of rounds is what has been drawn in these rounds
(`Chain.Collected`), so it comes to an end exactly when seven keys are drawn in the long run
(`Chain.searchEnds_iff`).  This depends on the tail: with the tail 0 the same block is drawn for ever.
-/
import Ruvname.Quorum

open Exec

namespace Chain

/-! ## What is drawn -/

section

variable (c : Chain) (full : Block)

/-- `minimum_block_count`. -/
def minimumBlockCount (full : Block) : ℤ :=
  if full.index < 855 then 1 else (asI64 full.index).tdiv 100

/-- The author of a block has enough blocks below the full one. -/
def Eligible (b : Block) : Prop :=
  ¬ (c.db.userBlockCount b.pubKey full.index : ℤ) < minimumBlockCount full

instance (b : Block) : Decidable (c.Eligible full b) := inferInstanceAs (Decidable (¬ _))

/-- The block that is drawn. -/
def drawnBlock (tail count : UInt64) : Option Block :=
  c.getBlock (tail * count % (full.index - 1) + 1)

/-- A round after which the tail is changed, if it has not been changed before. -/
def mitigates (tail count : UInt64) : Bool :=
  (c.drawnBlock full tail count).all (fun b => decide (c.Eligible full b)) &&
    decide (count + 1 > 5000)

/-- The tail has been changed before round `n`. -/
def mitigatedBefore (tail : UInt64) (n : ℕ) : Bool :=
  (List.range n).any fun i => decide (1 ≤ i) && c.mitigates full tail (.ofNat i)

/-- The tail in round `n`. -/
def tailIn (tail : UInt64) (n : ℕ) : UInt64 :=
  if c.mitigatedBefore full tail n then tail / 13 else tail

/-- The key is drawn in round `n`. -/
def DrawnIn (tail : UInt64) (n : ℕ) (key : Bytes) : Prop :=
  ∃ b, c.drawnBlock full (c.tailIn full tail n) (.ofNat n) = some b ∧ c.Eligible full b ∧
    b.pubKey = key ∧ key ≠ full.pubKey

/-- Seven different keys are drawn; where the count may not wrap around, before it would. -/
def EnoughDrawn (checks : Bool) (tail : UInt64) : Prop :=
  ∃ keys : List Bytes, keys.Nodup ∧ keys.length = blockSignersAll ∧
    ∀ key ∈ keys, ∃ n, 1 ≤ n ∧ (checks = true → n < 2 ^ 64 - 1) ∧ c.DrawnIn full tail n key

end

variable {P : Platform} {c : Chain} {full : Block} {tail : UInt64} {result signers : List Bytes}

theorem mitigatedBefore_succ {n : ℕ} (hn : 1 ≤ n) :
    c.mitigatedBefore full tail (n + 1)
      = (c.mitigatedBefore full tail n || c.mitigates full tail (.ofNat n)) := by
  rw [mitigatedBefore, List.range_succ, List.any_append]
  simp [mitigatedBefore, hn]

/-- The tail is changed once. -/
theorem tailIn_succ {n : ℕ} (hn : 1 ≤ n) :
    c.tailIn full tail (n + 1)
      = if c.mitigatedBefore full tail n = false ∧ c.mitigates full tail (.ofNat n) = true
        then tail / 13 else c.tailIn full tail n := by
  unfold tailIn
  rw [mitigatedBefore_succ hn]
  cases c.mitigatedBefore full tail n with
  | true => simp
  | false => simp

/-- What has been collected before round `n`. -/
structure Collected (c : Chain) (full : Block) (tail : UInt64) (n : ℕ) (result : List Bytes) :
    Prop where
  nodup : result.Nodup
  length_le : result.length ≤ blockSignersAll
  mem_iff : ∀ key, key ∈ result ↔ ∃ m, 1 ≤ m ∧ m < n ∧ c.DrawnIn full tail m key

theorem collected_one : c.Collected full tail 1 [] where
  nodup := List.nodup_nil
  length_le := Nat.zero_le _
  mem_iff key := by
    refine iff_of_false List.not_mem_nil ?_
    rintro ⟨m, h₁, h₂, -⟩
    omega

/-- A round that draws no key. -/
theorem Collected.skip {n : ℕ} (h : c.Collected full tail n result)
    (hnone : ∀ key, c.DrawnIn full tail n key → key ∈ result) :
    c.Collected full tail (n + 1) result where
  nodup := h.nodup
  length_le := h.length_le
  mem_iff key := by
    constructor
    · intro hkey
      obtain ⟨m, h₁, h₂, hdrawn⟩ := (h.mem_iff key).mp hkey
      exact ⟨m, h₁, by omega, hdrawn⟩
    · rintro ⟨m, h₁, h₂, hdrawn⟩
      rcases (Nat.lt_succ_iff_lt_or_eq.mp h₂) with hlt | rfl
      · exact (h.mem_iff key).mpr ⟨m, h₁, hlt, hdrawn⟩
      · exact hnone key hdrawn

/-- A round that draws a new key. -/
theorem Collected.push {n : ℕ} {key : Bytes} (h : c.Collected full tail n result) (hn : 1 ≤ n)
    (hlt : result.length < blockSignersAll) (hdrawn : c.DrawnIn full tail n key)
    (hnew : key ∉ result) : c.Collected full tail (n + 1) (result ++ [key]) where
  nodup := List.nodup_append.mpr ⟨h.nodup, List.nodup_singleton key, by
    rintro x hx y hy rfl
    rw [List.mem_singleton] at hy
    exact hnew (hy ▸ hx)⟩
  length_le := by
    rw [List.length_append, List.length_singleton]
    exact hlt
  mem_iff x := by
    rw [List.mem_append, List.mem_singleton, h.mem_iff]
    constructor
    · rintro (⟨m, h₁, h₂, hx⟩ | rfl)
      · exact ⟨m, h₁, by omega, hx⟩
      · exact ⟨n, hn, by omega, hdrawn⟩
    · rintro ⟨m, h₁, h₂, hx⟩
      rcases (Nat.lt_succ_iff_lt_or_eq.mp h₂) with hlt | rfl
      · exact .inl ⟨m, h₁, hlt, hx⟩
      · obtain ⟨b, hb, -, hbx, -⟩ := hx
        obtain ⟨b', hb', -, hbkey, -⟩ := hdrawn
        rw [hb, Option.some.injEq] at hb'
        exact .inr (by rw [← hbx, ← hbkey, hb'])

/-! ## The loop -/

/-- The search from round `n` on. -/
abbrev searchFrom (P : Platform) (c : Chain) (full : Block) (tail : UInt64) (fuel n : ℕ)
    (result : List Bytes) : Exec (List Bytes) :=
  c.searchSigners P full (minimumBlockCount full) (full.index - 1) fuel (c.tailIn full tail n)
    (.ofNat n) (c.mitigatedBefore full tail n) result

/-- What the next round goes on with, in each of the branches that reach the mitigation. -/
theorem searchFrom_mitigation {n fuel : ℕ} (hn : 1 ≤ n)
    (hpass : ∀ b, c.drawnBlock full (c.tailIn full tail n) (.ofNat n) = some b → c.Eligible full b)
    (result' : List Bytes) :
    (if ¬ c.mitigatedBefore full tail n = true ∧ UInt64.ofNat n + 1 > 5000 then
      c.searchSigners P full (minimumBlockCount full) (full.index - 1) fuel
        (c.tailIn full tail n / 13) (UInt64.ofNat n + 1) true result'
    else c.searchSigners P full (minimumBlockCount full) (full.index - 1) fuel (c.tailIn full tail n)
        (UInt64.ofNat n + 1) (c.mitigatedBefore full tail n) result')
      = searchFrom P c full tail fuel (n + 1) result' := by
  have hnext : UInt64.ofNat n + 1 = .ofNat (n + 1) := (UInt64.ofNat_add n 1).symm
  rw [searchFrom, tailIn_succ hn, mitigatedBefore_succ hn, ← hnext]
  cases hbefore : c.mitigatedBefore full tail n with
  | true => simp
  | false =>
    have htail : c.tailIn full tail n = tail := by
      rw [tailIn, hbefore]
      rfl
    rw [htail] at hpass ⊢
    have hall : (c.drawnBlock full tail (.ofNat n)).all (fun b => decide (c.Eligible full b)) = true := by
      rw [Option.all_eq_true]
      exact fun b hb => decide_eq_true (hpass b hb)
    by_cases hlate : UInt64.ofNat n + 1 > 5000
    · simp [mitigates, hall, hlate]
    · simp [mitigates, hall, hlate]

/-- The branch that goes on past the mitigation. -/
theorem searchFrom_skip {n fuel : ℕ} {b : Block} (hn : 1 ≤ n)
    (hdrawn : c.drawnBlock full (c.tailIn full tail n) (.ofNat n) = some b)
    (hfew : ¬ c.Eligible full b) (result' : List Bytes) :
    c.searchSigners P full (minimumBlockCount full) (full.index - 1) fuel (c.tailIn full tail n)
        (UInt64.ofNat n + 1) (c.mitigatedBefore full tail n) result'
      = searchFrom P c full tail fuel (n + 1) result' := by
  have hnext : UInt64.ofNat n + 1 = .ofNat (n + 1) := (UInt64.ofNat_add n 1).symm
  rw [searchFrom, tailIn_succ hn, mitigatedBefore_succ hn, ← hnext]
  cases hbefore : c.mitigatedBefore full tail n with
  | true => simp
  | false =>
    have htail : c.tailIn full tail n = tail := by
      rw [tailIn, hbefore]
      rfl
    rw [htail] at hdrawn
    simp [mitigates, hdrawn, hfew]

/-- **One round** of the search. -/
theorem searchFrom_succ {n fuel : ℕ} (hn : 1 ≤ n) (h : c.Collected full tail n result)
    (hlt : result.length < blockSignersAll) (hadd : addU64 P.checks (.ofNat n) 1 = .ok (.ofNat n + 1)) :
    ∃ result', c.Collected full tail (n + 1) result' ∧
      searchFrom P c full tail (fuel + 1) n result = searchFrom P c full tail fuel (n + 1) result' := by
  cases hdrawn : c.drawnBlock full (c.tailIn full tail n) (.ofNat n) with
  | none =>
    have hget : c.getBlock (c.tailIn full tail n * .ofNat n % (full.index - 1) + 1) = none := hdrawn
    refine ⟨result, h.skip fun key => ?_, ?_⟩
    · rintro ⟨b, hb, -⟩
      rw [hdrawn] at hb
      cases hb
    · rw [searchFrom, searchSigners, if_neg (not_not_intro hlt), hadd, ok_bind]
      simp only [hget]
      exact searchFrom_mitigation hn (by rw [hdrawn]; exact fun b hb => by cases hb) result
  | some b =>
    have hget : c.getBlock (c.tailIn full tail n * .ofNat n % (full.index - 1) + 1) = some b := hdrawn
    by_cases hfew : c.Eligible full b
    · have hpass : ∀ x, c.drawnBlock full (c.tailIn full tail n) (.ofNat n) = some x →
          c.Eligible full x := by
        intro x hx
        rw [hdrawn, Option.some.injEq] at hx
        exact hx ▸ hfew
      have hround : ∀ result', (if b.pubKey ≠ full.pubKey ∧ b.pubKey ∉ result then
          result ++ [b.pubKey] else result) = result' →
          searchFrom P c full tail (fuel + 1) n result = searchFrom P c full tail fuel (n + 1) result' := by
        rintro result' rfl
        rw [searchFrom, searchSigners, if_neg (not_not_intro hlt), hadd, ok_bind]
        simp only [hget]
        rw [if_neg hfew]
        exact searchFrom_mitigation hn hpass _
      by_cases hkey : b.pubKey ≠ full.pubKey ∧ b.pubKey ∉ result
      · exact ⟨_, h.push hn hlt ⟨b, hdrawn, hfew, rfl, hkey.1⟩ hkey.2, hround _ (if_pos hkey)⟩
      · refine ⟨result, h.skip fun key => ?_, hround _ (if_neg hkey)⟩
        rintro ⟨x, hx, -, rfl, hne⟩
        rw [hdrawn, Option.some.injEq] at hx
        subst hx
        exact not_not.mp fun hmem => hkey ⟨hne, hmem⟩
    · refine ⟨result, h.skip fun key => ?_, ?_⟩
      · rintro ⟨x, hx, hpass, -⟩
        rw [hdrawn, Option.some.injEq] at hx
        exact absurd (hx ▸ hpass) hfew
      · rw [searchFrom, searchSigners, if_neg (not_not_intro hlt), hadd, ok_bind]
        simp only [hget]
        rw [if_pos (not_not.mp hfew)]
        exact searchFrom_skip hn hdrawn hfew result

/-- The count can be increased as long as it does not wrap around. -/
theorem addU64_count {checks : Bool} {n : ℕ} (h : checks = true → n < 2 ^ 64 - 1) :
    addU64 checks (.ofNat n) 1 = .ok (.ofNat n + 1) := by
  cases checks with
  | false => exact guarded_unchecked _ _
  | true =>
    have hn := h rfl
    have htoNat : (UInt64.ofNat n).toNat = n := Nat.mod_eq_of_lt (by omega)
    apply addU64_one
    rw [htoNat]
    omega

/-- Where a round goes on, the count has been increased. -/
theorem count_lt {checks : Bool} {n : ℕ} {next : UInt64} (hbound : checks = true → n ≤ 2 ^ 64 - 1)
    (h : addU64 checks (.ofNat n) 1 = .ok next) : checks = true → n < 2 ^ 64 - 1 := by
  rintro rfl
  rcases (hbound rfl).lt_or_eq with hlt | rfl
  · exact hlt
  · cases h

/-- Whatever the search returns has been drawn in some number of rounds. -/
theorem collected_of_searchFrom {fuel n : ℕ} (hn : 1 ≤ n) (hbound : P.checks = true → n ≤ 2 ^ 64 - 1)
    (h : c.Collected full tail n result)
    (hr : searchFrom P c full tail fuel n result = .ok signers) :
    ∃ m, 1 ≤ m ∧ (P.checks = true → m ≤ 2 ^ 64 - 1) ∧ c.Collected full tail m signers ∧
      blockSignersAll ≤ signers.length := by
  induction fuel generalizing n result with
  | zero =>
    unfold searchFrom searchSigners at hr
    split_ifs at hr with hlt
    cases hr
    exact ⟨n, hn, hbound, h, not_lt.mp hlt⟩
  | succ fuel ih =>
    by_cases hlt : result.length < blockSignersAll
    · have hcount : P.checks = true → n < 2 ^ 64 - 1 := by
        unfold searchFrom searchSigners at hr
        rw [if_neg (not_not_intro hlt)] at hr
        obtain ⟨next, hnext, -⟩ := bind_eq_ok.mp hr
        exact count_lt hbound hnext
      obtain ⟨result', h', hround⟩ : ∃ result', c.Collected full tail (n + 1) result' ∧
          searchFrom P c full tail (fuel + 1) n result = searchFrom P c full tail fuel (n + 1) result' :=
        searchFrom_succ hn h hlt (addU64_count hcount)
      rw [hround] at hr
      exact ih (by omega) (fun hchecks => by have := hcount hchecks; omega) h' hr
    · unfold searchFrom searchSigners at hr
      rw [if_pos hlt] at hr
      cases hr
      exact ⟨n, hn, hbound, h, not_lt.mp hlt⟩

/-- If seven keys are drawn in as many rounds as there is fuel, the search returns. -/
theorem returns_searchFrom {fuel n : ℕ} (hn : 1 ≤ n)
    (hbound : P.checks = true → n + fuel ≤ 2 ^ 64 - 1) (h : c.Collected full tail n result)
    (henough : ∀ result', c.Collected full tail (n + fuel) result' →
      blockSignersAll ≤ result'.length) :
    (searchFrom P c full tail fuel n result).Returns := by
  induction fuel generalizing n result with
  | zero =>
    unfold searchFrom searchSigners
    rw [if_neg (not_lt.mpr (henough result h))]
    exact returns_ok _
  | succ fuel ih =>
    by_cases hlt : result.length < blockSignersAll
    · have hcount : P.checks = true → n < 2 ^ 64 - 1 := fun hchecks => by
        have := hbound hchecks
        omega
      obtain ⟨result', h', hround⟩ : ∃ result', c.Collected full tail (n + 1) result' ∧
          searchFrom P c full tail (fuel + 1) n result = searchFrom P c full tail fuel (n + 1) result' :=
        searchFrom_succ hn h hlt (addU64_count hcount)
      rw [hround]
      rw [show n + (fuel + 1) = n + 1 + fuel by omega] at hbound henough
      exact ih (by omega) hbound h' henough
    · unfold searchFrom searchSigners
      rw [if_pos hlt]
      exact returns_ok _

/-- Several keys that are drawn are drawn in a number of rounds. -/
theorem exists_rounds {checks : Bool} {keys : List Bytes}
    (h : ∀ key ∈ keys, ∃ n, 1 ≤ n ∧ (checks = true → n < 2 ^ 64 - 1) ∧ c.DrawnIn full tail n key) :
    ∃ k, (checks = true → 1 + k ≤ 2 ^ 64 - 1) ∧
      ∀ key ∈ keys, ∃ n, 1 ≤ n ∧ n < 1 + k ∧ c.DrawnIn full tail n key := by
  induction keys with
  | nil => exact ⟨0, fun _ => by omega, fun key hkey => by cases hkey⟩
  | cons key keys ih =>
    rw [List.forall_mem_cons] at h
    obtain ⟨⟨n, hn, hlt, hdrawn⟩, hrest⟩ := h
    obtain ⟨k, hk, hall⟩ := ih hrest
    refine ⟨max n k, fun hchecks => ?_, List.forall_mem_cons.mpr ⟨⟨n, hn, by omega, hdrawn⟩, ?_⟩⟩
    · have := hlt hchecks
      have := hk hchecks
      omega
    · intro x hx
      obtain ⟨m, h₁, h₂, hx⟩ := hall x hx
      exact ⟨m, h₁, by omega, hx⟩

/-- The search for the signers of a full block comes to an end. -/
def SearchEnds (P : Platform) (c : Chain) (full : Block) : Prop :=
  ∃ fuel tail, full.signature.getTailU64 P.checks = .ok tail ∧
    (c.searchSigners P full (if full.index < 855 then 1 else (asI64 full.index).tdiv 100)
      (full.index - 1) fuel (UInt64.ofNat tail) 1 false []).Returns

/-- When it ends, seven keys have been drawn. -/
theorem SearchEnds.enoughDrawn (h : SearchEnds P c full) :
    ∃ tail, full.signature.getTailU64 P.checks = .ok tail ∧
      c.EnoughDrawn full P.checks (UInt64.ofNat tail) := by
  obtain ⟨fuel, tail, htail, signers, hsigners⟩ := h
  obtain ⟨m, hm, hbound, hcollected, hlength⟩ := collected_of_searchFrom le_rfl
    (fun _ => by norm_num) collected_one hsigners
  refine ⟨tail, htail, signers, hcollected.nodup, hcollected.length_le.antisymm hlength,
    fun key hkey => ?_⟩
  obtain ⟨n, h₁, h₂, hdrawn⟩ := (hcollected.mem_iff key).mp hkey
  exact ⟨n, h₁, fun hchecks => by have := hbound hchecks; omega, hdrawn⟩

/-- When seven keys are drawn in the long run, it ends. -/
theorem searchEnds_of_enoughDrawn {tail : ℕ} (htail : full.signature.getTailU64 P.checks = .ok tail)
    (h : c.EnoughDrawn full P.checks (UInt64.ofNat tail)) : SearchEnds P c full := by
  obtain ⟨keys, hnodup, hlength, hkeys⟩ := h
  obtain ⟨k, hk, hall⟩ := exists_rounds hkeys
  refine ⟨k, tail, htail, returns_searchFrom le_rfl hk collected_one fun result' hcollected => ?_⟩
  rw [← hlength]
  refine (List.subperm_of_subset hnodup fun key hkey => ?_).length_le
  exact (hcollected.mem_iff key).mpr (hall key hkey)

/-- **The search for the signers of a full block ends** exactly when its signature has a tail with
which seven different eligible keys are drawn. -/
theorem searchEnds_iff (P : Platform) (c : Chain) (full : Block) :
    SearchEnds P c full ↔ ∃ tail, full.signature.getTailU64 P.checks = .ok tail ∧
      c.EnoughDrawn full P.checks (UInt64.ofNat tail) :=
  ⟨SearchEnds.enoughDrawn, fun ⟨_, htail, henough⟩ => searchEnds_of_enoughDrawn htail henough⟩

/-- With the tail 0, only the first block is drawn. -/
theorem drawnBlock_zero (count : UInt64) : c.drawnBlock full 0 count = c.getBlock 1 := by
  unfold drawnBlock
  rw [zero_mul, UInt64.zero_mod, zero_add]

/-- **With the tail 0 the search never ends**, whatever the chain holds. -/
theorem not_enoughDrawn_zero {checks : Bool} : ¬ c.EnoughDrawn full checks 0 := by
  rintro ⟨keys, hnodup, hlength, hkeys⟩
  have htail : ∀ n, c.tailIn full 0 n = 0 := by
    intro n
    unfold tailIn
    split_ifs
    · rfl
    · rfl
  have hsame : ∀ key ∈ keys, ∀ key' ∈ keys, key = key' := by
    intro key hkey key' hkey'
    obtain ⟨n, -, -, b, hb, -, rfl, -⟩ := hkeys key hkey
    obtain ⟨n', -, -, b', hb', -, rfl, -⟩ := hkeys key' hkey'
    rw [htail, drawnBlock_zero] at hb hb'
    rw [hb, Option.some.injEq] at hb'
    rw [hb']
  match keys, hlength, hnodup with
  | x :: y :: _, _, hnodup =>
    obtain ⟨hx, -⟩ := List.nodup_cons.mp hnodup
    have hxy := hsame x List.mem_cons_self y (List.mem_cons_of_mem _ List.mem_cons_self)
    exact hx (hxy ▸ List.mem_cons_self)

end Chain

namespace Sample

/-- A full block whose signature ends in eight zero bytes. -/
def zeroTail35 : Block := { full35 with signature := ⟨List.replicate 64 0⟩ }

/-- Seven authors of early blocks. -/
def authors : List Bytes := (List.range 7).map fun k => key (UInt8.ofNat (k + 10))

end Sample

namespace Chain

/-- The search for the signers of a stored full block does not end, although seven other authors
have blocks enough below it. -/
theorem not_searchEnds_zeroTail35 : ∃ n : Node, n.Reachable (Sample.platform true) ∧
    n.chain.getBlock 35 = some Sample.zeroTail35 ∧ Sample.zeroTail35.transaction.isSome ∧
    blockSignersStart ≤ Sample.zeroTail35.index ∧
    (Sample.authors.Nodup ∧ Sample.authors.length = blockSignersAll ∧
      ∀ key ∈ Sample.authors, key ≠ Sample.zeroTail35.pubKey ∧
        minimumBlockCount Sample.zeroTail35 ≤ n.chain.db.userBlockCount key 35) ∧
    ¬ SearchEnds (Sample.platform true) n.chain Sample.zeroTail35 := by
  have hrun : ∃ n, Node.receive (Sample.platform true) Sample.now (Sample.early ++ [Sample.zeroTail35])
        (Node.fresh Sample.genesis.hash) = .ok n
      ∧ n.chain.getBlock 35 = some Sample.zeroTail35
      ∧ Sample.authors.Nodup
      ∧ ∀ key ∈ Sample.authors, key ≠ Sample.zeroTail35.pubKey ∧
        minimumBlockCount Sample.zeroTail35 ≤ n.chain.db.userBlockCount key 35 := by
    decide +kernel
  obtain ⟨n, hn, hget, hnodup, hauthors⟩ := hrun
  refine ⟨n, ⟨Sample.genesis.hash, Node.receive_run (fun _ _ _ => trivial) hn⟩, hget, rfl, by decide,
    ⟨hnodup, rfl, hauthors⟩, fun hends => ?_⟩
  obtain ⟨tail, htail, henough⟩ := hends.enoughDrawn
  have hzero : Sample.zeroTail35.signature.getTailU64 (Sample.platform true).checks = .ok 0 := by
    decide +kernel
  rw [hzero, Except.ok.injEq] at htail
  subst htail
  exact not_enoughDrawn_zero henough

end Chain
