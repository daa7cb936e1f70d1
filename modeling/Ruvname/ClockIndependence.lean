/-
# One block, two clocks

Two nodes with the same chain may judge a block at different times.  As long as neither
takes the block for one from the future, a single check depends on the reading of the
clock: `is_id_available` is asked with the time of the node, where its siblings, the
difficulty and the cooldown, are asked with the timestamp of the block.  The two nodes
disagree exactly when a registration by another key runs out between their readings and
nothing else speaks against the block.
-/
import Ruvname.Vetted

open Exec

namespace Chain

variable {P : Platform} {t₁ t₂ now : UtcTime} {c : Chain} {b : Block}

/-- The two readings of the clock lead to the same verdict. -/
def SameVerdict (P : Platform) (c : Chain) (b : Block) (t₁ t₂ : UtcTime) : Prop :=
  (c.checkNewBlock P t₁ b).map Prod.fst = (c.checkNewBlock P t₂ b).map Prod.fst

/-- The checks before the transaction that do not read the clock. -/
def timelessChecks (P : Platform) (c : Chain) (b : Block) : List (Exec (Option BlockQuality)) :=
  [checkVersion b, checkWrongHash b, checkAhead P b c.lastBlock, c.checkDeclaredDifficulty P b,
    checkHashDifficulty b, checkHash P b, checkSignature P b, c.checkParent P b]

/-- The place of a full block relative to the tip speaks against it. -/
def PositionRefused (c : Chain) (b : Block) : Prop :=
  match c.lastBlock with
  | none => b.isGenesis ∧ ¬ c.origin.isZero ∧ b.hash ≠ c.origin
  | some last => last.index < b.index ∧ (b.timestamp < last.timestamp ∨ b.prevBlockHash ≠ last.hash)

/-- The identity of the transaction is registered by another key, and one of the readings is
past the time to renew it while the other is not. -/
def RunsOut (P : Platform) (c : Chain) (b : Block) (t : Transaction) (t₁ t₂ : UtcTime) : Prop :=
  ∃ height i row aliveUntil, subU64 P.checks b.index 1 = .ok height
    ∧ c.db.domainById t.identity height = some (i, row)
    ∧ row.signing ≠ b.pubKey
    ∧ addI64 P.checks row.timestamp domainLifetime = .ok aliveUntil
    ∧ ¬ (aliveUntil.toInt + domainRenewTime.toInt < t₁.secs.toInt
      ↔ aliveUntil.toInt + domainRenewTime.toInt < t₂.secs.toInt)

/-- **A disputed block.**  The registration of its identity runs out between the readings, and
nothing else is wrong with it: it passes all other checks before that of the identity, and
neither the cooldown nor the records nor its place refuse it. -/
structure Disputed (P : Platform) (c : Chain) (b : Block) (t₁ t₂ : UtcTime) (t : Transaction) :
    Prop where
  transaction : b.transaction = some t
  timeless : firstVerdict (c.timelessChecks P b) = .ok none
  strength : checkKeyStrength P b = .ok none
  identity : c.RunsOut P b t t₁ t₂
  later : firstVerdict [c.checkCooldown P b t, c.checkRecords P t] ≠ .ok (some .bad)
  position : firstVerdict [c.checkCooldown P b t, c.checkRecords P t] = .ok none →
    ¬ c.PositionRefused b

/-! ## The identity check -/

/-- **`is_id_available` at a reading of the clock.**  The end of the time to renew is only
computed for a registration that is not alive, and does not overflow then. -/
theorem isIdAvailable_eq {height : UInt64} {identity key : Bytes} :
    c.isIdAvailable P height now.secs identity key =
      match c.db.domainById identity height with
      | none => .ok true
      | some (_, row) => addI64 P.checks row.timestamp domainLifetime >>= fun aliveUntil =>
        .ok (decide (row.signing = key
          ∨ aliveUntil.toInt + domainRenewTime.toInt < now.secs.toInt)) := by
  have hrenew : domainRenewTime.toInt = 2592000 := by decide
  unfold isIdAvailable getIdentityTransactionAndState
  cases c.db.domainById identity height with
  | none => rfl
  | some r =>
    obtain ⟨i, row⟩ := r
    simp only
    cases halive : addI64 P.checks row.timestamp domainLifetime with
    | error e => rfl
    | ok aliveUntil =>
      simp only [ok_bind]
      have hlow := aliveUntil.le_toInt
      have hupper := now.upper
      by_cases hge : aliveUntil ≥ now.secs
      · rw [if_pos hge, ok_bind]
        rw [ge_iff_le, Int64.le_iff_toInt_le] at hge
        have hnot : ¬ aliveUntil.toInt + domainRenewTime.toInt < now.secs.toInt := by omega
        by_cases hkey : row.signing = key <;> simp [hkey, hnot]
      · rw [if_neg hge]
        rw [ge_iff_le, Int64.le_iff_toInt_le] at hge
        have hsum : (aliveUntil + domainRenewTime).toInt = aliveUntil.toInt + domainRenewTime.toInt :=
          toInt_add_of_range (by omega) (by omega)
        rw [addI64_of_range (by omega) (by omega), ok_bind]
        by_cases howned : aliveUntil + domainRenewTime ≥ now.secs
        · rw [if_pos howned, ok_bind]
          rw [ge_iff_le, Int64.le_iff_toInt_le, hsum] at howned
          by_cases hkey : row.signing = key <;> simp [hkey, not_lt.mpr howned]
        · rw [if_neg howned, ok_bind]
          rw [ge_iff_le, Int64.le_iff_toInt_le, hsum, not_le] at howned
          by_cases hkey : row.signing = key <;> simp [hkey, howned]

/-- The identity check where there is a registration. -/
theorem checkIdentity_of_row {t : Transaction} {height : UInt64} {i : ℤ} {row : DomainRow}
    {aliveUntil : Int64} (hheight : subU64 P.checks b.index 1 = .ok height)
    (hrow : c.db.domainById t.identity height = some (i, row))
    (halive : addI64 P.checks row.timestamp domainLifetime = .ok aliveUntil) :
    c.checkIdentity P now b t = .ok (verdictIf (¬ (row.signing = b.pubKey
      ∨ aliveUntil.toInt + domainRenewTime.toInt < now.secs.toInt)) .bad) := by
  unfold checkIdentity
  rw [hheight, ok_bind, isIdAvailable_eq, hrow]
  dsimp only
  rw [halive, ok_bind, ok_bind]
  simp only [decide_eq_true_eq]

/-- Without such a registration the identity check does not depend on the clock. -/
theorem checkIdentity_eq_of_not_runsOut {t : Transaction} (h : ¬ c.RunsOut P b t t₁ t₂) :
    c.checkIdentity P t₁ b t = c.checkIdentity P t₂ b t := by
  cases hheight : subU64 P.checks b.index 1 with
  | error e =>
    unfold checkIdentity
    rw [hheight, error_bind, error_bind]
  | ok height =>
    rcases hrow : c.db.domainById t.identity height with _ | ⟨i, row⟩
    · unfold checkIdentity
      rw [hheight, ok_bind, ok_bind, isIdAvailable_eq, isIdAvailable_eq, hrow]
    · cases halive : addI64 P.checks row.timestamp domainLifetime with
      | error e =>
        unfold checkIdentity
        rw [hheight, ok_bind, ok_bind, isIdAvailable_eq, isIdAvailable_eq, hrow]
        dsimp only
        simp only [halive, error_bind]
      | ok aliveUntil =>
        rw [checkIdentity_of_row hheight hrow halive, checkIdentity_of_row hheight hrow halive]
        by_cases hkey : row.signing = b.pubKey
        · simp only [hkey, true_or]
        · -- another key: both readings are on the same side of the end
          have hiff := not_not.mp fun hne => h ⟨height, i, row, aliveUntil, hheight, hrow, hkey, halive, hne⟩
          simp only [hkey, false_or, hiff]

/-- With one it passes at one reading and refuses at the other. -/
theorem checkIdentity_of_runsOut {t : Transaction} (h : c.RunsOut P b t t₁ t₂) :
    (c.checkIdentity P t₁ b t = .ok none ∧ c.checkIdentity P t₂ b t = .ok (some .bad))
      ∨ (c.checkIdentity P t₁ b t = .ok (some .bad) ∧ c.checkIdentity P t₂ b t = .ok none) := by
  obtain ⟨height, i, row, aliveUntil, hheight, hrow, hkey, halive, hne⟩ := h
  rw [checkIdentity_of_row hheight hrow halive, checkIdentity_of_row hheight hrow halive]
  simp only [hkey, false_or, Except.ok.injEq, verdictIf_eq_none, verdictIf_eq_some, and_true, not_not]
  by_cases hfirst : aliveUntil.toInt + domainRenewTime.toInt < t₁.secs.toInt
  · exact Or.inl ⟨hfirst, fun hsecond => hne ⟨fun _ => hsecond, fun _ => hfirst⟩⟩
  · exact Or.inr ⟨hfirst, by
      by_contra hsecond
      exact hne ⟨fun h => absurd h hfirst, fun h => absurd h hsecond⟩⟩

/-! ## The verdict in stages -/

/-- What follows once the decision list has been passed up to the transaction. -/
def fromTransaction (P : Platform) (now : UtcTime) (c : Chain) (b : Block) :
    Exec (BlockQuality × SignersCache) := do
  match ← c.checkTransaction P now b with
  | some quality => .ok (quality, c.signers)
  | none => c.checkPosition P b c.lastBlock c.lastFullBlock

/-- A reading that does not put the block into the future only matters for the transaction. -/
theorem checkNewBlock_eq (h : b.timestamp.toInt ≤ now.secs.toInt + 60) :
    c.checkNewBlock P now b = firstVerdict (c.timelessChecks P b) >>= fun verdict =>
      match verdict with
      | some quality => .ok (quality, c.signers)
      | none => c.fromTransaction P now b := by
  have hclock : checkClock P now b = .ok none := by
    rw [checkClock_eq, Except.ok.injEq, verdictIf_eq_none]
    omega
  -- the clock sits between the wrong hashes and the height
  have hsplit : c.checks P now b c.lastBlock = [checkVersion b, checkWrongHash b] ++
      .ok none :: ([checkAhead P b c.lastBlock, c.checkDeclaredDifficulty P b, checkHashDifficulty b,
        checkHash P b, checkSignature P b, c.checkParent P b] ++ [c.checkTransaction P now b]) := by
    rw [← hclock]
    rfl
  have htimeless : c.timelessChecks P b = [checkVersion b, checkWrongHash b] ++
      [checkAhead P b c.lastBlock, c.checkDeclaredDifficulty P b, checkHashDifficulty b,
        checkHash P b, checkSignature P b, c.checkParent P b] := rfl
  have hlist : firstVerdict (c.checks P now b c.lastBlock)
      = firstVerdict (c.timelessChecks P b ++ [c.checkTransaction P now b]) := by
    rw [hsplit, htimeless, List.append_assoc, firstVerdict_append,
      firstVerdict_append [checkVersion b, checkWrongHash b], firstVerdict_cons_none]
  unfold checkNewBlock checkBlock fromTransaction
  rw [hlist, firstVerdict_append]
  cases firstVerdict (c.timelessChecks P b) with
  | error e => rfl
  | ok verdict =>
    cases verdict with
    | some quality => rfl
    | none =>
      rw [ok_bind, ok_bind]
      cases c.checkTransaction P now b with
      | error e => rfl
      | ok r =>
        cases r with
        | none => rfl
        | some quality => rfl

/-- What follows for a full block whose identity is available. -/
def fromCooldown (P : Platform) (c : Chain) (b : Block) (t : Transaction) :
    Exec (BlockQuality × SignersCache) := do
  match ← firstVerdict [c.checkCooldown P b t, c.checkRecords P t] with
  | some quality => .ok (quality, c.signers)
  | none => c.checkPosition P b c.lastBlock c.lastFullBlock

theorem fromTransaction_of_available {t : Transaction} (ht : b.transaction = some t)
    (hkey : checkKeyStrength P b = .ok none) (hid : c.checkIdentity P now b t = .ok none) :
    c.fromTransaction P now b = c.fromCooldown P b t := by
  unfold fromTransaction checkTransaction fromCooldown
  simp only [ht, hkey, hid, firstVerdict_cons_none]

theorem fromTransaction_of_refused {t : Transaction} (ht : b.transaction = some t)
    (hkey : checkKeyStrength P b = .ok none) (hid : c.checkIdentity P now b t = .ok (some .bad)) :
    c.fromTransaction P now b = .ok (.bad, c.signers) := by
  unfold fromTransaction checkTransaction
  simp only [ht, hkey, hid, firstVerdict_cons_none]
  rfl

/-! ## The place of a full block -/

/-- A full block that is not ahead of the tip is refused by its place exactly when it
collides with the tip or is not linked to it, or is a foreign origin block. -/
theorem checkPosition_eq_bad (hfull : b.transaction.isSome)
    (hahead : checkAhead P b c.lastBlock = .ok none) :
    (c.checkPosition P b c.lastBlock c.lastFullBlock).map Prod.fst = .ok .bad ↔ c.PositionRefused b := by
  unfold PositionRefused
  cases hl : c.lastBlock with
  | none =>
    simp only [checkPosition]
    by_cases hgen : b.isGenesis
    · rw [if_neg (not_not_intro hgen)]
      by_cases horigin : ¬ c.origin.isZero ∧ b.hash ≠ c.origin
      · rw [if_pos horigin]
        exact ⟨fun _ => ⟨hgen, horigin⟩, fun _ => rfl⟩
      · rw [if_neg horigin]
        exact ⟨fun h => (by cases h), fun h => absurd h.2 horigin⟩
    · rw [if_pos hgen]
      exact ⟨fun h => (by cases h), fun h => absurd h.1 hgen⟩
  | some l =>
    rw [hl] at hahead
    obtain ⟨next, hnext, hle⟩ := bind_verdictIf_eq_none.mp hahead
    have hsign : c.signStage P b c.lastFullBlock = .ok (true, c.signers) := by
      unfold signStage isGoodSignBlock
      rw [if_pos hfull, ite_self]
    simp only [checkPosition]
    by_cases hcollision : b.timestamp < l.timestamp ∧ b.index > l.index
    · rw [if_pos hcollision]
      exact ⟨fun _ => ⟨hcollision.2, Or.inl hcollision.1⟩, fun _ => rfl⟩
    · rw [if_neg hcollision, hnext, ok_bind, if_neg hle, hsign, ok_bind]
      simp only [if_true]
      by_cases hbelow : b.index ≤ l.index
      · -- at or below the tip the block is known, a fork, or fills a gap
        have hnot : ¬ l.index < b.index := UInt64.not_lt.mpr hbelow
        have hne : c.compareWithTip b l ≠ .bad := by
          unfold compareWithTip
          rw [if_pos hbelow]
          split
          · simp
          · split
            · split <;> simp
            · simp
        refine ⟨fun h => ?_, fun h => absurd h.1 hnot⟩
        simp only [Except.map, Except.ok.injEq] at h
        exact absurd h hne
      · have habove : l.index < b.index := UInt64.not_le.mp hbelow
        have hcmp : c.compareWithTip b l = if b.prevBlockHash ≠ l.hash then .bad else .good := by
          rw [compareWithTip, if_neg hbelow]
        have htime : ¬ b.timestamp < l.timestamp := fun h => hcollision ⟨h, habove⟩
        rw [hcmp]
        by_cases hprev : b.prevBlockHash ≠ l.hash
        · rw [if_pos hprev]
          exact ⟨fun _ => ⟨habove, Or.inr hprev⟩, fun _ => rfl⟩
        · rw [if_neg hprev]
          exact ⟨fun h => (by cases h), fun h => absurd h.2 (by simp [htime, hprev])⟩

/-- What the rest of the check refuses. -/
theorem fromCooldown_eq_bad {t : Transaction} (ht : b.transaction = some t)
    (hahead : checkAhead P b c.lastBlock = .ok none) :
    (c.fromCooldown P b t).map Prod.fst = .ok .bad ↔
      firstVerdict [c.checkCooldown P b t, c.checkRecords P t] = .ok (some .bad)
        ∨ (firstVerdict [c.checkCooldown P b t, c.checkRecords P t] = .ok none
          ∧ c.PositionRefused b) := by
  have hfull : b.transaction.isSome := by rw [ht]; rfl
  rw [← checkPosition_eq_bad hfull hahead, fromCooldown]
  cases firstVerdict [c.checkCooldown P b t, c.checkRecords P t] with
  | error e => simp [Except.map]
  | ok verdict =>
    cases verdict with
    | none => simp
    | some quality => simp [Except.map]

/-! ## Agreement -/

/-- At most the transaction of the block can be disputed. -/
theorem undisputed_iff {t : Transaction} (ht : b.transaction = some t) :
    (∀ t', ¬ c.Disputed P b t₁ t₂ t') ↔ ¬ c.Disputed P b t₁ t₂ t := by
  refine ⟨fun h => h t, fun h t' hd => ?_⟩
  have := hd.transaction
  rw [ht, Option.some.injEq] at this
  exact h (this ▸ hd)

/-- A registration that runs out between the readings is undisputed if and only if the checks that
follow refuse the block in any case. -/
theorem not_disputed_iff {t : Transaction} (ht : b.transaction = some t)
    (htimeless : firstVerdict (c.timelessChecks P b) = .ok none)
    (hkey : checkKeyStrength P b = .ok none) (hid : c.RunsOut P b t t₁ t₂) :
    ¬ c.Disputed P b t₁ t₂ t ↔ (c.fromCooldown P b t).map Prod.fst = .ok .bad := by
  have hahead : checkAhead P b c.lastBlock = .ok none :=
    firstVerdict_eq_none.mp htimeless _ (by simp [timelessChecks])
  rw [fromCooldown_eq_bad ht hahead]
  constructor
  · intro hnot
    by_contra hfine
    rw [not_or, not_and] at hfine
    exact hnot ⟨ht, htimeless, hkey, hid, hfine.1, hfine.2⟩
  · rintro (hlater | ⟨hpass, hposition⟩) hd
    · exact hd.later hlater
    · exact hd.position hpass hposition

/-- A key that does not pass decides before the clock is read. -/
theorem fromTransaction_of_strength {t : Transaction} (ht : b.transaction = some t)
    (hkey : checkKeyStrength P b ≠ .ok none) :
    c.fromTransaction P t₁ b = c.fromTransaction P t₂ b := by
  unfold fromTransaction checkTransaction
  simp only [ht]
  cases hstrength : checkKeyStrength P b with
  | error e => simp only [firstVerdict_cons_error, error_bind]
  | ok verdict =>
    cases verdict with
    | none => exact absurd hstrength hkey
    | some quality => simp only [firstVerdict_cons_some]

/-- **Clock independence, exactly.**  Two readings of the clock that do not put a block into
the future lead to the same verdict if and only if the block is not disputed between them. -/
theorem sameVerdict_iff (h₁ : b.timestamp.toInt ≤ t₁.secs.toInt + 60)
    (h₂ : b.timestamp.toInt ≤ t₂.secs.toInt + 60) :
    c.SameVerdict P b t₁ t₂ ↔ ∀ t, ¬ c.Disputed P b t₁ t₂ t := by
  unfold SameVerdict
  rw [checkNewBlock_eq h₁, checkNewBlock_eq h₂]
  by_cases htimeless : firstVerdict (c.timelessChecks P b) = .ok none
  swap
  · -- an earlier check decides, without the clock
    refine ⟨fun _ t hd => htimeless hd.timeless, fun _ => ?_⟩
    cases hfirst : firstVerdict (c.timelessChecks P b) with
    | error e => rw [error_bind, error_bind]
    | ok verdict =>
      cases verdict with
      | none => exact absurd hfirst htimeless
      | some quality => simp only [ok_bind]
  simp only [htimeless, ok_bind]
  cases ht : b.transaction with
  | none =>
    refine ⟨fun _ t hd => ?_, fun _ => ?_⟩
    · have := hd.transaction
      rw [ht] at this
      cases this
    · unfold fromTransaction checkTransaction
      simp only [ht]
  | some t =>
    rw [undisputed_iff ht]
    by_cases hkey : checkKeyStrength P b = .ok none
    swap
    · refine ⟨fun _ hd => hkey hd.strength, fun _ => ?_⟩
      rw [fromTransaction_of_strength ht hkey]
    by_cases hid : c.RunsOut P b t t₁ t₂
    swap
    · refine ⟨fun _ hd => hid hd.identity, fun _ => ?_⟩
      unfold fromTransaction checkTransaction
      simp only [ht, checkIdentity_eq_of_not_runsOut hid]
    · -- one reading refuses the block: the other has to refuse it for another reason
      rw [not_disputed_iff ht htimeless hkey hid]
      rcases checkIdentity_of_runsOut hid with ⟨hyes, hno⟩ | ⟨hno, hyes⟩
      · rw [fromTransaction_of_available ht hkey hyes, fromTransaction_of_refused ht hkey hno]
        rfl
      · rw [fromTransaction_of_available ht hkey hyes, fromTransaction_of_refused ht hkey hno]
        exact eq_comm

end Chain

namespace Sample

/-- Readings of the clock within the first year, and long after. -/
def soon : UtcTime := ⟨1000, by decide, by decide⟩

/-- A domain of the second key, two signing blocks, and a domain of the same identity by the
third key. -/
def oldDomain : List Block :=
  [genesis, block 2 10 3 genesis.hash (key 2) (some (domain ⟨[7]⟩)),
    block 3 20 4 (hash [3]) (key 2) none]
def successor : Block := block 4 30 5 (hash [4]) (key 3) (some (domain ⟨[7]⟩))

end Sample

namespace Chain

/-- The block in which a key renews its own registration is judged the same in the first year and long
after. -/
theorem sameVerdict_renewal : ∃ n,
    Node.receive (Sample.platform true) Sample.now Sample.oldDomain
        (Node.fresh Sample.genesis.hash) = .ok n
      ∧ n.chain.SameVerdict (Sample.platform true)
        (Sample.block 4 30 5 (Sample.hash [4]) (Sample.key 2) (some (Sample.domain ⟨[7]⟩)))
        Sample.soon Sample.now := by
  have hrun : ∃ n, Node.receive (Sample.platform true) Sample.now Sample.oldDomain
        (Node.fresh Sample.genesis.hash) = .ok n
      ∧ (n.chain.db.domainById ⟨[7]⟩ 3).map (fun r => r.2.signing) = some (Sample.key 2) := by
    decide +kernel
  obtain ⟨n, hn, hsigning⟩ := hrun
  refine ⟨n, hn, (sameVerdict_iff (by decide) (by decide)).mpr fun t hd => ?_⟩
  obtain ⟨height, i, row, -, hheight, hrow, hkey, -⟩ := hd.identity
  obtain rfl : (3 : UInt64) = height := Except.ok.inj hheight
  obtain rfl : Sample.domain ⟨[7]⟩ = t := Option.some.inj hd.transaction
  rw [show (Sample.domain ⟨[7]⟩).identity = ⟨[7]⟩ from rfl] at hrow
  rw [hrow] at hsigning
  exact hkey (Option.some.inj hsigning)

/-- A domain block that takes over a registration from another key: bad in the first year,
good long after. -/
theorem not_sameVerdict_successor : ∃ n,
    Node.receive (Sample.platform true) Sample.now Sample.oldDomain
        (Node.fresh Sample.genesis.hash) = .ok n
      ∧ (∃ r, n.chain.checkNewBlock (Sample.platform true) Sample.soon Sample.successor = .ok r
        ∧ r.1 = .bad)
      ∧ (∃ r, n.chain.checkNewBlock (Sample.platform true) Sample.now Sample.successor = .ok r
        ∧ r.1 = .good)
      ∧ ¬ n.chain.SameVerdict (Sample.platform true) Sample.successor Sample.soon Sample.now := by
  have hrun : ∃ n, Node.receive (Sample.platform true) Sample.now Sample.oldDomain
        (Node.fresh Sample.genesis.hash) = .ok n
      ∧ (∃ r, n.chain.checkNewBlock (Sample.platform true) Sample.soon Sample.successor = .ok r
        ∧ r.1 = .bad)
      ∧ (∃ r, n.chain.checkNewBlock (Sample.platform true) Sample.now Sample.successor = .ok r
        ∧ r.1 = .good) := by
    decide +kernel
  obtain ⟨n, hn, ⟨r₁, hr₁, hbad⟩, ⟨r₂, hr₂, hgood⟩⟩ := hrun
  refine ⟨n, hn, ⟨r₁, hr₁, hbad⟩, ⟨r₂, hr₂, hgood⟩, fun hsame => ?_⟩
  unfold SameVerdict at hsame
  rw [hr₁, hr₂] at hsame
  simp only [Except.map, Except.ok.injEq, hbad, hgood] at hsame
  cases hsame

end Chain
