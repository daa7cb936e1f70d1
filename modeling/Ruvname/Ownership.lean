/-
# Who may take over an identity

A domain transaction for a registered identity needs the key of its owner, or a
registration that has run out.  `check_block` asks `is_id_available` for the height of the
predecessor, and the statement behind it looks strictly below that height: the row of the
directly preceding block is never seen.  In every chain grown by good blocks the rule holds
for all other rows.
-/
import Ruvname.Vetted

open Exec

/-! ## The registration found -/

/-- The registration has run out: its lifetime and the time to renew it are over. -/
def DomainRow.FreeAt (row : DomainRow) (now : UtcTime) : Prop :=
  row.timestamp.toInt + domainLifetime.toInt + domainRenewTime.toInt < now.secs.toInt

/-- The transaction that is read back from a row. -/
def DomainRow.toTransaction (row : DomainRow) : Transaction where
  class' := classDomain
  identity := row.identity
  confirmation := row.confirmation
  signing := row.signing
  encryption := row.encryption
  data := row.data

namespace Chain

variable {P : Platform} {now : UtcTime} {c c' : Chain} {b : Block} {f : Ledger} {s : SignersCache}

/-- A vetted timestamp leaves room for a year and a month. -/
theorem expiry_range {ts : Int64} (h : ts.toInt ≤ 2 ^ 43 + 60) :
    addI64 P.checks ts domainLifetime = .ok (ts + domainLifetime)
      ∧ (ts + domainLifetime).toInt = ts.toInt + domainLifetime.toInt
      ∧ addI64 P.checks (ts + domainLifetime) domainRenewTime = .ok (ts + domainLifetime + domainRenewTime)
      ∧ (ts + domainLifetime + domainRenewTime).toInt
        = ts.toInt + domainLifetime.toInt + domainRenewTime.toInt := by
  have hlow := ts.le_toInt
  have hlife : domainLifetime.toInt = 31536000 := by decide
  have hrenew : domainRenewTime.toInt = 2592000 := by decide
  have hfirst : (ts + domainLifetime).toInt = ts.toInt + domainLifetime.toInt :=
    toInt_add_of_range (by omega) (by omega)
  refine ⟨addI64_of_range (by omega) (by omega), hfirst,
    addI64_of_range (by omega) (by omega), ?_⟩
  rw [toInt_add_of_range (by omega) (by omega), hfirst]

/-- `get_identity_transaction_and_state` on a registered identity: its row as a transaction, and
the state of the registration. -/
theorem getIdentityTransactionAndState_row {identity : Bytes} {height : UInt64} {i : ℤ}
    {row : DomainRow} {aliveUntil ownedUntil : Int64} (time : Int64)
    (hrow : c.db.domainById identity height = some (i, row))
    (halive : addI64 P.checks row.timestamp domainLifetime = .ok aliveUntil)
    (howned : addI64 P.checks aliveUntil domainRenewTime = .ok ownedUntil) :
    c.getIdentityTransactionAndState P identity height time
      = .ok (some row.toTransaction, if aliveUntil ≥ time then .alive row.timestamp aliveUntil
        else if ownedUntil ≥ time then .expired row.timestamp ownedUntil
        else .free row.timestamp) := by
  unfold getIdentityTransactionAndState
  simp only [hrow, halive, howned, ok_bind]
  split
  · rfl
  · split
    · rfl
    · rfl

/-- **`is_id_available` on a registered identity**: the key is the owner's, or the time to
renew is over. -/
theorem eq_or_lt_of_isIdAvailable {identity key : Bytes} {height : UInt64} {i : ℤ} {row : DomainRow}
    {time aliveUntil ownedUntil : Int64}
    (hrow : c.db.domainById identity height = some (i, row))
    (halive : addI64 P.checks row.timestamp domainLifetime = .ok aliveUntil)
    (howned : addI64 P.checks aliveUntil domainRenewTime = .ok ownedUntil)
    (h : c.isIdAvailable P height time identity key = .ok true) :
    key = row.signing ∨ ¬ ownedUntil ≥ time := by
  rw [isIdAvailable, getIdentityTransactionAndState_row time hrow halive howned, ok_bind] at h
  dsimp only at h
  by_cases hkey : row.toTransaction.signing = key
  · exact Or.inl hkey.symm
  · right
    intro hge
    rw [if_neg hkey, if_pos hge] at h
    split at h
    · rename_i hnotFound
      split at hnotFound <;> cases hnotFound
    · cases h
    · cases h
    · rename_i hfree
      split at hfree <;> cases hfree

theorem owner_or_free {identity key : Bytes} {height : UInt64} {i : ℤ} {row : DomainRow}
    (hrow : c.db.domainById identity height = some (i, row)) (hts : row.timestamp.toInt ≤ 2 ^ 43 + 60)
    (h : c.isIdAvailable P height now.secs identity key = .ok true) :
    key = row.signing ∨ row.FreeAt now := by
  obtain ⟨halive, -, howned, htoInt⟩ := expiry_range (P := P) hts
  rcases eq_or_lt_of_isIdAvailable hrow halive howned h with hkey | hlt
  · exact Or.inl hkey
  · right
    rw [ge_iff_le, Int64.le_iff_toInt_le, htoInt] at hlt
    exact not_le.mp hlt

/-- The timestamps of domain rows are vetted. -/
theorem Clean.domainById_timestamp (hc : c.Clean f) {identity : Bytes} {height : UInt64} {i : ℤ}
    {row : DomainRow} (h : c.db.domainById identity height = some (i, row)) :
    row.timestamp.toInt ≤ 2 ^ 43 + 60 := by
  have hfind := (Table.lastWhere?_eq_some.mp h).1
  obtain ⟨m, x, -, hx, hrow⟩ := hc.db.exists_of_find?_domains hfind
  obtain ⟨t, -, ht⟩ := Option.bind_eq_some_iff.mp hrow
  split at ht
  · cases ht
    exact (hc.vetted m x hx).timestamp
  · cases ht

/-! ## One good block -/

/-- The latest registration of its identity below a block is by the same key or had run
out at the time. -/
def OwnerOrFree (c : Chain) (now : UtcTime) (b : Block) : Prop :=
  ∀ t i row, b.transaction = some t → t.class' = classDomain →
    c.db.domainById t.identity b.index = some (i, row) → b.pubKey = row.signing ∨ row.FreeAt now

/-- The block does not take over the identity of its direct predecessor from another key
before that registration has run out. -/
def NoTakeover (c : Chain) (now : UtcTime) (b : Block) : Prop :=
  ∀ t row, b.transaction = some t → t.class' = classDomain →
    c.db.domains.find? ((b.index.toNat : ℤ) - 1) = some row → row.identity = t.identity →
    b.pubKey = row.signing ∨ row.FreeAt now

/-- A registration below a block that is not that of its predecessor is below the
predecessor. -/
theorem domainById_pred {identity : Bytes} {index : UInt64} {i : ℤ} {row : DomainRow}
    (hindex : index.toNat < 2 ^ 63) (hone : 1 ≤ index.toNat)
    (h : c.db.domainById identity index = some (i, row)) (hne : i ≠ (index.toNat : ℤ) - 1) :
    c.db.domainById identity (index - 1) = some (i, row) := by
  have hsub : (index - 1).toNat = index.toNat - 1 := toNat_sub_one hone
  have hpred : asI64 (index - 1) = (index.toNat : ℤ) - 1 := by
    rw [asI64_of_lt (by omega), hsub]
    omega
  rw [Db.domainById, Table.lastWhere?_eq_some] at h ⊢
  obtain ⟨hfind, hcond, hmax⟩ := h
  rw [decide_eq_true_eq, asI64_of_lt hindex] at hcond
  rw [decide_eq_true_eq, hpred]
  refine ⟨hfind, ⟨by omega, hcond.2⟩, fun j r hj hr => ?_⟩
  rw [decide_eq_true_eq] at hr
  refine hmax j r hj ?_
  rw [decide_eq_true_eq, asI64_of_lt hindex]
  exact ⟨by omega, hr.2⟩

/-- **The rule for one good block.** -/
theorem Clean.ownerOrFree (hc : c.Clean f) (hone : 1 ≤ b.index.toNat) (hindex : b.index.toNat < 2 ^ 63)
    (hcond : c.NoTakeover now b) (hgood : c.checkNewBlock P now b = .ok (.good, s)) :
    c.OwnerOrFree now b := by
  intro t i row ht hclass hrow
  by_cases hi : i = (b.index.toNat : ℤ) - 1
  · obtain ⟨hfind, hmatch, -⟩ := Table.lastWhere?_eq_some.mp hrow
    rw [decide_eq_true_eq] at hmatch
    rw [hi] at hfind
    exact hcond t row ht hclass hfind hmatch.2
  · have hpred := domainById_pred hindex hone hrow hi
    have hpassed := ((checkBlock_accepting accepting_good).mp hgood).1.transaction
    rw [checkTransaction, ht] at hpassed
    have hidentity : c.checkIdentity P now b t = .ok none := by
      rw [firstVerdict_eq_none] at hpassed
      exact hpassed _ (by simp)
    rw [checkIdentity, subU64_one hone, ok_bind,
      bind_verdictIf_eq_none] at hidentity
    obtain ⟨available, havailable, hnot⟩ := hidentity
    rw [not_not.mp hnot] at havailable
    exact owner_or_free hpred (hc.domainById_timestamp hrow) havailable

/-! ## Chains grown by good blocks -/

/-- A chain with the log of the blocks appended to it, each with the time of its
validation. -/
abbrev Grown := Chain × List (UtcTime × Block)

/-- A good block is appended and noted. -/
def Grow (P : Platform) (g : Grown) (a : UtcTime × Block) (g' : Grown) : Prop :=
  g.1.Step P (.append a.1 a.2) g'.1 ∧ g'.2 = a :: g.2

/-- The condition on each block: it is not of index 0, and does not take over the identity
of its direct predecessor. -/
def OwnershipCond (g : Grown) (a : UtcTime × Block) : Prop :=
  a.2.index ≠ 0 ∧ g.1.NoTakeover a.1 a.2

/-- What lies below a block is not changed by a block appended at or above it. -/
theorem OwnerOrFree.mono {x : Block} {time : UtcTime} (h : c.OwnerOrFree time x)
    (hbelow : c'.db.truncateFromBlock x.index = c.db.truncateFromBlock x.index) :
    c'.OwnerOrFree time x := by
  intro t i row ht hclass hrow
  rw [← Db.domainById_truncateFromBlock le_rfl, hbelow, Db.domainById_truncateFromBlock le_rfl] at hrow
  exact h t i row ht hclass hrow

/-- The log of a grown chain: its blocks are at most next to the tip, and each of them
respects the registrations below it. -/
def LogSafe (c : Chain) (log : List (UtcTime × Block)) : Prop :=
  ∀ e ∈ log, e.2.index.toNat ≤ c.getHeight.toNat + 1 ∧ c.OwnerOrFree e.1 e.2

/-- **The step lemma.** -/
theorem LogSafe.append {log : List (UtcTime × Block)} (hlog : LogSafe c log) (hc : c.Clean f)
    (hindex : b.index ≠ 0) (hcond : c.NoTakeover now b) (hstep : c.Step P (.append now b) c') :
    LogSafe c' ((now, b) :: log) := by
  obtain ⟨s, hgood, hadd⟩ := hstep
  have hsucc := hc.index_eq_succ hindex hgood
  have hbound : b.index.toNat < 2 ^ 63 := by
    have := hc.height_le
    have := maxRows_lt
    omega
  have hown := hc.ownerOrFree (by omega) hbound hcond hgood
  -- nothing below the new block changes
  have hframe : ∀ x : Block, x.index.toNat ≤ b.index.toNat →
      c'.db.truncateFromBlock x.index = c.db.truncateFromBlock x.index := by
    intro x hx
    exact addBlock_truncateFromBlock (c := { c with signers := s }) hadd (asI64_le_asI64 hbound hx)
  have hheight : b.index.toNat ≤ c'.getHeight.toNat + 1 := by
    rcases append_ledger hc.toGrounded hgood hadd with ⟨rfl, -⟩ | ⟨-, -, hadded⟩
    · exact hsucc.le
    · rw [getHeight_of_some hadded.lastBlock]
      omega
  intro e he
  rcases List.mem_cons.mp he with rfl | he
  · exact ⟨hheight, hown.mono (hframe b le_rfl)⟩
  · obtain ⟨hle, hold⟩ := hlog e he
    exact ⟨by omega, hold.mono (hframe e.2 (by omega))⟩

/-- **Ownership safety.**  In every chain grown from an empty database by good blocks that
meet the condition, each domain block has the key that the latest registration below it
records, or found that registration run out. -/
theorem run_ownerOrFree {origin : Bytes} {log : List (UtcTime × Block)}
    (run : Run (Grow P) OwnershipCond (Chain.new origin Db.empty, []) (c, log)) :
    ∀ e ∈ log, c.OwnerOrFree e.1 e.2 := by
  have hinv : (∃ f, c.Clean f) ∧ LogSafe c log := by
    refine run.invariant (I := fun g => (∃ f, g.1.Clean f) ∧ LogSafe g.1 g.2) ?_ ?_
    · have hstart : ∃ f, (Chain.new origin Db.empty).Clean f :=
        Clean.of_new Db.represents_empty (fun n x hx => by cases hx) origin
      exact ⟨hstart, fun e he => by cases he⟩
    · rintro ⟨c₁, log₁⟩ ⟨now, b⟩ ⟨c₂, log₂⟩ ⟨⟨f, hc⟩, hlog⟩ ⟨hindex, hcond⟩ ⟨hstep, rfl⟩
      exact ⟨hc.step hstep, hlog.append hc hindex hcond hstep⟩
  exact fun e he => (hinv.2 e he).2

/-- Growing a chain by a list of good blocks. -/
theorem appendAll_grow {blocks : List Block} {ok : Grown → UtcTime × Block → Prop}
    (log : List (UtcTime × Block)) (hok : ∀ g, ∀ b ∈ blocks, ok g (now, b))
    (h : c.appendAll P now blocks = .ok (some c')) :
    Run (Grow P) ok (c, log) (c', (blocks.map fun b => (now, b)).reverse ++ log) := by
  induction blocks generalizing c log with
  | nil =>
    cases h
    exact .refl _
  | cons b blocks ih =>
    obtain ⟨c₁, hstep, h⟩ := appendAll_cons h
    have hfirst : Run (Grow P) ok (c, log) (c₁, (now, b) :: log) :=
      Run.single (hok (c, log) b List.mem_cons_self) ⟨hstep, rfl⟩
    have hrest := ih ((now, b) :: log) (fun g x hx => hok g x (List.mem_cons_of_mem _ hx)) h
    rw [List.map_cons, List.reverse_cons, List.append_assoc]
    exact hfirst.trans hrest

/-- One more good block. -/
theorem grow_append {ok : Grown → UtcTime × Block → Prop} {g : Grown} {log : List (UtcTime × Block)}
    (run : Run (Grow P) ok g (c, log)) (cond : ok (c, log) (now, b))
    (h : c.appendAll P now [b] = .ok (some c')) : Run (Grow P) ok g (c', (now, b) :: log) :=
  run.tail cond ⟨appendAll_singleton h, rfl⟩

/-- A block without a domain transaction takes over nothing. -/
theorem ownershipCond_of_class {g : Grown} (hindex : b.index ≠ 0)
    (hclass : ∀ t, b.transaction = some t → t.class' ≠ classDomain) : OwnershipCond g (now, b) :=
  ⟨hindex, fun t _ ht hdomain => absurd hdomain (hclass t ht)⟩

/-- Neither does one whose predecessor has no domain. -/
theorem ownershipCond_of_find? {g : Grown} (hindex : b.index ≠ 0)
    (hfind : g.1.db.domains.find? ((b.index.toNat : ℤ) - 1) = none) : OwnershipCond g (now, b) := by
  refine ⟨hindex, fun t row _ _ hrow => ?_⟩
  rw [hfind] at hrow
  cases hrow

end Chain

namespace Sample

/-- A recent time. -/
def recent : Int64 := 1699999000

/-- The origin block and a domain of the second key. -/
def registered : List Block :=
  [genesis, block 2 recent 5 genesis.hash (key 2) (some (domain ⟨[7]⟩))]

def signing2 : Block := block 2 recent 3 genesis.hash (key 2) none
def registration : Block := block 3 recent 5 (hash [3]) (key 2) (some (domain ⟨[7]⟩))
def signing4 : Block := block 4 recent 6 (hash [5]) (key 2) none
def renewal : Block := block 5 recent 7 (hash [6]) (key 2) (some (domain ⟨[7]⟩))

/-- The third key takes the domain over in the next block. -/
def takeover : Block := block 3 recent 6 (hash [5]) (key 3) (some (domain ⟨[7]⟩))

end Sample

namespace Chain

/-- A domain is registered in block 3 and renewed by its owner in block 5, with signing
blocks in between. -/
theorem run_ownerOrFree_renewal : ∃ c log,
    Run (Grow (Sample.platform true)) OwnershipCond (Chain.new Sample.genesis.hash Db.empty, []) (c, log)
      ∧ (Sample.now, Sample.renewal) ∈ log
      ∧ (c.db.domainById ⟨[7]⟩ 5).isSome ∧ c.OwnerOrFree Sample.now Sample.renewal := by
  have hrun : ∃ c₁, (Chain.new Sample.genesis.hash Db.empty).appendAll (Sample.platform true) Sample.now
        [Sample.genesis, Sample.signing2] = .ok (some c₁)
      ∧ c₁.db.domains.find? 2 = none
      ∧ ∃ c₂, c₁.appendAll (Sample.platform true) Sample.now [Sample.registration] = .ok (some c₂)
      ∧ ∃ c₃, c₂.appendAll (Sample.platform true) Sample.now [Sample.signing4] = .ok (some c₃)
      ∧ c₃.db.domains.find? 4 = none
      ∧ ∃ c₄, c₃.appendAll (Sample.platform true) Sample.now [Sample.renewal] = .ok (some c₄)
        ∧ (c₄.db.domainById ⟨[7]⟩ 5).isSome := by
    decide +kernel
  obtain ⟨c₁, h₁, hfree₂, c₂, h₂, c₃, h₃, hfree₄, c₄, h₄, hsome⟩ := hrun
  have hrun₁ : Run (Grow (Sample.platform true)) OwnershipCond
      (Chain.new Sample.genesis.hash Db.empty, [])
      (c₁, [(Sample.now, Sample.signing2), (Sample.now, Sample.genesis)]) := by
    refine appendAll_grow [] (fun g b hb => ?_) h₁
    simp only [List.mem_cons, List.not_mem_nil, or_false] at hb
    rcases hb with rfl | rfl
    · exact ownershipCond_of_class (by decide) fun t ht => by cases ht; decide
    · exact ownershipCond_of_class (by decide) fun t ht => by cases ht
  have hrun₂ := grow_append hrun₁ (ownershipCond_of_find? (b := Sample.registration) (by decide) hfree₂) h₂
  have hrun₃ := grow_append hrun₂
    (ownershipCond_of_class (by decide) fun t ht => by cases ht) h₃
  have hrun₄ := grow_append hrun₃ (ownershipCond_of_find? (b := Sample.renewal) (by decide) hfree₄) h₄
  exact ⟨c₄, _, hrun₄, List.mem_cons_self, hsome, run_ownerOrFree hrun₄ _ List.mem_cons_self⟩

/-- The owner is the second key, the registration is recent, and the third key has it. -/
theorem not_ownerOrFree_takeover : ∃ c,
    Run (Grow (Sample.platform true)) (fun _ _ => True) (Chain.new Sample.genesis.hash Db.empty, [])
        (c, (Sample.now, Sample.takeover) :: (Sample.registered.map fun b => (Sample.now, b)).reverse)
      ∧ ¬ c.OwnerOrFree Sample.now Sample.takeover := by
  have hrun : ∃ c,
      (Chain.new Sample.genesis.hash Db.empty).appendAll (Sample.platform true) Sample.now
          (Sample.registered ++ [Sample.takeover]) = .ok (some c)
        ∧ (c.db.domainById ⟨[7]⟩ 3).map (fun r => (r.2.signing, r.2.timestamp))
          = some (Sample.key 2, Sample.recent) := by
    decide +kernel
  obtain ⟨c, hc, hrow⟩ := hrun
  refine ⟨c, appendAll_grow [] (fun _ _ _ => trivial) hc, fun hown => ?_⟩
  obtain ⟨⟨i, row⟩, hrow, heq⟩ := Option.map_eq_some_iff.mp hrow
  rw [Prod.mk.injEq] at heq
  rcases hown (Sample.domain ⟨[7]⟩) i row rfl rfl hrow with hkey | hfree
  · rw [heq.1] at hkey
    exact absurd hkey (by decide)
  · unfold DomainRow.FreeAt at hfree
    rw [heq.2] at hfree
    exact absurd hfree (by decide)

end Chain
