/-
# What a name resolves to

`get_domain_info` answers for the newest registration that it sees: it hands the height of the chain
to a statement that looks strictly below it, so that the registration in the tip itself is not yet
seen.  The name has the answer of its newest registration exactly when this lies below the tip, or
when the one before it gives the same answer.
-/
import Ruvname.Ownership
import Ruvname.RuvchainZones

open Exec

section Resolution

variable {P : Platform} {sha256 : List UInt8 → List UInt8} {now : UtcTime} {c : Chain} {f : Ledger}
  {domain : String} {identity : Bytes} {id : ℤ} {row : DomainRow}

/-- The registration is alive, and its confirmation is that of the name and of its owner. -/
def DomainRow.InForce (sha256 : List UInt8 → List UInt8) (now : UtcTime) (domain : String)
    (row : DomainRow) : Prop :=
  now.secs.toInt ≤ row.timestamp.toInt + domainLifetime.toInt
    ∧ row.confirmation = hashIdentity sha256 domain (some row.signing)

instance : Decidable (row.InForce sha256 now domain) := inferInstanceAs (Decidable (_ ∧ _))

namespace Chain

/-- The newest registration of an identity, anywhere in the table. -/
def latestRow (c : Chain) (identity : Bytes) : Option (ℤ × DomainRow) :=
  c.db.domains.lastWhere? fun _ row => row.identity = identity

/-- The name has the answer of its newest registration: the data of that registration if it is in
force, and otherwise none. -/
def Resolves (P : Platform) (sha256 : List UInt8 → List UInt8) (now : UtcTime) (c : Chain)
    (domain : String) : Prop :=
  ∃ info, c.getDomainInfo P sha256 now domain = .ok info ∧ ∀ data, info = some data ↔
    ∃ id row, c.latestRow (hashIdentity sha256 domain none) = some (id, row)
      ∧ row.InForce sha256 now domain ∧ row.data = data

/-- If the newest registration is not below the tip, the one below the tip says the same. -/
def TipRepeats (sha256 : List UInt8 → List UInt8) (now : UtcTime) (c : Chain) (domain : String) :
    Prop :=
  let identity := hashIdentity sha256 domain none
  ∀ id row, c.latestRow identity = some (id, row) → c.getHeight.toNat ≤ id →
    if row.InForce sha256 now domain then
      ∃ k old, c.db.domainById identity c.getHeight = some (k, old)
        ∧ old.InForce sha256 now domain ∧ old.data = row.data
    else
      ∀ k old, c.db.domainById identity c.getHeight = some (k, old) →
        ¬ old.InForce sha256 now domain

/-! ## The answer -/

/-- `get_domain_info` answers for the newest registration below the tip. -/
theorem Clean.getDomainInfo_eq (hc : c.Clean f) (hname : domain ≠ "") :
    c.getDomainInfo P sha256 now domain
      = .ok ((c.db.domainById (hashIdentity sha256 domain none) c.getHeight).bind fun r =>
        if r.2.InForce sha256 now domain then some r.2.data else none) := by
  unfold getDomainInfo getDomainTransactionAndState
  rw [if_neg hname]
  cases hrow : c.db.domainById (hashIdentity sha256 domain none) c.getHeight with
  | none =>
    unfold getIdentityTransactionAndState
    rw [hrow]
    rfl
  | some r =>
    obtain ⟨i, row⟩ := r
    have hidentity : row.identity = hashIdentity sha256 domain none :=
      (of_decide_eq_true (Table.lastWhere?_eq_some.mp hrow).2.1).2
    obtain ⟨halive, htoAlive, howned, -⟩ := expiry_range (P := P) (hc.domainById_timestamp hrow)
    have hforce : row.InForce sha256 now domain ↔
        row.timestamp + domainLifetime ≥ now.secs ∧ row.toTransaction.checkIdentity sha256 domain := by
      unfold DomainRow.InForce Transaction.checkIdentity
      rw [ge_iff_le, Int64.le_iff_toInt_le, htoAlive, decide_eq_true_eq]
      exact ⟨fun h => ⟨h.1, hidentity, h.2⟩, fun h => ⟨h.1, h.2.2⟩⟩
    rw [getIdentityTransactionAndState_row _ hrow halive howned, ok_bind, Option.bind_some]
    dsimp only
    by_cases hcheck : row.toTransaction.checkIdentity sha256 domain
    · rw [if_pos hcheck, ok_bind]
      by_cases htime : row.timestamp + domainLifetime ≥ now.secs
      · rw [if_pos htime, if_pos (hforce.mpr ⟨htime, hcheck⟩)]
        rfl
      · rw [if_neg htime, if_neg fun h => htime (hforce.mp h).1]
        split
        · rename_i h
          split at h
          · cases h
          · cases h
        · rfl
    · rw [if_neg hcheck, ok_bind, if_neg fun h => hcheck (hforce.mp h).2]

/-! ## The newest registration -/

/-- A newest registration below the tip is the one that is seen. -/
theorem Clean.domainById_of_latestRow (hc : c.Clean f) (h : c.latestRow identity = some (id, row))
    (hbelow : id < c.getHeight.toNat) : c.db.domainById identity c.getHeight = some (id, row) := by
  have hheight := hc.height_le
  have hrows := maxRows_lt
  refine Table.lastWhere?_narrow h ?_ fun j other hother => ?_
  · rw [asI64_of_lt (by omega)]
    exact decide_eq_true ⟨hbelow, of_decide_eq_true (Table.lastWhere?_eq_some.mp h).2.1⟩
  · exact decide_eq_true (of_decide_eq_true hother).2

/-- An identity without registrations has none below the tip. -/
theorem domainById_of_latestRow_none {height : UInt64} (h : c.latestRow identity = none) :
    c.db.domainById identity height = none :=
  Table.lastWhere?_narrow_none h fun _ _ hrow => decide_eq_true (of_decide_eq_true hrow).2

/-- What a registration answers. -/
theorem inForce_data_eq_some {data : String} :
    (if row.InForce sha256 now domain then some row.data else none) = some data
      ↔ row.InForce sha256 now domain ∧ row.data = data := by
  split
  · rename_i hforce
    rw [Option.some.injEq]
    exact ⟨fun h => ⟨hforce, h⟩, fun h => h.2⟩
  · rename_i hforce
    exact ⟨nofun, fun h => absurd h.1 hforce⟩

/-- **Exactly when the newest registration is seen, or repeated.** -/
theorem Clean.resolves_iff_tipRepeats (hc : c.Clean f) (hname : domain ≠ "") :
    c.Resolves P sha256 now domain ↔ c.TipRepeats sha256 now domain := by
  unfold Resolves TipRepeats
  rw [hc.getDomainInfo_eq hname]
  simp only [Except.ok.injEq, exists_eq_left']
  cases hlatest : c.latestRow (hashIdentity sha256 domain none) with
  | none =>
    rw [domainById_of_latestRow_none hlatest]
    simp
  | some r =>
    obtain ⟨id, row⟩ := r
    have hrow : ∀ data, (∃ id' row', some (id, row) = some (id', row') ∧ row'.InForce sha256 now domain
        ∧ row'.data = data) ↔ row.InForce sha256 now domain ∧ row.data = data := by
      intro data
      constructor
      · rintro ⟨id', row', heq, h⟩
        cases heq
        exact h
      · exact fun h => ⟨id, row, rfl, h⟩
    simp only [hrow]
    by_cases hbelow : id < c.getHeight.toNat
    · rw [hc.domainById_of_latestRow hlatest hbelow, Option.bind_some]
      refine ⟨fun _ id' row' heq hle => ?_, fun _ data => inForce_data_eq_some⟩
      cases heq
      omega
    · constructor
      · intro h id' row' heq _
        cases heq
        by_cases hforce : row.InForce sha256 now domain
        · rw [if_pos hforce]
          obtain ⟨⟨k, old⟩, hold, hsome⟩ := Option.bind_eq_some_iff.mp ((h row.data).mpr ⟨hforce, rfl⟩)
          exact ⟨k, old, hold, inForce_data_eq_some.mp hsome⟩
        · rw [if_neg hforce]
          intro k old hold hinforce
          rw [hold, Option.bind_some] at h
          exact hforce ((h old.data).mp (if_pos hinforce)).1
      · intro h data
        have h := h id row rfl (by omega)
        by_cases hforce : row.InForce sha256 now domain
        · rw [if_pos hforce] at h
          obtain ⟨k, old, hold, hinforce, hdata⟩ := h
          rw [hold, Option.bind_some, inForce_data_eq_some, hdata]
          simp only [hinforce, hforce]
        · rw [if_neg hforce] at h
          refine ⟨fun hsome => ?_, fun hboth => absurd hboth.1 hforce⟩
          obtain ⟨⟨k, old⟩, hold, hsome⟩ := Option.bind_eq_some_iff.mp hsome
          exact absurd (inForce_data_eq_some.mp hsome).1 (h k old hold)

end Chain

/-- **Resolution reflects the chain** of a reachable node exactly when the newest registration of the
name lies below the tip, or the one below the tip says the same. -/
theorem Node.resolves_iff {n : Node} (hn : n.Reachable P) (hname : domain ≠ "") :
    n.chain.Resolves P sha256 now domain ↔ n.chain.TipRepeats sha256 now domain := by
  obtain ⟨f, hc⟩ := hn.clean
  exact hc.resolves_iff_tipRepeats hname

end Resolution

namespace Node

open Sample

/-- A registration with a block on top of it. -/
theorem resolves_foo : ∃ n : Node, n.Reachable zonePlatform ∧
    n.chain.getDomainInfo zonePlatform sha256 now "foo.ruv" = .ok (some ruvText) ∧
    n.chain.Resolves zonePlatform sha256 now "foo.ruv" := by
  have hrun : ∃ n, receive zonePlatform now [genesis, foo ruvText, afterFoo] (fresh genesis.hash) = .ok n
      ∧ n.chain.getDomainInfo zonePlatform sha256 now "foo.ruv" = .ok (some ruvText)
      ∧ n.chain.getHeight = 3
      ∧ (n.chain.latestRow (hashIdentity sha256 "foo.ruv" none)).map Prod.fst = some 2 := by
    decide +kernel
  obtain ⟨n, hn, hinfo, hheight, hlatest⟩ := hrun
  have hreach : n.Reachable zonePlatform := ⟨genesis.hash, receive_run (fun _ _ _ => trivial) hn⟩
  refine ⟨n, hreach, hinfo, (resolves_iff hreach (by decide)).mpr ?_⟩
  intro id row hrow hle
  rw [hrow, Option.map_some, Option.some.injEq] at hlatest
  rw [show id = 2 from hlatest, hheight] at hle
  exact absurd hle (by decide)

/-- A registration in the tip is alive and confirmed, and the name has no answer. -/
theorem not_resolves_foo : ∃ n : Node, n.Reachable zonePlatform ∧
    n.chain.getDomainInfo zonePlatform sha256 now "foo.ruv" = .ok none ∧
    (∃ row, n.chain.latestRow (hashIdentity sha256 "foo.ruv" none) = some (2, row)
      ∧ row.InForce sha256 now "foo.ruv" ∧ row.data = ruvText) ∧
    ¬ n.chain.Resolves zonePlatform sha256 now "foo.ruv" := by
  have hrun : ∃ n, receive zonePlatform now [genesis, foo ruvText] (fresh genesis.hash) = .ok n
      ∧ n.chain.getDomainInfo zonePlatform sha256 now "foo.ruv" = .ok none
      ∧ ∃ r ∈ n.chain.latestRow (hashIdentity sha256 "foo.ruv" none),
        r.1 = 2 ∧ r.2.InForce sha256 now "foo.ruv" ∧ r.2.data = ruvText := by
    decide +kernel
  obtain ⟨n, hn, hinfo, ⟨id, row⟩, hlatest, rfl, hforce, hdata⟩ := hrun
  have hreach : n.Reachable zonePlatform := ⟨genesis.hash, receive_run (fun _ _ _ => trivial) hn⟩
  refine ⟨n, hreach, hinfo, ⟨row, hlatest, hforce, hdata⟩, ?_⟩
  rintro ⟨info, hanswer, hiff⟩
  rw [hinfo, Except.ok.injEq] at hanswer
  subst hanswer
  cases (hiff ruvText).mpr ⟨2, row, hlatest, hforce, hdata⟩

end Node
