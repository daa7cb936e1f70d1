/-
# The domains of a key

`get_my_domains` of `chain.rs`: what the user interface lists for a key.  It goes through all that the
key has signed, from the oldest on, and overwrites what it has listed; an identity is passed over if
the last transaction of it below the tip is another key's.  On the chain of a node the list is the
one that the tables give (`Chain.getMyDomains_lists`).

The clock is read once; what is read there matters for nothing that is listed.
-/
import Ruvname.ChainNames

open Exec

/-- What is listed of a domain: its name, when it was renewed, and its data. -/
abbrev MyDomain := String × Int64 × DomainData

/-- `Keystore`, as far as it is used here. -/
structure KeyHolder where
  getPublic : Bytes
  /-- `crypto_box.reveal`, which may fail. -/
  reveal : List UInt8 → Option (List UInt8)

namespace KeyHolder

/-- `decrypt`. -/
def decrypt (k : KeyHolder) (message : Bytes) : Bytes :=
  match k.reveal message.data with
  | some decrypted => ⟨decrypted⟩
  | none => Bytes.default

/-- The decrypted name of a domain. -/
def nameOf (k : KeyHolder) (data : DomainData) : Exec String :=
  match String.fromUTF8? ⟨(k.decrypt data.encrypted).data.toArray⟩ with
  | none => .error (.expect "called `Result::unwrap()` on an `Err` value")
  | some domain => .ok (if domain.isEmpty then "unknown" else domain)

end KeyHolder

namespace Chain

section

variable (P : Platform) (c : Chain)

/-- `get_domain_renewal_time`: the last transaction of a block with a full difficulty. -/
def getDomainRenewalTime (time : Int64) (identity : Bytes) : Exec (Option Int64) :=
  match c.db.domains.lastWhere? fun id r =>
    (c.db.blocks.find? id).any (fun b => b.difficulty ≥ 23) ∧ r.identity = identity with
  | none => .ok none
  | some (_, row) => do
    let oldest ← subI64 P.checks time domainLifetime
    .ok (if row.timestamp < oldest then none else some row.timestamp)

/-- What is listed for a row: nothing if its data cannot be read. -/
def myDomain (k : KeyHolder) (row : DomainRow) : Exec (Option MyDomain) := do
  match ← P.parseDomainData row.data with
  | none => .ok none
  | some data =>
    let domain ← k.nameOf data
    match ← c.getDomainRenewalTime P row.timestamp row.identity with
    | none => .ok (some (domain, row.timestamp, data))
    | some t => .ok (some (domain, t, data))

/-- A round of the loop over the rows. -/
def addMyDomain (k : KeyHolder) (now : Int64) (result : Bytes → Option MyDomain)
    (row : ℤ × DomainRow) : Exec (Bytes → Option MyDomain) := do
  let (transaction, _) ← c.getIdentityTransactionAndState P row.2.identity c.getHeight now
  if transaction.any fun t => t.signing ≠ row.2.signing then .ok result
  else
    match ← c.myDomain P k row.2 with
    | none => .ok result
    | some entry => .ok (Function.update result row.2.identity (some entry))

/-- `SQL_GET_DOMAINS_BY_KEY`. -/
def domainsByKey (key : Bytes) : List (ℤ × DomainRow) :=
  c.db.domains.rows.filter fun r => r.2.signing = key

/-- `get_my_domains`. -/
def getMyDomains (keystore : Option KeyHolder) (now : Int64) : Exec (Bytes → Option MyDomain) :=
  match keystore with
  | none => .ok fun _ => none
  | some k => (c.domainsByKey k.getPublic).foldlM (c.addMyDomain P k now) fun _ => none

end

variable {P : Platform} {c : Chain} {k : KeyHolder} {now : Int64} {identity : Bytes}

/-- The last transaction below the tip is another key's. -/
def HeldByOther (c : Chain) (key identity : Bytes) : Prop :=
  ∃ id row, c.db.domainById identity c.getHeight = some (id, row) ∧ row.signing ≠ key

/-- What the transaction that was found says about the key. -/
theorem any_signing_iff {transaction : Option Transaction} {state : DomainState} (key : Bytes)
    (h : c.getIdentityTransactionAndState P identity c.getHeight now = .ok (transaction, state)) :
    (transaction.any fun t => t.signing ≠ key) = true ↔ c.HeldByOther key identity := by
  unfold HeldByOther
  cases transaction with
  | some t =>
    obtain ⟨i, row, hrow, rfl⟩ := exists_row_of_getIdentityTransactionAndState h
    rw [hrow, Option.any_some, decide_eq_true_eq]
    constructor
    · exact fun hne => ⟨i, row, rfl, hne⟩
    · rintro ⟨_, _, heq, hne⟩
      cases heq
      exact hne
  | none =>
    have hnone : c.db.domainById identity c.getHeight = none := by
      cases hrow : c.db.domainById identity c.getHeight with
      | none => rfl
      | some found =>
        obtain ⟨i, row⟩ := found
        -- with a row there is a transaction, in each of the states
        unfold getIdentityTransactionAndState at h
        rw [hrow] at h
        obtain ⟨aliveUntil, -, h⟩ := bind_eq_ok.mp h
        dsimp only at h
        split at h
        · cases h
        · obtain ⟨ownedUntil, -, h⟩ := bind_eq_ok.mp h
          split at h <;> cases h
    rw [hnone]
    simp

/-- The row has data that can be read. -/
def RowReadable (P : Platform) (row : DomainRow) : Prop :=
  ∃ data, P.parseDomainData row.data = .ok (some data)

theorem exists_entry {row : DomainRow} (hrow : RowReadable P row) {entry : Option MyDomain}
    (h : c.myDomain P k row = .ok entry) : ∃ e, entry = some e := by
  obtain ⟨data, hdata⟩ := hrow
  unfold myDomain at h
  rw [hdata, ok_bind] at h
  obtain ⟨domain, -, h⟩ := bind_eq_ok.mp h
  obtain ⟨renewed, -, h⟩ := bind_eq_ok.mp h
  cases renewed with
  | none =>
    cases h
    exact ⟨_, rfl⟩
  | some t =>
    cases h
    exact ⟨_, rfl⟩

/-- **What is listed for an identity**, given the key's last row of it: its entry, if no other key
holds the identity. -/
def Lists (P : Platform) (c : Chain) (k : KeyHolder) (identity : Bytes) (last : Option (ℤ × DomainRow))
    (entry : Option MyDomain) : Prop :=
  match last with
  | none => entry = none
  | some (_, row) =>
    c.HeldByOther k.getPublic identity ∧ entry = none ∨
      ¬ c.HeldByOther k.getPublic identity ∧ entry.isSome ∧ c.myDomain P k row = .ok entry

/-- A round of the loop, for the identity of its row and for the others. -/
theorem addMyDomain_lists {result result' : Bytes → Option MyDomain} {row : ℤ × DomainRow}
    (hsigning : row.2.signing = k.getPublic) (hreadable : RowReadable P row.2)
    (hbefore : c.HeldByOther k.getPublic row.2.identity → result row.2.identity = none)
    (h : c.addMyDomain P k now result row = .ok result') :
    c.Lists P k row.2.identity (some row) (result' row.2.identity) ∧
      ∀ identity, identity ≠ row.2.identity → result' identity = result identity := by
  unfold addMyDomain at h
  obtain ⟨⟨transaction, state⟩, hfound, h⟩ := bind_eq_ok.mp h
  have hany := any_signing_iff row.2.signing hfound
  rw [hsigning] at hany
  dsimp only at h
  rw [hsigning] at h
  split_ifs at h with hother
  · cases h
    exact ⟨Or.inl ⟨hany.mp hother, hbefore (hany.mp hother)⟩, fun _ _ => rfl⟩
  · obtain ⟨entry, hentry, h⟩ := bind_eq_ok.mp h
    obtain ⟨e, rfl⟩ := exists_entry hreadable hentry
    cases h
    refine ⟨Or.inr ⟨fun hheld => hother (hany.mpr hheld), ?_⟩, fun identity hne => ?_⟩
    · rw [Function.update_self]
      exact ⟨rfl, hentry⟩
    · exact Function.update_of_ne hne _ _

/-- **The loop**, by induction on the last row: what it lists for an identity comes from the last row
of the identity so far. -/
theorem foldlM_lists {l : List (ℤ × DomainRow)} {result : Bytes → Option MyDomain}
    (hsigning : ∀ r ∈ l, r.2.signing = k.getPublic) (hreadable : ∀ r ∈ l, RowReadable P r.2)
    (h : l.foldlM (c.addMyDomain P k now) (fun _ => none) = .ok result) (identity : Bytes) :
    c.Lists P k identity (l.filter fun r => r.2.identity = identity).getLast? (result identity) := by
  induction l using List.reverseRecOn generalizing result identity with
  | nil =>
    cases h
    rfl
  | append_singleton l row ih =>
    rw [List.foldlM_append] at h
    obtain ⟨before, hbefore, h⟩ := bind_eq_ok.mp h
    rw [List.foldlM_cons] at h
    obtain ⟨after, hrow, h⟩ := bind_eq_ok.mp h
    cases h
    have hlists := ih (fun r hr => hsigning r (List.mem_append_left _ hr))
      (fun r hr => hreadable r (List.mem_append_left _ hr)) hbefore
    have hmem : row ∈ l ++ [row] := List.mem_append_right _ (List.mem_singleton_self row)
    -- an identity that another key holds has been passed over in all rounds before
    have hpassed : c.HeldByOther k.getPublic row.2.identity → before row.2.identity = none := by
      intro hheld
      have hold := hlists row.2.identity
      unfold Lists at hold
      cases hlast : (l.filter fun r => r.2.identity = row.2.identity).getLast? with
      | none =>
        rw [hlast] at hold
        exact hold
      | some last =>
        rw [hlast] at hold
        rcases hold with ⟨-, hnone⟩ | ⟨hnot, -⟩
        · exact hnone
        · exact absurd hheld hnot
    obtain ⟨hself, hothers⟩ := addMyDomain_lists (hsigning row hmem) (hreadable row hmem) hpassed hrow
    rw [List.filter_append]
    by_cases hidentity : row.2.identity = identity
    · rw [List.filter_cons_of_pos (by simpa using hidentity), List.filter_nil, List.getLast?_concat,
        ← hidentity]
      exact hself
    · rw [List.filter_cons_of_neg (by simpa using hidentity), List.filter_nil, List.append_nil,
        hothers identity (Ne.symm hidentity)]
      exact hlists identity

/-- What the tables hold of a chain of a node can be read. -/
theorem rowReadable_of_reachable {n : Node} (hn : n.Reachable P) {id : ℤ} {row : DomainRow}
    (h : n.chain.db.domains.find? id = some row) : RowReadable P row := by
  obtain ⟨origin, run⟩ := hn
  obtain ⟨f, hg, hreadable⟩ := Chain.run_stored Chain.Passed.readable (Node.chain_run run)
  by_cases hneg : id < 0
  · rw [hg.db.domains_neg id hneg] at h
    cases h
  · obtain ⟨i, rfl⟩ := Int.eq_ofNat_of_zero_le (not_lt.mp hneg)
    have hdomain := hg.db.domains i
    rw [h] at hdomain
    obtain ⟨x, hx, hrow⟩ := Option.bind_eq_some_iff.mp hdomain.symm
    obtain ⟨t, ht, hrow⟩ := Option.bind_eq_some_iff.mp hrow
    split_ifs at hrow with hclass
    · cases hrow
      -- the row has the data of the transaction that was checked, signed or not
      obtain ⟨data, hdata⟩ := hreadable i x hx t ht hclass
      refine ⟨data, ?_⟩
      rw [← hdata]
      unfold ownedTransaction
      split <;> rfl

/-- **The list of a key's domains is the one of the tables.**  On the chain of a node an identity is
listed exactly if the key has signed a transaction of it, and no other key the last one below the
tip; and what is listed is the name, the time and the data of the key's last transaction. -/
theorem getMyDomains_lists {n : Node} (hn : n.Reachable P) {result : Bytes → Option MyDomain}
    (h : n.chain.getMyDomains P (some k) now = .ok result) (identity : Bytes) :
    n.chain.Lists P k identity
      (n.chain.db.domains.lastWhere? fun _ r => r.signing = k.getPublic ∧ r.identity = identity)
      (result identity) := by
  have hlists := foldlM_lists (l := n.chain.domainsByKey k.getPublic)
    (fun r hr => of_decide_eq_true (List.mem_filter.mp hr).2)
    (fun r hr => rowReadable_of_reachable hn (Table.mem_rows_iff.mp (List.mem_filter.mp hr).1)) h identity
  unfold domainsByKey at hlists
  rw [List.filter_filter] at hlists
  have hwhere : (n.chain.db.domains.rows.filter fun r =>
      decide (r.2.identity = identity) && decide (r.2.signing = k.getPublic)) =
      n.chain.db.domains.rows.filter fun r =>
        decide (r.2.signing = k.getPublic ∧ r.2.identity = identity) := by
    congr 1
    funext r
    rw [Bool.decide_and, Bool.and_comm]
  rw [hwhere] at hlists
  exact hlists

/-- A key with a domain in a box that every key opens. -/
theorem getMyDomains_lists_foo : ∃ (n : Node) (result : Bytes → Option MyDomain) (identity : Bytes),
    n.chain.getMyDomains Sample.nsPlatform (some ⟨Sample.key 2, fun _ => some [102, 111, 111]⟩)
        Sample.now.secs = .ok result ∧
      (result identity).map Prod.fst = some "foo" ∧
      n.chain.Lists Sample.nsPlatform ⟨Sample.key 2, fun _ => some [102, 111, 111]⟩ identity
        (n.chain.db.domains.lastWhere? fun _ r => r.signing = Sample.key 2 ∧ r.identity = identity)
        (result identity) := by
  obtain ⟨n, hn, result, hresult, hname⟩ : ∃ n, Node.receive Sample.nsPlatform Sample.now
      [Sample.genesis, Sample.foo Sample.nsText, Sample.afterFoo] (Node.fresh Sample.genesis.hash) = .ok n
      ∧ ∃ result, n.chain.getMyDomains Sample.nsPlatform
        (some ⟨Sample.key 2, fun _ => some [102, 111, 111]⟩) Sample.now.secs = .ok result ∧
        (result (hashIdentity Sample.sha256 "foo.ruv" none)).map Prod.fst = some "foo" := by
    decide +kernel
  have hreach : n.Reachable Sample.nsPlatform :=
    ⟨Sample.genesis.hash, Node.receive_run (fun _ _ _ => trivial) hn⟩
  exact ⟨n, result, _, hresult, hname, getMyDomains_lists hreach hresult _⟩

end Chain
