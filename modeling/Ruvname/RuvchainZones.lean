/-
# Zones bound to Ruvchain addresses

A domain in a zone like `ruv` may only have addresses of the Ruvchain network.  The rule is
applied when a block is judged, to the zone that the data of the transaction declare; the data
are served under every name that has the identity of the transaction.  Nothing ties the two
together: a transaction for `foo.ruv` may declare the zone `dweb` and carry any address.  In a
run in which every block for a name of a bound zone declares a bound zone, or has no other
addresses anyway, the lookup answers with addresses of the network only.
-/
import Ruvname.Filter
import Ruvname.HexText
import Ruvname.Reachable

open Exec

/-- A zone bound to Ruvchain addresses. -/
def RuvchainZone (zone : String) : Prop := ∃ z ∈ loadZones, z.name = zone ∧ z.ruvchain

/-! ## Names -/

/-- The last label of a name. -/
def lastLabel (qname : String) : String :=
  String.ofList (qname.toList.reverse.takeWhile (· ≠ '.')).reverse

/-- The last two labels, if there are two. -/
def topDomain? (qname : String) : Option String :=
  match (rsplitn 3 qname.toList).map String.ofList with
  | zone :: name :: _ => some (name ++ "." ++ zone)
  | _ => none

theorem dropWhile_eq_nil {s : List Char} (h : s.reverse.dropWhile (· ≠ '.') = []) :
    (s.reverse.takeWhile (· ≠ '.')).reverse = s := by
  have hsplit := List.takeWhile_append_dropWhile (p := fun c => decide (c ≠ '.')) (l := s.reverse)
  rw [h, List.append_nil] at hsplit
  rw [hsplit, List.reverse_reverse]

/-- The first part is the last label. -/
theorem head_rsplitn {n : ℕ} {s part : List Char} {parts : List (List Char)}
    (h : rsplitn (n + 2) s = part :: parts) : part = (s.reverse.takeWhile (· ≠ '.')).reverse := by
  unfold rsplitn at h
  split at h
  · rename_i hnil
    rw [List.cons.injEq] at h
    rw [dropWhile_eq_nil hnil, h.1]
  · rw [List.cons.injEq] at h
    exact h.1.symm

/-- A part that is not the last one has no dot. -/
theorem dot_notMem_rsplitn {n : ℕ} {s part part' : List Char} {parts : List (List Char)}
    (h : rsplitn (n + 3) s = part :: part' :: parts) : '.' ∉ part' := by
  unfold rsplitn at h
  split at h
  · cases h
  · rw [List.cons.injEq] at h
    rw [head_rsplitn h.2, List.mem_reverse]
    exact notMem_takeWhile_ne

/-- The name is put together again from what is split off at its end. -/
theorem rsplitn_cons_cons {n : ℕ} {s part part' : List Char} {parts : List (List Char)}
    (h : rsplitn (n + 2) s = part :: part' :: parts) :
    ∃ rest, s = rest ++ '.' :: part ∧ rsplitn (n + 1) rest = part' :: parts := by
  unfold rsplitn at h
  split at h
  · cases h
  · rename_i dot rest hdrop
    rw [List.cons.injEq] at h
    obtain ⟨hpart, hparts⟩ := h
    refine ⟨rest.reverse, ?_, hparts⟩
    have hsplit := eq_of_dropWhile_ne hdrop
    rw [← hpart, ← List.reverse_inj, List.reverse_append, List.reverse_cons, List.reverse_reverse,
      List.reverse_reverse, List.append_assoc, List.singleton_append]
    exact hsplit

/-! ## Where the answers come from -/

namespace BlockchainFilter

variable {qname subdomain : String} {qtype : QueryType} {records : List DnsRecord}

@[simp] theorem address?_rename (r : DnsRecord) : (rename qname r).address? = r.address? := by
  cases r <;> rfl

/-- The address of a record, if it has one, is that of a record of the list. -/
def Carried (records : List DnsRecord) (r : DnsRecord) : Prop :=
  ∀ addr, r.address? = some addr → ∃ x ∈ records, x.address? = some addr

theorem carried_of_mem {r : DnsRecord} (h : r ∈ records) : Carried records r :=
  fun _ haddr => ⟨r, h, haddr⟩

theorem Carried.rename {r : DnsRecord} (h : Carried records r) :
    Carried records (rename qname r) := by
  intro addr haddr
  rw [address?_rename] at haddr
  exact h addr haddr

theorem carried_append {records' : List DnsRecord} {r : DnsRecord}
    (h : ∀ x ∈ records', Carried records x) (hr : Carried records r) :
    ∀ x ∈ records' ++ [r], Carried records x := by
  intro x hx
  rcases List.mem_append.mp hx with hx | hx
  · exact h x hx
  · rw [List.mem_singleton.mp hx]
    exact hr

/-- Everything the first pass holds is carried by the records. -/
structure Search.Carried (source : List DnsRecord) (acc : Search) : Prop where
  records : ∀ x ∈ acc.records, BlockchainFilter.Carried source x
  answers : ∀ x ∈ acc.answers, BlockchainFilter.Carried source x
  cname : ∀ x ∈ acc.cname, BlockchainFilter.Carried source x

theorem Search.Carried.step {acc : Search} {record : DnsRecord} (h : acc.Carried records)
    (hr : BlockchainFilter.Carried records record) :
    (searchStep qname qtype subdomain acc record).Carried records := by
  unfold searchStep
  split
  · dsimp only
    generalize hrecord : (if (record.getDomain = some "@" ∧ subdomain = "")
      ∨ record.getDomain = some subdomain then BlockchainFilter.rename qname record else record)
      = record'
    have hr' : BlockchainFilter.Carried records record' := by
      rw [← hrecord]
      split
      · exact hr.rename
      · exact hr
    split
    · split
      · refine ⟨carried_append h.records hr', h.answers, ?_⟩
        intro x hx
        cases hx
        exact hr'
      · exact ⟨carried_append h.records hr', carried_append h.answers hr', h.cname⟩
    · exact ⟨carried_append h.records hr', h.answers, h.cname⟩
  · exact ⟨carried_append h.records hr, h.answers, h.cname⟩

/-- The first pass invents no address. -/
theorem carried_search (qname : String) (qtype : QueryType) (subdomain : String)
    (records : List DnsRecord) : (records.foldl (searchStep qname qtype subdomain) {}).Carried records := by
  refine List.foldlRecOn records _ ⟨?_, ?_, ?_⟩ ?_
  · intro x hx
    cases hx
  · intro x hx
    cases hx
  · intro x hx
    cases hx
  · intro acc hacc record hrecord
    exact hacc.step (carried_of_mem hrecord)

/-- Nor does the second one. -/
theorem carried_wildcard {records' : List DnsRecord} {exists' : Bool}
    (h : ∀ x ∈ records', Carried records x) :
    ∀ x ∈ (records'.foldl (wildcardStep qname qtype subdomain) ([], exists')).1,
      Carried records x := by
  refine List.foldlRecOn (motive := fun acc : List DnsRecord × Bool =>
    ∀ x ∈ acc.1, Carried records x) records' _ ?_ ?_
  · intro x hx
    cases hx
  · intro acc hacc record hrecord
    unfold wildcardStep
    dsimp only
    split
    · exact carried_append hacc (h record hrecord).rename
    · exact hacc

/-- **Answers are taken from the records of the domain.** -/
theorem carried_findAnswers :
    ∀ x ∈ (findAnswers qname qtype subdomain records).1, Carried records x := by
  have hsearch := carried_search qname qtype subdomain records
  unfold findAnswers
  generalize records.foldl (searchStep qname qtype subdomain) {} = search at hsearch
  have hanswers : ∀ x ∈ if search.answers = [] then search.cname.toList else search.answers,
      Carried records x := by
    split
    · intro x hx
      exact hsearch.cname x (Option.mem_toList.mp hx)
    · exact hsearch.answers
  dsimp only
  generalize (if search.answers = [] then search.cname.toList else search.answers) = answers
    at hanswers
  split
  · exact carried_wildcard hsearch.records
  · exact hanswers

/-- The other records of the packet have no address. -/
theorem carried_createPacket {c : Chain} {zone : String} {answers : List DnsRecord}
    (h : ∀ x ∈ answers, Carried records x) :
    ∀ x ∈ (createPacket c qname qtype zone answers).records, Carried records x := by
  unfold createPacket DnsPacket.records
  split
  · rw [List.append_nil]
    apply carried_append h
    intro addr haddr
    cases haddr
  · intro x hx addr haddr
    rw [addSoaRecord, List.append_nil, List.nil_append, List.nil_append] at hx
    rw [List.mem_singleton.mp hx] at haddr
    cases haddr

end BlockchainFilter

/-! ## The stored transaction -/

section Stored

variable {P : Platform} {sha256 : List UInt8 → List UInt8} {now : UtcTime} {c c' : Chain}
  {b : Block} {f : Ledger}

namespace Chain

/-- What `get_identity_transaction_and_state` returns is a row of the table. -/
theorem exists_row_of_getIdentityTransactionAndState {identity : Bytes} {height : UInt64}
    {time : Int64} {t : Transaction} {state : DomainState}
    (h : c.getIdentityTransactionAndState P identity height time = .ok (some t, state)) :
    ∃ i row, c.db.domainById identity height = some (i, row)
      ∧ t = ⟨classDomain, row.identity, row.confirmation, row.signing, row.encryption, row.data⟩ := by
  unfold getIdentityTransactionAndState at h
  split at h
  · cases h
  · rename_i i row hrow
    refine ⟨i, row, hrow, ?_⟩
    obtain ⟨aliveUntil, -, h⟩ := bind_eq_ok.mp h
    dsimp only at h
    split at h
    · cases h
      rfl
    · obtain ⟨ownedUntil, -, h⟩ := bind_eq_ok.mp h
      split at h
      · cases h
        rfl
      · cases h
        rfl

/-- The data of a domain are those of a block of the ledger that has its identity. -/
theorem exists_block_of_getDomainInfo (hr : c.db.Represents f) {domain info : String}
    (h : c.getDomainInfo P sha256 now domain = .ok (some info)) :
    ∃ n x t, f n = some x ∧ x.transaction = some t ∧ t.class' = classDomain ∧ t.data = info
      ∧ (ownedTransaction x.pubKey t).checkIdentity sha256 domain := by
  obtain ⟨⟨found, state⟩, hfound, h⟩ := bind_eq_ok.mp h
  unfold getDomainTransactionAndState at hfound
  split at hfound
  · cases hfound
    cases h
  obtain ⟨⟨transaction, state'⟩, hrow, hfound⟩ := bind_eq_ok.mp hfound
  dsimp only at hfound
  split at hfound
  · cases hfound
    cases h
  · rename_i t
    split at hfound
    · rename_i hidentity
      cases hfound
      split at h
      · rename_i halive
        cases halive
        cases h
        obtain ⟨i, row, hfind, rfl⟩ := exists_row_of_getIdentityTransactionAndState hrow
        obtain ⟨n, x, -, hx, hdomain⟩ :=
          hr.exists_of_find?_domains (Table.lastWhere?_eq_some.mp hfind).1
        obtain ⟨t, ht, hclass⟩ := Option.bind_eq_some_iff.mp hdomain
        split at hclass
        · rename_i hdomainClass
          cases hclass
          refine ⟨n, x, t, hx, ht, hdomainClass, ?_, hidentity⟩
          unfold ownedTransaction
          split
          · rfl
          · rfl
        · cases hclass
      · cases h
    · cases hfound
      cases h

end Chain

/-- The block that an action adds. -/
def ChainAction.added : ChainAction → Option Block
  | .append _ b => some b
  | .replace _ b => some b
  | _ => none

/-! ## Declared zones -/

/-- The block is served under this name of a bound zone. -/
structure Block.ServedAs (sha256 : List UInt8 → List UInt8) (b : Block) (t : Transaction)
    (label zone : String) : Prop where
  transaction : b.transaction = some t
  domain : t.class' = classDomain
  noDot : '.' ∉ label.toList
  bound : RuvchainZone zone
  identity : (Chain.ownedTransaction b.pubKey t).checkIdentity sha256 (label ++ "." ++ zone)

/-- **The zone of the name is declared.**  A block that is served under a name of a bound zone
declares a bound zone, or has no address of another network. -/
def Block.Declares (P : Platform) (sha256 : List UInt8 → List UInt8) (b : Block) : Prop :=
  ∀ t label zone data, b.ServedAs sha256 t label zone → P.parseDomainData t.data = .ok (some data) →
    RuvchainZone data.zone ∨ ∀ r ∈ data.records, isRuvchainRecord r

/-- All records of a block that is served under a name of a bound zone may be served there. -/
def Block.Lawful (P : Platform) (sha256 : List UInt8 → List UInt8) (b : Block) : Prop :=
  ∀ t label zone data, b.ServedAs sha256 t label zone → P.parseDomainData t.data = .ok (some data) →
    ∀ r ∈ data.records, isRuvchainRecord r

namespace Chain

/-- The check of the records enforces the declared zone. -/
theorem isRuvchainRecord_of_checkRecords {t : Transaction} {data : DomainData}
    (hzones : c.zones = loadZones) (hdomain : t.class' = classDomain)
    (hdata : P.parseDomainData t.data = .ok (some data)) (hzone : RuvchainZone data.zone)
    (h : c.checkRecords P t = .ok none) : ∀ r ∈ data.records, isRuvchainRecord r := by
  intro r hr
  rw [checkRecords, Transaction.getDomainData, if_pos hdomain, hdata, ok_bind] at h
  dsimp only at h
  rw [Except.ok.injEq, verdictIf_eq_none, not_or] at h
  by_contra hne
  obtain ⟨z, hz, hname, hbound⟩ := hzone
  refine h.2 ⟨z, hzones ▸ hz, hname, hbound, r, hr, ?_⟩
  intro hallowed
  exact hne (of_decide_eq_true hallowed).1

/-- A block that has passed the checks and declares its zone is lawful. -/
theorem Passed.lawful {last : Option Block} (h : Passed P now c b last) (hzones : c.zones = loadZones)
    (hdeclares : b.Declares P sha256) : b.Lawful P sha256 := by
  intro t label zone data hserved hdata
  rcases hdeclares t label zone data hserved hdata with hzone | hrecords
  · have hpassed := h.transaction
    rw [checkTransaction, hserved.transaction] at hpassed
    apply isRuvchainRecord_of_checkRecords hzones hserved.domain hdata hzone
    exact firstVerdict_eq_none.mp hpassed _ (by simp)
  · exact hrecords

/-- The chain after an action knows the same zones. -/
theorem Step.zones {a : ChainAction} (hg : c.Grounded f) (h : c.Step P a c')
    (hzones : c.zones = loadZones) : c'.zones = loadZones := by
  cases a with
  | judge now b =>
    obtain ⟨q, s, -, rfl⟩ := h
    exact hzones
  | height h =>
    cases h
    exact hzones
  | append now b =>
    obtain ⟨s, hgood, hadd⟩ := h
    rcases append_ledger hg hgood hadd with ⟨rfl, -⟩ | ⟨-, -, hadded⟩
    · exact hzones
    · exact hadded.zones.trans hzones
  | replace now b =>
    obtain ⟨s, hfork, hrep⟩ := h
    obtain ⟨-, -, hadded⟩ := replace_ledger hg hfork hrep
    exact hadded.zones.trans hzones
  | recheck clock count =>
    have hheight := hg.height_le
    have hmax := maxRows_lt
    obtain ⟨start, hstart, h⟩ := bind_eq_ok.mp h
    have hfrom := checkFrom_spec (by omega) hstart
    obtain ⟨⟨c₁, cut⟩, hloop, h⟩ := bind_eq_ok.mp h
    cases h
    exact (checkLoop_spec hg.db hfrom.1 (by omega) hloop).1.zones.trans hzones
  | reopen =>
    cases h
    rfl

/-- A block that an action adds has passed the checks. -/
theorem Step.passed {a : ChainAction} (h : c.Step P a c') (hb : a.added = some b) :
    ∃ now, Passed P now c b c.lastBlock := by
  cases a with
  | append now b' =>
    cases hb
    obtain ⟨s, hgood, -⟩ := h
    exact ⟨now, ((checkBlock_accepting accepting_good).mp hgood).1⟩
  | replace now b' =>
    cases hb
    obtain ⟨s, hfork, -⟩ := h
    exact ⟨now, ((checkBlock_accepting accepting_fork).mp hfork).1⟩
  | _ => cases hb

end Chain

/-- A block of the ledger was there before the action or is the one it adds. -/
theorem Ledger.Step.eq_or_added {f' : Ledger} {a : ChainAction} {n : ℕ} {x : Block} (h : f.Step a f')
    (hx : f' n = some x) : f n = some x ∨ a.added = some x := by
  cases a with
  | judge now b =>
    cases h
    exact Or.inl hx
  | height height =>
    cases h
    exact Or.inl hx
  | append now b =>
    rcases h with rfl | ⟨-, rfl⟩
    · exact Or.inl hx
    · rcases put_eq_some hx with hx | rfl
      · exact Or.inl hx
      · exact Or.inr rfl
  | replace now b =>
    obtain ⟨-, rfl⟩ := h
    rcases put_eq_some hx with hx | rfl
    · exact Or.inl (truncate_eq_some hx).2
    · exact Or.inr rfl
  | recheck clock count =>
    rcases h with rfl | ⟨i, -, -, rfl⟩
    · exact Or.inl hx
    · exact Or.inl (truncate_eq_some hx).2
  | reopen =>
    rcases h with rfl | rfl
    · exact Or.inl hx
    · cases hx

namespace Chain

/-- All blocks of the chain are lawful. -/
structure Bound (P : Platform) (sha256 : List UInt8 → List UInt8) (c : Chain) (f : Ledger) : Prop
    extends c.Grounded f where
  zones : c.zones = loadZones
  lawful : ∀ n x, f n = some x → x.Lawful P sha256

theorem bound_new (origin : Bytes) : ∃ f, (Chain.new origin Db.empty).Bound P sha256 f := by
  obtain ⟨f, hg, -⟩ := new_ledger Db.represents_empty origin
  refine ⟨f, hg, rfl, ?_⟩
  intro n x hx
  have hempty := hg.db
  rw [new_empty] at hempty
  rw [hempty.eq_none_of_empty] at hx
  cases hx

/-- **The step lemma.**  Adding blocks that declare their zones keeps all blocks lawful. -/
theorem Bound.step {a : ChainAction} (hb : c.Bound P sha256 f) (h : c.Step P a c')
    (hok : ∀ b, a.added = some b → b.Declares P sha256) : ∃ f', c'.Bound P sha256 f' := by
  obtain ⟨f', hg', hstep, -⟩ := h.ledger hb.toGrounded
  refine ⟨f', hg', h.zones hb.toGrounded hb.zones, ?_⟩
  intro n x hx
  rcases hstep.eq_or_added hx with hold | hadded
  · exact hb.lawful n x hold
  · obtain ⟨now, hpassed⟩ := h.passed hadded
    exact hpassed.lawful hb.zones (hok x hadded)

/-- **The run lemma.** -/
theorem run_bound {origin : Bytes}
    (run : Run (Step P) (fun _ a => ∀ b, a.added = some b → b.Declares P sha256)
      (Chain.new origin Db.empty) c) : ∃ f, c.Bound P sha256 f := by
  apply run.invariant (I := fun c => ∃ f, c.Bound P sha256 f) (bound_new origin)
  rintro c a c' ⟨f, hb⟩ hok hstep
  exact hb.step hstep hok

end Chain

end Stored

/-! ## Lookup -/

namespace BlockchainFilter

section Lookup

variable {P : Platform} {sha256 : List UInt8 → List UInt8} {lookupFromNs : LookupFromNs}
  {now : UtcTime} {c : Chain} {qname topDomain subdomain zone : String} {qtype : QueryType}
  {packet : DnsPacket}

/-- The domain is delegated: its data name servers and have addresses for them. -/
def Delegated (P : Platform) (sha256 : List UInt8 → List UInt8) (now : UtcTime) (c : Chain)
    (topDomain : String) : Prop :=
  ∃ info data, c.getDomainInfo P sha256 now topDomain = .ok (some info)
    ∧ P.parseDomainData info = .ok (some data)
    ∧ glueServers topDomain (nsHosts data.records) data.records ≠ []

theorem resolveByNs_of_own {data : DomainData}
    (h : glueServers topDomain (nsHosts data.records) data.records = []) :
    resolveByNs lookupFromNs qname qtype topDomain data = (false, none) := by
  unfold resolveByNs
  dsimp only
  rw [if_neg (not_not_intro h)]
  split
  · rfl
  · rfl

/-- **Addresses of the answer.**  If the domain is not delegated, they are those of its data. -/
theorem exists_record_of_lookupDomain
    (h : lookupDomain P sha256 lookupFromNs now c qname qtype topDomain subdomain zone
      = .ok (some packet))
    (hown : ¬ Delegated P sha256 now c topDomain) {r : DnsRecord} (hr : r ∈ packet.records)
    {addr : IpAddr} (haddr : r.address? = some addr) :
    ∃ info data, c.getDomainInfo P sha256 now topDomain = .ok (some info)
      ∧ P.parseDomainData info = .ok (some data) ∧ ∃ x ∈ data.records, x.address? = some addr := by
  obtain ⟨info?, hinfo, h⟩ := bind_eq_ok.mp h
  cases info? with
  | none =>
    -- the packet has one SOA record
    dsimp only at h
    split at h
    · cases h
      rw [DnsPacket.records, addSoaRecord, List.append_nil, List.nil_append, List.nil_append] at hr
      rw [List.mem_singleton.mp hr] at haddr
      cases haddr
    · cases h
  | some info =>
    obtain ⟨data?, hdata, h⟩ := bind_eq_ok.mp h
    cases data? with
    | none => cases h
    | some data =>
      have hglue : glueServers topDomain (nsHosts data.records) data.records = [] := by
        by_contra hne
        exact hown ⟨info, data, hinfo, hdata, hne⟩
      dsimp only at h
      rw [resolveByNs_of_own hglue] at h
      dsimp only at h
      rw [if_neg Bool.false_ne_true, Except.ok.injEq, Option.some.injEq] at h
      have hcarried : ∀ x ∈ (createPacket c qname qtype zone
          (findAnswers qname qtype subdomain data.records).1).records, Carried data.records x :=
        carried_createPacket carried_findAnswers
      have hrecords : packet.records = (createPacket c qname qtype zone
          (findAnswers qname qtype subdomain data.records).1).records := by
        rw [← h]
        split
        · rfl
        · rfl
      rw [hrecords] at hr
      exact ⟨info, data, hinfo, hdata, hcarried r hr addr haddr⟩

/-- The same for the whole name. -/
theorem exists_record_of_lookup (h : lookup P sha256 lookupFromNs now c qname qtype = .ok (some packet))
    (hown : ∀ top, topDomain? qname = some top → ¬ Delegated P sha256 now c top) {r : DnsRecord}
    (hr : r ∈ packet.records) {addr : IpAddr} (haddr : r.address? = some addr) :
    ∃ label info data, '.' ∉ label.toList
      ∧ c.getDomainInfo P sha256 now (label ++ "." ++ lastLabel qname) = .ok (some info)
      ∧ P.parseDomainData info = .ok (some data) ∧ ∃ x ∈ data.records, x.address? = some addr := by
  unfold lookup at h
  unfold topDomain? at hown
  cases hparts : rsplitn 3 qname.toList with
  | nil =>
    rw [hparts] at h
    cases h
  | cons part parts =>
    have hzone : String.ofList part = lastLabel qname := by
      rw [head_rsplitn hparts, lastLabel]
    rw [hparts] at h hown
    cases parts with
    | nil =>
      -- only the zone: a SOA record
      rw [List.map_cons, List.map_nil, Except.ok.injEq, getZoneResponse] at h
      split at h
      · cases h
        rw [DnsPacket.records, addSoaRecord, List.append_nil, List.nil_append, List.nil_append] at hr
        rw [List.mem_singleton.mp hr] at haddr
        cases haddr
      · cases h
    | cons name rest =>
      have hdot : '.' ∉ (String.ofList name).toList := by
        rw [String.toList_ofList]
        exact dot_notMem_rsplitn hparts
      have hdomain : ∃ subdomain, lookupDomain P sha256 lookupFromNs now c qname qtype
          (String.ofList name ++ "." ++ lastLabel qname) subdomain (lastLabel qname)
            = .ok (some packet) := by
        rw [← hzone]
        cases rest with
        | nil => exact ⟨_, h⟩
        | cons sub rest => exact ⟨_, h⟩
      obtain ⟨subdomain, hdomain⟩ := hdomain
      have hown' : ¬ Delegated P sha256 now c (String.ofList name ++ "." ++ lastLabel qname) := by
        apply hown
        rw [← hzone]
        rfl
      obtain ⟨info, data, hinfo, hdata, hx⟩ := exists_record_of_lookupDomain hdomain hown' hr haddr
      exact ⟨_, info, data, hdot, hinfo, hdata, hx⟩

/-- **Ruvchain-only zones.**  If every block that was added declares the zone it is served in,
then every address that the chain itself answers for a name of a bound zone is one of the
Ruvchain network. -/
theorem run_ruvchainOnly {origin : Bytes}
    (run : Run (Chain.Step P) (fun _ a => ∀ b, a.added = some b → b.Declares P sha256)
      (Chain.new origin Db.empty) c)
    (hzone : RuvchainZone (lastLabel qname))
    (hown : ∀ top, topDomain? qname = some top → ¬ Delegated P sha256 now c top)
    (h : lookup P sha256 lookupFromNs now c qname qtype = .ok (some packet)) :
    ∀ r ∈ packet.records, ∀ addr, r.address? = some addr → isRuvchainAddr addr := by
  intro r hr addr haddr
  obtain ⟨f, hb⟩ := Chain.run_bound run
  obtain ⟨label, info, data, hdot, hinfo, hdata, x, hx, hxaddr⟩ :=
    exists_record_of_lookup h hown hr haddr
  obtain ⟨n, b, t, hbn, ht, hclass, rfl, hidentity⟩ :=
    Chain.exists_block_of_getDomainInfo hb.db hinfo
  have hlawful := hb.lawful n b hbn t label (lastLabel qname) data
    ⟨ht, hclass, hdot, hzone, hidentity⟩ hdata x hx
  exact (DnsRecord.isRuvchainRecord_iff x).mp hlawful addr hxaddr

end Lookup

end BlockchainFilter

/-! ## Two registrations of one name -/

namespace Sample

/-- SHA-256 of what the identity of `foo.ruv` and its confirmation by the second key are made of:
the name, its digest, and the digest followed by the key. -/
def sha256 (data : List UInt8) : List UInt8 :=
  let base := [77, 76, 230, 21, 133, 176, 23, 160, 51, 184, 71, 121, 244, 163, 12, 5, 162, 50, 216,
    36, 204, 47, 218, 227, 30, 242, 124, 247, 199, 49, 232, 138]
  if data = "foo.ruv".toUTF8.data.toList then base
  else if data = base then
    [242, 30, 21, 209, 105, 243, 95, 174, 177, 44, 178, 32, 127, 143, 111, 243, 95, 21, 217, 101,
      85, 166, 111, 200, 40, 29, 38, 228, 144, 133, 218, 100]
  else if data = base ++ (key 2).data then
    [82, 79, 249, 15, 105, 236, 128, 81, 76, 15, 145, 6, 30, 106, 221, 42, 203, 110, 222, 18, 240,
      4, 8, 40, 184, 239, 9, 234, 226, 179, 169, 44]
  else []

/-- Data that declare the zone `ruv`, with an address of the network. -/
def ruvText : String := "\x7b\"encrypted\":\"\",\"zone\":\"ruv\",\"records\":["
  ++ "\x7b\"type\":\"AAAA\",\"domain\":\"@\",\"addr\":\"fa00::1\",\"ttl\":60\x7d]\x7d"

/-- Data that declare the zone `dweb`, with another address. -/
def dwebText : String := "\x7b\"encrypted\":\"\",\"zone\":\"dweb\",\"records\":["
  ++ "\x7b\"type\":\"A\",\"domain\":\"@\",\"addr\":\"1.2.3.4\",\"ttl\":60\x7d]\x7d"

def fa001 : Ipv6Addr := ⟨#v[0xfa00, 0, 0, 0, 0, 0, 0, 1]⟩
def clearnet : Ipv4Addr := ⟨#v[1, 2, 3, 4]⟩

/-- The platform of the concrete runs, which also reads these two texts. -/
def zonePlatform : Platform :=
  { platform true with
    readDomainJson := fun s =>
      if s = ruvText then some ("", some fun bytes => ⟨bytes, "ruv", "", [.aaaa "@" fa001 60], []⟩)
      else if s = dwebText then
        some ("", some fun bytes => ⟨bytes, "dweb", "", [.a "@" clearnet 60], []⟩)
      else none }

/-- The registration of `foo.ruv` by the second key, with these data. -/
def foo (data : String) : Block :=
  block 2 1699999000 3 genesis.hash (key 2) (some ⟨classDomain, hashIdentity sha256 "foo.ruv" none,
    hashIdentity sha256 "foo.ruv" (some (key 2)), Bytes.default, Bytes.default, data⟩)

/-- The block after it, which makes it visible. -/
def afterFoo : Block := block 3 1699999000 4 (hash [3]) (key 2) none

end Sample

namespace BlockchainFilter

open Sample

theorem parse_ruvText : zonePlatform.parseDomainData ruvText
    = .ok (some ⟨Bytes.default, "ruv", "", [.aaaa "@" fa001 60], []⟩) := by
  decide +kernel

theorem parse_dwebText : zonePlatform.parseDomainData dwebText
    = .ok (some ⟨Bytes.default, "dweb", "", [.a "@" clearnet 60], []⟩) := by
  decide +kernel

theorem ruvchainZone_foo : RuvchainZone (lastLabel "foo.ruv") :=
  ⟨⟨"ruv", true⟩, by decide +kernel, by decide +kernel, rfl⟩

/-- Data without name servers delegate nothing. -/
theorem not_delegated_foo {c : Chain} {info : String} {data : DomainData}
    (hinfo : c.getDomainInfo zonePlatform sha256 now "foo.ruv" = .ok (some info))
    (hdata : zonePlatform.parseDomainData info = .ok (some data))
    (hglue : glueServers "foo.ruv" (nsHosts data.records) data.records = []) :
    ∀ top, topDomain? "foo.ruv" = some top → ¬ Delegated zonePlatform sha256 now c top := by
  intro top htop
  have hfoo : topDomain? "foo.ruv" = some "foo.ruv" := by decide +kernel
  rw [hfoo, Option.some.injEq] at htop
  subst htop
  rintro ⟨info', data', hinfo', hdata', hne⟩
  rw [hinfo, Except.ok.injEq, Option.some.injEq] at hinfo'
  subst hinfo'
  rw [hdata, Except.ok.injEq, Option.some.injEq] at hdata'
  subst hdata'
  exact hne hglue

theorem declares_foo : ∀ b ∈ [genesis, foo ruvText, afterFoo], b.Declares zonePlatform sha256 := by
  intro b hb t label zone data hserved hdata
  have htransaction := hserved.transaction
  simp only [List.mem_cons, List.not_mem_nil, or_false] at hb
  rcases hb with rfl | rfl | rfl
  · -- the origin block is no domain
    cases htransaction
    exact absurd hserved.domain (by decide)
  · left
    cases htransaction
    have hsame := parse_ruvText.symm.trans hdata
    rw [Except.ok.injEq, Option.some.injEq] at hsame
    rw [← hsame]
    exact ⟨⟨"ruv", true⟩, by decide +kernel, rfl, rfl⟩
  · cases htransaction

/-- The registration that declares `ruv`: the name has an address of the network. -/
theorem run_ruvchainOnly_foo : ∃ c packet,
    Run (Chain.Step zonePlatform) (fun _ a => ∀ b, a.added = some b → b.Declares zonePlatform sha256)
      (Chain.new genesis.hash Db.empty) c
    ∧ lookup zonePlatform sha256 (fun _ _ _ => none) now c "foo.ruv" .aaaa = .ok (some packet)
    ∧ packet.answers = [.aaaa "foo.ruv" fa001 60]
    ∧ ∀ r ∈ packet.records, ∀ addr, r.address? = some addr → isRuvchainAddr addr := by
  have hrun : ∃ c, Chain.appendAll zonePlatform now [genesis, foo ruvText, afterFoo]
      (Chain.new genesis.hash Db.empty) = .ok (some c)
      ∧ c.getDomainInfo zonePlatform sha256 now "foo.ruv" = .ok (some ruvText)
      ∧ ∃ packet, lookup zonePlatform sha256 (fun _ _ _ => none) now c "foo.ruv" .aaaa
        = .ok (some packet) ∧ packet.answers = [.aaaa "foo.ruv" fa001 60] := by
    decide +kernel
  obtain ⟨c, hc, hinfo, packet, hlookup, hanswers⟩ := hrun
  have run : Run (Chain.Step zonePlatform)
      (fun _ a => ∀ b, a.added = some b → b.Declares zonePlatform sha256)
      (Chain.new genesis.hash Db.empty) c := by
    refine Chain.appendAll_run (fun _ b hb x hx => ?_) hc
    cases hx
    exact declares_foo b hb
  have hown := not_delegated_foo hinfo parse_ruvText rfl
  exact ⟨c, packet, run, hlookup, hanswers, run_ruvchainOnly run ruvchainZone_foo hown hlookup⟩

/-- The registration that declares `dweb`: the same name has an address of another network. -/
theorem not_ruvchainOnly_foo : ∃ c packet,
    Run (Chain.Step zonePlatform) (fun _ a => ∃ b, a = .append now b)
      (Chain.new genesis.hash Db.empty) c
    ∧ RuvchainZone (lastLabel "foo.ruv")
    ∧ (∀ top, topDomain? "foo.ruv" = some top → ¬ Delegated zonePlatform sha256 now c top)
    ∧ lookup zonePlatform sha256 (fun _ _ _ => none) now c "foo.ruv" .a = .ok (some packet)
    ∧ ¬ ∀ r ∈ packet.records, ∀ addr, r.address? = some addr → isRuvchainAddr addr := by
  have hrun : ∃ c, Chain.appendAll zonePlatform now [genesis, foo dwebText, afterFoo]
      (Chain.new genesis.hash Db.empty) = .ok (some c)
      ∧ c.getDomainInfo zonePlatform sha256 now "foo.ruv" = .ok (some dwebText)
      ∧ ∃ packet, lookup zonePlatform sha256 (fun _ _ _ => none) now c "foo.ruv" .a
        = .ok (some packet) ∧ .a "foo.ruv" clearnet 60 ∈ packet.records := by
    decide +kernel
  obtain ⟨c, hc, hinfo, packet, hlookup, hmem⟩ := hrun
  refine ⟨c, packet, Chain.appendAll_run (fun _ b _ => ⟨b, rfl⟩) hc, ruvchainZone_foo,
    not_delegated_foo hinfo parse_dwebText rfl, hlookup, ?_⟩
  intro hall
  have hruvchain := hall _ hmem (.v4 clearnet) rfl
  cases hruvchain

end BlockchainFilter
