/-
# The limits of records

A domain may have `MAX_RECORDS` records with data of `MAX_DATA_LEN` bytes each, says the interface.
`check_block` counts the records of every domain, but looks at their data only inside the loop over
zones that restricts the zones of Ruvchain.  The data choose the zone, so that the second limit is
kept exactly in those zones.
-/
import Ruvname.MiningGate

open Exec

/-- At most `MAX_RECORDS` records, and none of them with more than `MAX_DATA_LEN` bytes of data. -/
structure DomainData.WithinLimits (data : DomainData) : Prop where
  count : data.records.length ≤ maxRecords
  length : ∀ record ∈ data.records, ∀ text ∈ record.getData, text.utf8ByteSize ≤ maxDataLen

namespace Node

/-- Every domain that a reachable node judges good keeps the limits, if its data name this zone. -/
def LimitsKeptIn (zone : String) : Prop :=
  ∀ (P : Platform) (n : Node) (now : UtcTime) (b : Block) (t : Transaction) (data : DomainData)
    (s : SignersCache), n.Reachable P → n.chain.checkNewBlock P now b = .ok (.good, s) →
    b.transaction = some t → t.getDomainData P = .ok (some data) → data.zone = zone →
    data.WithinLimits

end Node

namespace Chain

variable {P : Platform} {now : UtcTime} {c : Chain} {b : Block} {t : Transaction} {data : DomainData}
  {s : SignersCache}

/-- The records of a domain that is judged good have passed their check. -/
theorem checkRecords_of_good (h : c.checkNewBlock P now b = .ok (.good, s))
    (ht : b.transaction = some t) : c.checkRecords P t = .ok none := by
  have hpassed := ((checkBlock_accepting accepting_good).mp h).1.transaction
  rw [checkTransaction, ht] at hpassed
  exact firstVerdict_eq_none.mp hpassed _ (by simp)

/-- What that check asks for. -/
theorem checkRecords_eq_none_iff (hdata : t.getDomainData P = .ok (some data)) :
    c.checkRecords P t = .ok none ↔ data.records.length ≤ maxRecords ∧
      ∀ z ∈ c.zones, z.name = data.zone → z.ruvchain → ∀ record ∈ data.records,
        recordAllowed record := by
  unfold checkRecords
  rw [hdata, ok_bind, Except.ok.injEq, verdictIf_eq_none, not_or, not_lt]
  refine and_congr_right fun _ => ⟨fun h z hz hname hbound record hrecord => ?_, fun h => ?_⟩
  · by_contra hnot
    exact h ⟨z, hz, hname, hbound, record, hrecord, hnot⟩
  · rintro ⟨z, hz, hname, hbound, record, hrecord, hnot⟩
    exact hnot (h z hz hname hbound record hrecord)

/-- In a zone of Ruvchain both limits are checked. -/
theorem withinLimits_of_checkRecords (hzones : c.zones = loadZones)
    (hdata : t.getDomainData P = .ok (some data)) (hzone : RuvchainZone data.zone)
    (h : c.checkRecords P t = .ok none) : data.WithinLimits := by
  obtain ⟨hcount, hallowed⟩ := (checkRecords_eq_none_iff hdata).mp h
  obtain ⟨z, hz, hname, hbound⟩ := hzone
  refine ⟨hcount, fun record hrecord => ?_⟩
  exact (of_decide_eq_true (hallowed z (hzones ▸ hz) hname hbound record hrecord)).2

end Chain

/-! ## A long text in any other zone -/

namespace Sample

/-- A text of 256 bytes. -/
def long : String := String.ofList (List.replicate 256 'a')

/-- Data that name the zone, with this text as their only record. -/
def longData (zone : String) : DomainData := ⟨Bytes.default, zone, "", [.txt "@" long 60], []⟩

def longText (zone : String) : String :=
  "\x7b\"encrypted\":\"\",\"zone\":\"" ++ zone
    ++ "\",\"records\":[\x7b\"type\":\"TXT\",\"domain\":\"@\",\"data\":\"" ++ long
    ++ "\",\"ttl\":60\x7d]\x7d"

/-- The platform of the concrete runs, which reads this text. -/
def longPlatform (zone : String) : Platform :=
  { platform true with
    readDomainJson := fun s =>
      if s = longText zone then some ("", some fun bytes => ⟨bytes, zone, "", [.txt "@" long 60], []⟩)
      else none }

theorem parse_longText (zone : String) :
    (longPlatform zone).parseDomainData (longText zone) = .ok (some (longData zone)) := by
  have hjson : (longPlatform zone).readDomainJson (longText zone)
      = some ("", some fun bytes => ⟨bytes, zone, "", [.txt "@" long 60], []⟩) := if_pos rfl
  unfold Platform.parseDomainData
  rw [hjson]
  rfl

def longTransaction (zone : String) : Transaction :=
  ⟨classDomain, ⟨[7]⟩, Bytes.default, Bytes.default, Bytes.default, longText zone⟩

/-- A domain with these data on top of the origin block. -/
def longBlock (zone : String) : Block :=
  block 2 10 3 genesis.hash (key 2) (some (longTransaction zone))

theorem getDomainData_longTransaction (zone : String) :
    (longTransaction zone).getDomainData (longPlatform zone) = .ok (some (longData zone)) :=
  parse_longText zone

theorem not_withinLimits_longData (zone : String) : ¬ (longData zone).WithinLimits := by
  intro h
  have hlength := h.length (.txt "@" long 60) List.mem_cons_self long rfl
  exact absurd hlength (by decide +kernel)

/-- If the zone is not one of Ruvchain, the block is judged good where a plain one is. -/
theorem good_longBlock {c : Chain} {s : SignersCache} {zone : String} (hzones : c.zones = loadZones)
    (hzone : ¬ RuvchainZone zone)
    (h : c.checkNewBlock (platform true) now registered2 = .ok (.good, s)) :
    c.checkNewBlock (longPlatform zone) now (longBlock zone) = .ok (.good, s) := by
  obtain ⟨hpassed, hposition⟩ := (Chain.checkBlock_accepting Chain.accepting_good).mp h
  have hparse : (longPlatform zone).parseDomainData (longTransaction zone).data
      = .ok (some (longData zone)) := parse_longText zone
  have hplain : (platform true).parseDomainData (domain ⟨[7]⟩).data
      = .ok (some ⟨Bytes.default, "ruv", "", [], []⟩) := by
    decide +kernel
  have hdeclared : c.checkDeclaredDifficulty (longPlatform zone) (longBlock zone) = .ok none := by
    have hsame : c.getDifficultyForTransaction (longPlatform zone) (longTransaction zone) 2 10
        = c.getDifficultyForTransaction (platform true) (domain ⟨[7]⟩) 2 10 := by
      rw [Chain.getDifficultyForTransaction_of_data rfl hparse,
        Chain.getDifficultyForTransaction_of_data rfl hplain]
      rfl
    refine Eq.trans ?_ hpassed.declaredDifficulty
    exact congrArg (fun x : Exec UInt32 => x >>= fun difficulty => Except.ok
      (verdictIf (28 < difficulty) BlockQuality.bad)) hsame
  have hrecords : c.checkRecords (longPlatform zone) (longTransaction zone) = .ok none := by
    refine (Chain.checkRecords_eq_none_iff (getDomainData_longTransaction zone)).mpr ⟨?_, ?_⟩
    · exact (by decide : 1 ≤ maxRecords)
    · intro z hz hname hbound
      exact absurd ⟨z, hzones ▸ hz, hname, hbound⟩ hzone
  have htransaction : c.checkTransaction (longPlatform zone) now (longBlock zone) = .ok none := by
    have hchecks := firstVerdict_eq_none.mp hpassed.transaction
    refine firstVerdict_eq_none.mpr fun x hx => ?_
    simp only [List.mem_cons, List.not_mem_nil, or_false] at hx
    rcases hx with rfl | rfl | rfl | rfl
    · exact hchecks _ List.mem_cons_self
    · exact hchecks _ (List.mem_cons_of_mem _ List.mem_cons_self)
    · exact hchecks _ (List.mem_cons_of_mem _ (List.mem_cons_of_mem _ List.mem_cons_self))
    · exact hrecords
  have hhash : Chain.checkHash (longPlatform zone) (longBlock zone) = .ok none := by
    have hsame : checkBlockHash (longPlatform zone) (longBlock zone) = true := decide_eq_true rfl
    rw [Chain.checkHash, hsame]
    rfl
  have hsignature : Chain.checkSignature (longPlatform zone) (longBlock zone) = .ok none := by
    have hsigned : checkBlockSignature (longPlatform zone) (longBlock zone) = .ok true := rfl
    rw [Chain.checkSignature, hsigned]
    rfl
  have hplace : c.checkPosition (longPlatform zone) (longBlock zone) c.lastBlock c.lastFullBlock
      = .ok (.good, s) := by
    cases hlast : c.lastBlock with
    | none =>
      rw [hlast] at hposition
      cases hposition
    | some last =>
      rw [hlast, Chain.checkPosition_some Chain.accepting_good] at hposition
      obtain ⟨holder, hnext, hsigned, hcompare⟩ := hposition
      -- a block of index 2 is below the signed part
      have hearly : c.signStage (longPlatform zone) (longBlock zone) c.lastFullBlock
          = .ok (true, c.signers) := if_neg (by decide : ¬ (2 : UInt64) > blockSignersStart)
      have hearly' : c.signStage (platform true) registered2 c.lastFullBlock
          = .ok (true, c.signers) := if_neg (by decide)
      rw [hearly', Except.ok.injEq, Prod.mk.injEq] at hsigned
      refine (Chain.checkPosition_some Chain.accepting_good).mpr ⟨holder, hnext, ?_, ?_⟩
      · rw [hearly, hsigned.2]
      · rw [Chain.compareWithTip_eq_good] at hcompare ⊢
        exact hcompare
  refine (Chain.checkBlock_accepting Chain.accepting_good).mpr ⟨?_, hplace⟩
  exact ⟨hpassed.version, hpassed.wrongHash, hpassed.clock, hpassed.ahead, hdeclared,
    hpassed.hashDifficulty, hhash, hsignature, hpassed.parent, htransaction⟩

end Sample

namespace Node

open Sample

/-- In a zone that is not one of Ruvchain, a reachable node judges a longer record good. -/
theorem good_long {zone : String} (hzone : ¬ RuvchainZone zone) : ∃ n : Node, ∃ s,
    n.Reachable (longPlatform zone)
      ∧ n.chain.checkNewBlock (longPlatform zone) now (longBlock zone) = .ok (.good, s) := by
  have hrun : ∃ n, receive (platform true) now [genesis] (fresh genesis.hash) = .ok n
      ∧ ∃ r, n.chain.checkNewBlock (platform true) now registered2 = .ok r ∧ r.1 = .good := by
    decide +kernel
  obtain ⟨n, hn, ⟨q, s⟩, hgood, rfl⟩ := hrun
  -- the origin block is no domain, so that the parser does not matter
  have hsame : receive (longPlatform zone) now [genesis] (fresh genesis.hash)
      = receive (platform true) now [genesis] (fresh genesis.hash) := rfl
  have hreach : n.Reachable (longPlatform zone) :=
    ⟨genesis.hash, receive_run (fun _ _ _ => trivial) (hsame.trans hn)⟩
  exact ⟨n, s, hreach, good_longBlock hreach.zones hzone hgood⟩

/-- **The limits of records are kept in exactly the zones of Ruvchain.** -/
theorem limitsKeptIn_iff (zone : String) : LimitsKeptIn zone ↔ RuvchainZone zone := by
  constructor
  · intro hkept
    by_contra hzone
    obtain ⟨n, s, hreach, hgood⟩ := good_long hzone
    exact not_withinLimits_longData zone
      (hkept _ n now _ _ _ s hreach hgood rfl (getDomainData_longTransaction zone) rfl)
  · intro hzone P n now b t data s hreach hgood ht hdata hname
    exact Chain.withinLimits_of_checkRecords hreach.zones hdata (hname ▸ hzone)
      (Chain.checkRecords_of_good hgood ht)

/-- The zone `dweb` is known, and not one of Ruvchain. -/
theorem not_withinLimits_dweb : ∃ n : Node, ∃ b t data s,
    n.Reachable (longPlatform "dweb")
      ∧ n.chain.checkNewBlock (longPlatform "dweb") now b = .ok (.good, s)
      ∧ b.transaction = some t ∧ t.getDomainData (longPlatform "dweb") = .ok (some data)
      ∧ (∃ z ∈ loadZones, z.name = data.zone) ∧ ¬ data.WithinLimits := by
  have hzone : ¬ RuvchainZone "dweb" := by
    unfold RuvchainZone
    decide +kernel
  have hknown : ∃ z ∈ loadZones, z.name = "dweb" := by
    decide +kernel
  obtain ⟨n, s, hreach, hgood⟩ := good_long hzone
  exact ⟨n, _, _, _, s, hreach, hgood, rfl, getDomainData_longTransaction _, hknown,
    not_withinLimits_longData _⟩

end Node
