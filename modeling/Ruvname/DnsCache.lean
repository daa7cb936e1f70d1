/-
# The DNS cache

`dns/cache.rs`: for each domain and query type either the records that were stored, each with the
time of its last storage, or the time and ttl of a negative answer.  Storing a record again only
moves its time; a negative answer replaces the records, and a record replaces a negative answer.

A cache refines its history (`Contents`): for each record the time when it was last stored since
the last negative answer of its domain and type, and for each domain and type the last negative
answer.  The counters of hits and updates are statistics and are left out.
-/
import Ruvname.Packet

/-! ## The code -/

/-- `RecordEntry`; times are nanoseconds.  Entries are equal when their records are. -/
structure RecordEntry where
  record : DnsRecord
  timestamp : ℤ
  deriving DecidableEq, Repr

/-- `Duration::seconds`. -/
def seconds (ttl : UInt32) : ℤ := ttl.toNat * 1000000000

/-- `HashSet<RecordEntry>`: no two entries with one record, in any order. -/
structure EntrySet where
  entries : List RecordEntry
  distinct : (entries.map RecordEntry.record).Nodup

namespace EntrySet

/-- `HashSet::new`. -/
def new : EntrySet := ⟨[], List.nodup_nil⟩

/-- `contains`. -/
def contains (set : EntrySet) (entry : RecordEntry) : Bool :=
  set.entries.any fun e => e.record = entry.record

/-- `remove`. -/
def remove (set : EntrySet) (entry : RecordEntry) : EntrySet where
  entries := set.entries.filter fun e => e.record ≠ entry.record
  distinct := set.distinct.sublist (List.filter_sublist.map _)

theorem contains_eq_false {set : EntrySet} {entry : RecordEntry} (h : set.contains entry = false) :
    entry.record ∉ set.entries.map RecordEntry.record := by
  intro hmem
  obtain ⟨e, he, hrecord⟩ := List.mem_map.mp hmem
  simp only [contains, List.any_eq_false, decide_eq_true_eq] at h
  exact h e he hrecord

/-- `insert`: an equal entry that is there already stays. -/
def insert (set : EntrySet) (entry : RecordEntry) : EntrySet :=
  if h : set.contains entry = false then
    ⟨entry :: set.entries, List.nodup_cons.mpr ⟨contains_eq_false h, set.distinct⟩⟩
  else set

theorem mem_insert {set : EntrySet} {entry e : RecordEntry} (h : set.contains entry = false) :
    e ∈ (set.insert entry).entries ↔ e = entry ∨ e ∈ set.entries := by
  rw [insert, dif_pos h]
  exact List.mem_cons

/-- Removing an equal entry before inserting one replaces it. -/
theorem mem_replace {set : EntrySet} {entry e : RecordEntry} :
    e ∈ ((if set.contains entry then set.remove entry else set).insert entry).entries
      ↔ e = entry ∨ (e ∈ set.entries ∧ e.record ≠ entry.record) := by
  by_cases hcontains : set.contains entry = true
  · have hremoved : (set.remove entry).contains entry = false := by
      simp [contains, remove]
    rw [if_pos hcontains, mem_insert hremoved, remove, List.mem_filter, decide_eq_true_eq]
  · have hfresh : set.contains entry = false := by simpa using hcontains
    rw [if_neg hcontains, mem_insert hfresh]
    have hother : ∀ x ∈ set.entries, x.record ≠ entry.record := by
      intro x hx heq
      exact contains_eq_false hfresh (heq ▸ List.mem_map_of_mem hx)
    constructor
    · rintro (h | h)
      · exact Or.inl h
      · exact Or.inr ⟨h, hother e h⟩
    · rintro (h | h)
      · exact Or.inl h
      · exact Or.inr h.1

end EntrySet

/-- `RecordSet`. -/
inductive RecordSet where
  | noRecords (qtype : QueryType) (ttl : UInt32) (timestamp : ℤ)
  | records (qtype : QueryType) (records : EntrySet)

/-- `CacheState`. -/
inductive CacheState where
  | positiveCache
  | negativeCache
  | notCached
  deriving DecidableEq, Repr

/-- `DomainEntry`. -/
structure DomainEntry where
  domain : String
  recordTypes : QueryType → Option RecordSet

namespace DomainEntry

/-- `DomainEntry::new`. -/
def new (domain : String) : DomainEntry := ⟨domain, fun _ => none⟩

/-- `store_nxdomain`. -/
def storeNxdomain (now : ℤ) (d : DomainEntry) (qtype : QueryType) (ttl : UInt32) : DomainEntry :=
  { d with recordTypes := Function.update d.recordTypes qtype (some (.noRecords qtype ttl now)) }

/-- `store_record`. -/
def storeRecord (now : ℤ) (d : DomainEntry) (rec : DnsRecord) : DomainEntry :=
  let entry : RecordEntry := ⟨rec, now⟩
  let qtype := rec.getQuerytype
  match d.recordTypes qtype with
  | some (.records qtype' records) =>
    let records := if records.contains entry then records.remove entry else records
    { d with recordTypes :=
        Function.update d.recordTypes qtype (some (.records qtype' (records.insert entry))) }
  | _ =>
    { d with recordTypes :=
        Function.update d.recordTypes qtype (some (.records qtype (EntrySet.new.insert entry))) }

/-- `expires < now`, of an entry. -/
def expired (now : ℤ) (e : RecordEntry) : Bool := e.timestamp + seconds e.record.getTtl < now

/-- `get_cache_state`. -/
def getCacheState (now : ℤ) (d : DomainEntry) (qtype : QueryType) : CacheState :=
  match d.recordTypes qtype with
  | some (.records _ records) =>
    let validCount := records.entries.countP fun e => ¬ expired now e ∧ e.record.getQuerytype = qtype
    if validCount > 0 then .positiveCache else .notCached
  | some (.noRecords _ ttl timestamp) =>
    if timestamp + seconds ttl < now then .notCached else .negativeCache
  | none => .notCached

/-- `fill_queryresult`: what is appended to the result. -/
def fillQueryresult (now : ℤ) (d : DomainEntry) (qtype : QueryType) : List DnsRecord :=
  match d.recordTypes qtype with
  | some (.records _ records) =>
    (records.entries.filter fun e => ¬ expired now e ∧ e.record.getQuerytype = qtype).map
      RecordEntry.record
  | _ => []

end DomainEntry

/-- `Cache`.  No snapshot of it is in use, so that every entry can be changed in place. -/
structure Cache where
  domainEntries : String → Option DomainEntry

namespace Cache

/-- `Cache::new`. -/
def new : Cache := ⟨fun _ => none⟩

/-- `get_cache_state`. -/
def getCacheState (now : ℤ) (c : Cache) (qname : String) (qtype : QueryType) : CacheState :=
  match c.domainEntries qname with
  | some d => d.getCacheState now qtype
  | none => .notCached

/-- `fill_queryresult`. -/
def fillQueryresult (now : ℤ) (c : Cache) (qname : String) (qtype : QueryType) : List DnsRecord :=
  match c.domainEntries qname with
  | some d => d.fillQueryresult now qtype
  | none => []

/-- `lookup`, at one reading of the clock. -/
def lookup (now : ℤ) (c : Cache) (qname : String) (qtype : QueryType) : Option DnsPacket :=
  match c.getCacheState now qname qtype with
  | .positiveCache =>
    some {
      answers := c.fillQueryresult now qname qtype
      authorities := c.fillQueryresult now qname .ns }
  | .negativeCache => some { header := { rescode := .nxdomain } }
  | .notCached => none

/-- The body of the loop of `store`. -/
def storeRecord (now : ℤ) (c : Cache) (rec : DnsRecord) : Cache :=
  match rec.getDomain with
  | none => c
  | some domain =>
    let d := (c.domainEntries domain).getD (DomainEntry.new domain)
    { c with domainEntries := Function.update c.domainEntries domain (some (d.storeRecord now rec)) }

/-- `store`. -/
def store (now : ℤ) (c : Cache) (records : List DnsRecord) : Cache :=
  records.foldl (storeRecord now) c

/-- `store_nxdomain`. -/
def storeNxdomain (now : ℤ) (c : Cache) (qname : String) (qtype : QueryType) (ttl : UInt32) : Cache :=
  let d := (c.domainEntries qname).getD (DomainEntry.new qname)
  { c with domainEntries :=
      Function.update c.domainEntries qname (some (d.storeNxdomain now qtype ttl)) }

end Cache

/-! ## Histories -/

/-- A call of the cache.  A lookup leaves no trace but its statistics. -/
inductive CacheCall where
  | store (records : List DnsRecord)
  | storeNxdomain (qname : String) (qtype : QueryType) (ttl : UInt32)
  | lookup (qname : String) (qtype : QueryType)

/-- A record belongs to a domain and a type. -/
def DnsRecord.Of (r : DnsRecord) (q : String) (t : QueryType) : Prop :=
  r.getDomain = some q ∧ r.getQuerytype = t

/-- A call is about a domain and a type. -/
def CacheCall.Touches (q : String) (t : QueryType) : CacheCall → Prop
  | store records => ∃ r ∈ records, r.Of q t
  | storeNxdomain q' t' _ => q' = q ∧ t' = t
  | lookup _ _ => False

namespace Cache

/-- The effect of a call. -/
def call (c : Cache) : ℤ × CacheCall → Cache
  | (now, .store records) => c.store now records
  | (now, .storeNxdomain qname qtype ttl) => c.storeNxdomain now qname qtype ttl
  | (_, .lookup _ _) => c

/-- The cache after some calls. -/
def after (calls : List (ℤ × CacheCall)) : Cache := calls.foldl call new

/-- **The record has been stored at time `s`, and neither stored again nor denied since.**  A
record is denied by a negative answer for its domain and type. -/
def LastStored (calls : List (ℤ × CacheCall)) (r : DnsRecord) (s : ℤ) : Prop :=
  ∃ before after records, calls = before ++ (s, .store records) :: after ∧ r ∈ records
    ∧ ∀ call ∈ after, (∀ records', call.2 = .store records' → r ∉ records')
      ∧ ∀ q t ttl, call.2 = .storeNxdomain q t ttl → ¬ r.Of q t

/-- The last negative answer for a domain and a type. -/
def LastDenied (calls : List (ℤ × CacheCall)) (q : String) (t : QueryType) (s : ℤ) (ttl : UInt32) :
    Prop :=
  ∃ before after, calls = before ++ (s, .storeNxdomain q t ttl) :: after
    ∧ ∀ call ∈ after, ∀ ttl', call.2 ≠ .storeNxdomain q t ttl'

/-- The records of a domain and a type that were stored since they were last denied. -/
def Stored (calls : List (ℤ × CacheCall)) (q : String) (t : QueryType) (r : DnsRecord) : Prop :=
  r.Of q t ∧ ∃ s, LastStored calls r s

/-- Those of them that are not expired. -/
def Live (calls : List (ℤ × CacheCall)) (now : ℤ) (q : String) (t : QueryType) (r : DnsRecord) : Prop :=
  r.Of q t ∧ ∃ s, LastStored calls r s ∧ now ≤ s + seconds r.getTtl

/-- A list has exactly the records with a property, once each. -/
def Exactly (l : List DnsRecord) (p : DnsRecord → Prop) : Prop := l.Nodup ∧ ∀ r, r ∈ l ↔ p r

/-- **What a lookup has to answer**, after some calls. -/
structure Answers (calls : List (ℤ × CacheCall)) (now : ℤ) (q : String) (t : QueryType)
    (answer : Option DnsPacket) : Prop where
  live : (∃ r, Live calls now q t r) → ∃ answers authorities,
    answer = some { answers := answers, authorities := authorities }
      ∧ Exactly answers (Live calls now q t) ∧ Exactly authorities (Live calls now q .ns)
  expired : (∃ r, Stored calls q t r) → (¬ ∃ r, Live calls now q t r) → answer = none
  denied : (¬ ∃ r, Stored calls q t r) → ∀ s ttl, LastDenied calls q t s ttl → now ≤ s + seconds ttl →
    answer = some { header := { rescode := .nxdomain } }
  unknown : (¬ ∃ r, Stored calls q t r) →
    (¬ ∃ s ttl, LastDenied calls q t s ttl ∧ now ≤ s + seconds ttl) → answer = none

/-! ## Contents -/

/-- The abstract cache: the time of the last storage of each record, and the last negative answer
for each domain and type. -/
structure Contents where
  stored : DnsRecord → Option ℤ
  denied : String → QueryType → Option (ℤ × UInt32)

namespace Contents

def new : Contents := ⟨fun _ => none, fun _ _ => none⟩

def storeRecord (now : ℤ) (a : Contents) (rec : DnsRecord) : Contents :=
  { a with stored := Function.update a.stored rec (some now) }

open Classical in
/-- A negative answer denies the records of its domain and type. -/
noncomputable def storeNxdomain (now : ℤ) (a : Contents) (q : String) (t : QueryType) (ttl : UInt32) :
    Contents where
  stored r := if r.Of q t then none else a.stored r
  denied := Function.update a.denied q (Function.update (a.denied q) t (some (now, ttl)))

noncomputable def call (a : Contents) : ℤ × CacheCall → Contents
  | (now, .store records) => records.foldl (storeRecord now) a
  | (now, .storeNxdomain q t ttl) => a.storeNxdomain now q t ttl
  | (_, .lookup _ _) => a

noncomputable def after (calls : List (ℤ × CacheCall)) : Contents := calls.foldl call new

variable {now : ℤ} {a : Contents} {calls : List (ℤ × CacheCall)} {r : DnsRecord} {s : ℤ}

theorem stored_foldl (records : List DnsRecord) :
    (records.foldl (storeRecord now) a).stored r = if r ∈ records then some now else a.stored r := by
  induction records generalizing a with
  | nil => simp
  | cons rec rest ih =>
    rw [List.foldl_cons, ih]
    by_cases hrest : r ∈ rest
    · rw [if_pos hrest, if_pos (List.mem_cons_of_mem _ hrest)]
    · rw [if_neg hrest]
      by_cases hrec : r = rec
      · rw [hrec, if_pos List.mem_cons_self]
        exact Function.update_self _ _ _
      · rw [if_neg (by simp [hrec, hrest])]
        exact Function.update_of_ne hrec _ _

theorem denied_foldl (records : List DnsRecord) :
    (records.foldl (storeRecord now) a).denied = a.denied := by
  induction records generalizing a with
  | nil => rfl
  | cons rec rest ih => rw [List.foldl_cons, ih]; rfl

/-- The last element of a list is the one that is split off, or one behind it. -/
theorem append_singleton_eq_append_cons {α : Type} {l before rest : List α} {x y : α} :
    l ++ [y] = before ++ x :: rest
      ↔ (rest = [] ∧ before = l ∧ x = y) ∨ ∃ rest', rest = rest' ++ [y] ∧ l = before ++ x :: rest' := by
  constructor
  · intro h
    rcases List.eq_nil_or_concat rest with rfl | ⟨rest', z, rfl⟩
    · obtain ⟨hl, hy⟩ := List.append_inj' h rfl
      cases hy
      exact Or.inl ⟨rfl, hl.symm, rfl⟩
    · have h' : l ++ [y] = (before ++ x :: rest') ++ [z] := by simpa using h
      obtain ⟨hl, hy⟩ := List.append_inj' h' rfl
      cases hy
      exact Or.inr ⟨rest', by simp, hl⟩
  · rintro (⟨rfl, rfl, rfl⟩ | ⟨rest', rfl, rfl⟩)
    · rfl
    · simp

/-- One call more, seen from the last storage of a record. -/
theorem lastStored_append {call : ℤ × CacheCall} : LastStored (calls ++ [call]) r s
    ↔ (∃ records, call = (s, .store records) ∧ r ∈ records)
      ∨ (LastStored calls r s ∧ (∀ records, call.2 = .store records → r ∉ records)
        ∧ ∀ q t ttl, call.2 = .storeNxdomain q t ttl → ¬ r.Of q t) := by
  constructor
  · rintro ⟨before, rest, records, hsplit, hmem, hlater⟩
    rcases append_singleton_eq_append_cons.mp hsplit with ⟨-, -, rfl⟩ | ⟨rest', rfl, rfl⟩
    · exact Or.inl ⟨records, rfl, hmem⟩
    · refine Or.inr ⟨⟨before, rest', records, rfl, hmem, ?_⟩, ?_⟩
      · exact fun c hc => hlater c (List.mem_append_left _ hc)
      · exact hlater call (List.mem_append_right _ (List.mem_singleton_self _))
  · rintro (⟨records, rfl, hmem⟩ | ⟨⟨before, rest, records, rfl, hmem, hlater⟩, hlast⟩)
    · exact ⟨calls, [], records, rfl, hmem, fun c hc => by cases hc⟩
    · refine ⟨before, rest ++ [call], records, by simp, hmem, ?_⟩
      intro c hc
      rcases List.mem_append.mp hc with hc | hc
      · exact hlater c hc
      · rw [List.mem_singleton.mp hc]
        exact hlast

/-- One call more, seen from the last negative answer. -/
theorem lastDenied_append {call : ℤ × CacheCall} {q : String} {t : QueryType} {ttl : UInt32} :
    LastDenied (calls ++ [call]) q t s ttl ↔ call = (s, .storeNxdomain q t ttl)
      ∨ (LastDenied calls q t s ttl ∧ ∀ ttl', call.2 ≠ .storeNxdomain q t ttl') := by
  constructor
  · rintro ⟨before, rest, hsplit, hlater⟩
    rcases append_singleton_eq_append_cons.mp hsplit with ⟨-, -, rfl⟩ | ⟨rest', rfl, rfl⟩
    · exact Or.inl rfl
    · refine Or.inr ⟨⟨before, rest', rfl, ?_⟩, ?_⟩
      · exact fun c hc => hlater c (List.mem_append_left _ hc)
      · exact hlater call (List.mem_append_right _ (List.mem_singleton_self _))
  · rintro (rfl | ⟨⟨before, rest, rfl, hlater⟩, hlast⟩)
    · exact ⟨calls, [], rfl, fun c hc => by cases hc⟩
    · refine ⟨before, rest ++ [call], by simp, ?_⟩
      intro c hc
      rcases List.mem_append.mp hc with hc | hc
      · exact hlater c hc
      · rw [List.mem_singleton.mp hc]
        exact hlast

theorem after_append {call : ℤ × CacheCall} : after (calls ++ [call]) = (after calls).call call := by
  rw [after, List.foldl_append]
  rfl

/-- **The contents tell the last storage of every record.** -/
theorem stored_after : (after calls).stored r = some s ↔ LastStored calls r s := by
  induction calls using List.reverseRecOn with
  | nil =>
    constructor
    · intro h
      cases h
    · rintro ⟨before, rest, records, hsplit, -⟩
      simp at hsplit
  | append_singleton calls last ih =>
    rw [after_append, lastStored_append, ← ih]
    obtain ⟨now, act⟩ := last
    cases act with
    | store records =>
      simp only [call, stored_foldl, Prod.mk.injEq, CacheCall.store.injEq, reduceCtorEq]
      by_cases hmem : r ∈ records <;> grind
    | storeNxdomain q t ttl =>
      simp only [call, storeNxdomain, Prod.mk.injEq, CacheCall.storeNxdomain.injEq, reduceCtorEq,
        and_false, false_and, exists_false, false_or, false_implies, implies_true, true_and]
      by_cases hof : r.Of q t
      · rw [if_pos hof]
        constructor
        · intro h
          cases h
        · rintro ⟨-, hnot⟩
          exact absurd hof (hnot q t ttl ⟨rfl, rfl, rfl⟩)
      · rw [if_neg hof, iff_self_and]
        rintro - q' t' ttl' ⟨rfl, rfl, -⟩
        exact hof
    | lookup q t => simp [call]

/-- **And the last negative answers.** -/
theorem denied_after {q : String} {t : QueryType} {ttl : UInt32} :
    (after calls).denied q t = some (s, ttl) ↔ LastDenied calls q t s ttl := by
  induction calls using List.reverseRecOn with
  | nil =>
    constructor
    · intro h
      cases h
    · rintro ⟨before, rest, hsplit, -⟩
      simp at hsplit
  | append_singleton calls last ih =>
    rw [after_append, lastDenied_append, ← ih]
    obtain ⟨now, act⟩ := last
    cases act with
    | store records => simp [call, denied_foldl]
    | lookup q t => simp [call]
    | storeNxdomain q' t' ttl' =>
      simp only [call, storeNxdomain, Prod.mk.injEq, CacheCall.storeNxdomain.injEq]
      by_cases hq : q = q'
      · subst hq
        rw [Function.update_self]
        by_cases ht : t = t'
        · subst ht
          rw [Function.update_self]
          simp
        · rw [Function.update_of_ne ht]
          simp [Ne.symm ht]
      · rw [Function.update_of_ne hq]
        simp [Ne.symm hq]

end Contents

/-! ## Refinement -/

/-- What the tables say about a domain and a type. -/
def cell (c : Cache) (q : String) (t : QueryType) : Option RecordSet :=
  (c.domainEntries q).bind fun d => d.recordTypes t

/-- A cell of the tables and the contents agree. -/
def Matches (a : Contents) (q : String) (t : QueryType) : Option RecordSet → Prop
  | none => a.denied q t = none ∧ ∀ r, r.Of q t → a.stored r = none
  | some (.noRecords _ ttl s) => a.denied q t = some (s, ttl) ∧ ∀ r, r.Of q t → a.stored r = none
  | some (.records _ set) => set.entries ≠ []
    ∧ ∀ e, e ∈ set.entries ↔ e.record.Of q t ∧ a.stored e.record = some e.timestamp

/-- The tables hold the contents. -/
def Represents (c : Cache) (a : Contents) : Prop := ∀ q t, Matches a q t (c.cell q t)

theorem represents_new : Represents new Contents.new := fun _ _ => ⟨rfl, fun _ _ => rfl⟩

variable {c : Cache} {a : Contents} {now : ℤ}

theorem cell_update {q q' : String} {t : QueryType} {d : DomainEntry} :
    ({ c with domainEntries := Function.update c.domainEntries q' (some d) } : Cache).cell q t
      = if q = q' then d.recordTypes t else c.cell q t := by
  unfold cell
  dsimp only
  by_cases hq : q = q'
  · rw [if_pos hq, hq, Function.update_self]
    rfl
  · rw [if_neg hq, Function.update_of_ne hq]

/-- The cells of the entry that is changed. -/
theorem cell_getD {q : String} {t : QueryType} :
    ((c.domainEntries q).getD (DomainEntry.new q)).recordTypes t = c.cell q t := by
  unfold cell
  cases c.domainEntries q <;> rfl

/-- A cell only depends on its own domain and type. -/
theorem Matches.congr {a' : Contents} {q : String} {t : QueryType} {cell : Option RecordSet}
    (hdenied : a'.denied q t = a.denied q t) (hstored : ∀ r, r.Of q t → a'.stored r = a.stored r)
    (h : Matches a q t cell) : Matches a' q t cell := by
  have hnone : (∀ r, r.Of q t → a.stored r = none) → ∀ r, r.Of q t → a'.stored r = none :=
    fun hall r hr => (hstored r hr).trans (hall r hr)
  cases cell with
  | none => exact ⟨hdenied.trans h.1, hnone h.2⟩
  | some set =>
    cases set with
    | noRecords _ ttl s => exact ⟨hdenied.trans h.1, hnone h.2⟩
    | records _ set =>
      refine ⟨h.1, fun e => (h.2 e).trans ?_⟩
      apply and_congr_right
      intro hof
      rw [hstored e.record hof]

/-- What is stored after a record: that record, and what was stored of the others. -/
theorem stored_storeRecord (rec : DnsRecord) (e : RecordEntry) :
    (a.storeRecord now rec).stored e.record = some e.timestamp
      ↔ e = ⟨rec, now⟩ ∨ (a.stored e.record = some e.timestamp ∧ e.record ≠ rec) := by
  obtain ⟨r, s⟩ := e
  show Function.update a.stored rec (some now) r = some s ↔ _
  by_cases hr : r = rec
  · rw [hr, Function.update_self]
    simp [eq_comm]
  · rw [Function.update_of_ne hr]
    simp [hr]

/-- A cell whose records were those of `set` gets the new one for an old copy of it. -/
theorem cell_storeRecord {rec : DnsRecord} {q : String} (hdomain : rec.Of q rec.getQuerytype)
    {set : EntrySet} (hset : ∀ e, e ∈ set.entries
      ↔ e.record.Of q rec.getQuerytype ∧ a.stored e.record = some e.timestamp) (e : RecordEntry) :
    (e = ⟨rec, now⟩ ∨ (e ∈ set.entries ∧ e.record ≠ rec))
      ↔ e.record.Of q rec.getQuerytype
        ∧ (a.storeRecord now rec).stored e.record = some e.timestamp := by
  rw [stored_storeRecord, hset]
  constructor
  · rintro (rfl | ⟨⟨hof, hs⟩, hne⟩)
    · exact ⟨hdomain, Or.inl rfl⟩
    · exact ⟨hof, Or.inr ⟨hs, hne⟩⟩
  · rintro ⟨hof, hs | ⟨hs, hne⟩⟩
    · exact Or.inl hs
    · exact Or.inr ⟨⟨hof, hs⟩, hne⟩

/-- The cell of the first record of its name and type. -/
theorem matches_firstRecord {rec : DnsRecord} {q : String} (hdomain : rec.Of q rec.getQuerytype)
    (hnone : ∀ r : DnsRecord, r.Of q rec.getQuerytype → a.stored r = none) :
    Matches (a.storeRecord now rec) q rec.getQuerytype
      (some (.records rec.getQuerytype (EntrySet.new.insert ⟨rec, now⟩))) := by
  have hempty : ∀ e, e ∈ EntrySet.new.entries
      ↔ e.record.Of q rec.getQuerytype ∧ a.stored e.record = some e.timestamp := by
    intro e
    constructor
    · intro he
      cases he
    · rintro ⟨hof, hs⟩
      rw [hnone e.record hof] at hs
      cases hs
  refine ⟨by simp [EntrySet.insert, EntrySet.contains, EntrySet.new], fun e => ?_⟩
  rw [← cell_storeRecord hdomain hempty e, EntrySet.mem_insert rfl]
  simp [EntrySet.new]

/-- The cell of a record after it has been stored. -/
theorem matches_storeRecord {d : DomainEntry} {rec : DnsRecord} {q : String} {t : QueryType}
    (hrec : rec.Of q t) (h : Matches a q t (d.recordTypes t)) :
    Matches (a.storeRecord now rec) q t ((d.storeRecord now rec).recordTypes t) := by
  obtain ⟨hdomain, rfl⟩ := hrec
  have hof : rec.Of q rec.getQuerytype := ⟨hdomain, rfl⟩
  unfold DomainEntry.storeRecord
  dsimp only
  cases hold : d.recordTypes rec.getQuerytype with
  | none =>
    rw [hold] at h
    dsimp only
    rw [Function.update_self]
    exact matches_firstRecord hof h.2
  | some old =>
    rw [hold] at h
    cases old with
    | noRecords _ ttl s =>
      dsimp only
      rw [Function.update_self]
      exact matches_firstRecord hof h.2
    | records _ set =>
      dsimp only
      rw [Function.update_self]
      refine ⟨?_, fun e => ?_⟩
      · exact List.ne_nil_of_mem (EntrySet.mem_replace.mpr (Or.inl rfl))
      · rw [EntrySet.mem_replace]
        exact cell_storeRecord hof h.2 e

/-- **Storing a record** changes one cell. -/
theorem Represents.storeRecord (h : Represents c a) (rec : DnsRecord) :
    Represents (c.storeRecord now rec) (a.storeRecord now rec) := by
  have hother : ∀ q t, ¬ rec.Of q t → Matches (a.storeRecord now rec) q t (c.cell q t) := by
    intro q t hrec
    refine Matches.congr (a := a) rfl (fun r hr => ?_) (h q t)
    have hne : r ≠ rec := by
      rintro rfl
      exact hrec hr
    exact Function.update_of_ne hne _ _
  intro q t
  unfold Cache.storeRecord
  cases hdomain : rec.getDomain with
  | none =>
    refine hother q t ?_
    rintro ⟨hsome, -⟩
    rw [hdomain] at hsome
    cases hsome
  | some domain =>
    dsimp only
    rw [cell_update]
    by_cases hq : q = domain
    · subst hq
      rw [if_pos rfl]
      have hcell := h q t
      rw [← cell_getD] at hcell
      by_cases ht : t = rec.getQuerytype
      · exact matches_storeRecord ⟨hdomain, ht.symm⟩ hcell
      · have hkept : (((c.domainEntries q).getD (DomainEntry.new q)).storeRecord now rec).recordTypes t
            = c.cell q t := by
          rw [← cell_getD]
          unfold DomainEntry.storeRecord
          dsimp only
          split
          · exact Function.update_of_ne ht _ _
          · exact Function.update_of_ne ht _ _
        rw [hkept]
        exact hother q t fun hrec => ht hrec.2.symm
    · rw [if_neg hq]
      refine hother q t fun hrec => hq ?_
      rw [← Option.some.injEq, ← hrec.1, hdomain]

/-- **A negative answer** changes one cell. -/
theorem Represents.storeNxdomain (h : Represents c a) (qname : String) (qtype : QueryType)
    (ttl : UInt32) :
    Represents (c.storeNxdomain now qname qtype ttl) (a.storeNxdomain now qname qtype ttl) := by
  have hother : ∀ q t, ¬ (q = qname ∧ t = qtype) →
      Matches (a.storeNxdomain now qname qtype ttl) q t (c.cell q t) := by
    intro q t hne
    refine (h q t).congr ?_ fun r hr => if_neg ?_
    · show Function.update a.denied qname _ q t = a.denied q t
      by_cases hq : q = qname
      · rw [hq, Function.update_self, Function.update_of_ne fun ht => hne ⟨hq, ht⟩]
      · rw [Function.update_of_ne hq]
    · rintro ⟨hdomain, htype⟩
      refine hne ⟨?_, hr.2.symm.trans htype⟩
      rw [← Option.some.injEq, ← hr.1, hdomain]
  intro q t
  unfold Cache.storeNxdomain
  rw [cell_update]
  by_cases hq : q = qname
  · subst hq
    rw [if_pos rfl]
    by_cases ht : t = qtype
    · subst ht
      rw [show (((c.domainEntries q).getD (DomainEntry.new q)).storeNxdomain now t ttl).recordTypes t
        = some (.noRecords t ttl now) from Function.update_self _ _ _]
      refine ⟨?_, fun r hr => if_pos hr⟩
      show Function.update a.denied q _ q t = _
      rw [Function.update_self, Function.update_self]
    · rw [show (((c.domainEntries q).getD (DomainEntry.new q)).storeNxdomain now qtype ttl).recordTypes t
        = c.cell q t from (Function.update_of_ne ht _ _).trans cell_getD]
      exact hother q t fun h => ht h.2
  · rw [if_neg hq]
    exact hother q t fun h => hq h.1

/-- **The cache after any calls holds the contents after them.** -/
theorem represents_after (calls : List (ℤ × CacheCall)) : Represents (after calls) (Contents.after calls) := by
  have hfold : ∀ (records : List DnsRecord) (now : ℤ) (c : Cache) (a : Contents), Represents c a →
      Represents (c.store now records) (records.foldl (Contents.storeRecord now) a) := by
    intro records now
    induction records with
    | nil => exact fun c a h => h
    | cons rec rest ih => exact fun c a h => ih _ _ (h.storeRecord rec)
  induction calls using List.reverseRecOn with
  | nil => exact represents_new
  | append_singleton calls last ih =>
    rw [Contents.after_append, after, List.foldl_append]
    obtain ⟨now, act⟩ := last
    cases act with
    | store records => exact hfold records now _ _ ih
    | storeNxdomain q t ttl => exact ih.storeNxdomain q t ttl
    | lookup q t => exact ih

/-! ## Answers -/

variable {calls : List (ℤ × CacheCall)} {q : String} {t : QueryType}

theorem not_expired {e : RecordEntry} :
    DomainEntry.expired now e = false ↔ now ≤ e.timestamp + seconds e.record.getTtl := by
  unfold DomainEntry.expired
  rw [decide_eq_false_iff_not, not_lt]

/-- The records that a lookup collects from a cell. -/
def collected (now : ℤ) (t : QueryType) (set : EntrySet) : List DnsRecord :=
  (set.entries.filter fun e => ¬ DomainEntry.expired now e ∧ e.record.getQuerytype = t).map
    RecordEntry.record

/-- They are the live records, once each. -/
theorem exactly_collected {qtype : QueryType} {set : EntrySet}
    (h : Matches (Contents.after calls) q t (some (.records qtype set))) :
    Exactly (collected now t set) (Live calls now q t) := by
  refine ⟨set.distinct.sublist (List.filter_sublist.map _), fun r => ?_⟩
  unfold collected
  simp only [List.mem_map, List.mem_filter, decide_eq_true_eq]
  constructor
  · rintro ⟨e, ⟨he, hlive, -⟩, rfl⟩
    obtain ⟨hof, hs⟩ := (h.2 e).mp he
    exact ⟨hof, e.timestamp, Contents.stored_after.mp hs, not_expired.mp (by simpa using hlive)⟩
  · rintro ⟨hof, s, hs, hlive⟩
    refine ⟨⟨r, s⟩, ⟨(h.2 ⟨r, s⟩).mpr ⟨hof, Contents.stored_after.mpr hs⟩, ?_, hof.2⟩, rfl⟩
    simpa using not_expired.mpr hlive

/-- What is appended to a result is the live records, whatever the cell is. -/
theorem exactly_fillQueryresult :
    Exactly ((after calls).fillQueryresult now q t) (Live calls now q t) := by
  have h := represents_after calls q t
  have hnone : (∀ r : DnsRecord, r.Of q t → (Contents.after calls).stored r = none) →
      Exactly [] (Live calls now q t) := by
    intro hnone
    refine ⟨List.nodup_nil, fun r => ⟨fun hr => absurd hr List.not_mem_nil, ?_⟩⟩
    rintro ⟨hof, s, hs, -⟩
    rw [← Contents.stored_after, hnone r hof] at hs
    cases hs
  unfold fillQueryresult
  unfold cell at h
  cases hentry : (after calls).domainEntries q with
  | none =>
    rw [hentry] at h
    exact hnone h.2
  | some d =>
    rw [hentry, Option.bind_some] at h
    dsimp only
    unfold DomainEntry.fillQueryresult
    cases hcell : d.recordTypes t with
    | none =>
      rw [hcell] at h
      exact hnone h.2
    | some set =>
      rw [hcell] at h
      cases set with
      | noRecords _ ttl s => exact hnone h.2
      | records _ set => exact exactly_collected h

/-- Where nothing was stored since the last negative answer, that answer decides. -/
theorem answers_of_noRecords {answer : Option DnsPacket}
    (hstored : ∀ r : DnsRecord, r.Of q t → (Contents.after calls).stored r = none)
    (hfresh : ∀ s ttl, (Contents.after calls).denied q t = some (s, ttl) → now ≤ s + seconds ttl →
      answer = some { header := { rescode := .nxdomain } })
    (hstale : (∀ s ttl, (Contents.after calls).denied q t = some (s, ttl) → ¬ now ≤ s + seconds ttl) →
      answer = none) : Answers calls now q t answer := by
  have hnone : ¬ ∃ r, Stored calls q t r := by
    rintro ⟨r, hof, s, hs⟩
    rw [← Contents.stored_after, hstored r hof] at hs
    cases hs
  refine ⟨?_, fun h => absurd h hnone, fun _ s ttl hdenied => hfresh s ttl (Contents.denied_after.mpr hdenied),
    fun _ hno => hstale fun s ttl hdenied hlive => hno ⟨s, ttl, Contents.denied_after.mp hdenied, hlive⟩⟩
  rintro ⟨r, hof, s, hs, -⟩
  exact absurd ⟨r, hof, s, hs⟩ hnone

/-- Where records were stored, those of them that are live decide. -/
theorem answers_of_records {qtype : QueryType} {set : EntrySet} {answer : Option DnsPacket}
    (h : Matches (Contents.after calls) q t (some (.records qtype set)))
    (hlive : collected now t set ≠ [] → ∃ authorities, Exactly authorities (Live calls now q .ns)
      ∧ answer = some { answers := collected now t set, authorities := authorities })
    (hdead : collected now t set = [] → answer = none) : Answers calls now q t answer := by
  have hexactly : Exactly (collected now t set) (Live calls now q t) := exactly_collected h
  have hstored : ∃ r, Stored calls q t r := by
    obtain ⟨e, he⟩ := List.exists_mem_of_ne_nil _ h.1
    obtain ⟨hof, hs⟩ := (h.2 e).mp he
    exact ⟨e.record, hof, e.timestamp, Contents.stored_after.mp hs⟩
  refine ⟨?_, ?_, fun hno => absurd hstored hno, fun hno => absurd hstored hno⟩
  · rintro ⟨r, hr⟩
    obtain ⟨authorities, hns, hanswer⟩ := hlive (List.ne_nil_of_mem ((hexactly.2 r).mpr hr))
    exact ⟨_, authorities, hanswer, hexactly, hns⟩
  · rintro - hno
    apply hdead
    rw [List.eq_nil_iff_forall_not_mem]
    intro r hr
    exact hno ⟨r, (hexactly.2 r).mp hr⟩

/-- **A lookup answers from the history.** -/
theorem answers_lookup : Answers calls now q t ((after calls).lookup now q t) := by
  have h := represents_after calls q t
  have hns : Exactly ((after calls).fillQueryresult now q .ns) (Live calls now q .ns) :=
    exactly_fillQueryresult
  unfold cell at h
  unfold lookup getCacheState
  cases hentry : (after calls).domainEntries q with
  | none =>
    -- nothing of the domain is cached
    rw [hentry] at h
    refine answers_of_noRecords h.2 (fun s ttl hdenied => ?_) (fun _ => rfl)
    rw [h.1] at hdenied
    cases hdenied
  | some d =>
    rw [hentry, Option.bind_some] at h
    dsimp only
    unfold DomainEntry.getCacheState
    cases hcell : d.recordTypes t with
    | none =>
      -- nothing of this type
      rw [hcell] at h
      refine answers_of_noRecords h.2 (fun s ttl hdenied => ?_) (fun _ => rfl)
      rw [h.1] at hdenied
      cases hdenied
    | some set =>
      rw [hcell] at h
      cases set with
      | noRecords qtype ttl s =>
        -- a denial, alive or stale
        dsimp only
        refine answers_of_noRecords h.2 ?_ ?_
        · intro s' ttl' hdenied hlive
          rw [h.1, Option.some.injEq, Prod.mk.injEq] at hdenied
          rw [hdenied.1, hdenied.2, if_neg (not_lt.mpr hlive)]
        · intro hstale
          rw [if_pos (not_le.mp (hstale s ttl h.1))]
      | records qtype set =>
        -- the records that are alive, if there are any
        have hfill : (after calls).fillQueryresult now q t = collected now t set := by
          unfold fillQueryresult DomainEntry.fillQueryresult
          rw [hentry]
          dsimp only
          rw [hcell]
          rfl
        have hcount : 0 < set.entries.countP (fun e => ¬ DomainEntry.expired now e
            ∧ e.record.getQuerytype = t) ↔ collected now t set ≠ [] := by
          rw [List.countP_eq_length_filter, List.length_pos_iff, collected, ne_eq, ne_eq,
            List.map_eq_nil_iff]
        dsimp only
        refine answers_of_records h ?_ ?_
        · intro hlive
          rw [if_pos (hcount.mpr hlive)]
          dsimp only
          rw [hfill]
          exact ⟨_, hns, rfl⟩
        · intro hdead
          rw [if_neg fun hpos => hcount.mp hpos hdead]

/-! ## Other domains and types -/

/-- A call leaves the cells that it is not about. -/
theorem cell_call {call : ℤ × CacheCall} (h : ¬ call.2.Touches q t) :
    (c.call call).cell q t = c.cell q t := by
  have hrecord : ∀ (now : ℤ) (c : Cache) (rec : DnsRecord), ¬ rec.Of q t →
      (c.storeRecord now rec).cell q t = c.cell q t := by
    intro now c rec hrec
    unfold storeRecord
    cases hdomain : rec.getDomain with
    | none => rfl
    | some domain =>
      dsimp only
      rw [cell_update]
      by_cases hq : q = domain
      · subst hq
        have ht : t ≠ rec.getQuerytype := fun ht => hrec ⟨hdomain, ht.symm⟩
        rw [if_pos rfl, ← cell_getD]
        unfold DomainEntry.storeRecord
        dsimp only
        split
        · exact Function.update_of_ne ht _ _
        · exact Function.update_of_ne ht _ _
      · rw [if_neg hq]
  obtain ⟨now, act⟩ := call
  cases act with
  | store records =>
    show (c.store now records).cell q t = c.cell q t
    have hnot : ∀ rec ∈ records, ¬ rec.Of q t := fun rec hrec hof => h ⟨rec, hrec, hof⟩
    clear h
    induction records generalizing c with
    | nil => rfl
    | cons rec rest ih =>
      have hrest := ih (c := c.storeRecord now rec) fun r hr => hnot r (List.mem_cons_of_mem _ hr)
      exact hrest.trans (hrecord now c rec (hnot rec List.mem_cons_self))
  | storeNxdomain q' t' ttl =>
    show (c.storeNxdomain now q' t' ttl).cell q t = c.cell q t
    unfold storeNxdomain
    rw [cell_update]
    by_cases hq : q = q'
    · subst hq
      have ht : t ≠ t' := fun ht => h ⟨rfl, ht.symm⟩
      rw [if_pos rfl, ← cell_getD]
      exact Function.update_of_ne ht _ _
    · rw [if_neg hq]
  | lookup q' t' => rfl

/-- A lookup reads its answers off one cell. -/
theorem lookup_congr {c' : Cache} (h : c'.cell q t = c.cell q t) :
    (c'.lookup now q t).map (fun p => (p.header, p.answers))
      = (c.lookup now q t).map fun p => (p.header, p.answers) := by
  have hstate : ∀ c : Cache, c.getCacheState now q t
      = ({ domain := q, recordTypes := fun _ => c.cell q t } : DomainEntry).getCacheState now t := by
    intro c
    unfold getCacheState cell
    cases c.domainEntries q <;> rfl
  have hfill : ∀ c : Cache, c.fillQueryresult now q t
      = ({ domain := q, recordTypes := fun _ => c.cell q t } : DomainEntry).fillQueryresult now t := by
    intro c
    unfold fillQueryresult cell
    cases c.domainEntries q <;> rfl
  unfold lookup
  rw [hstate, hstate c, hfill, hfill c, h]
  cases DomainEntry.getCacheState now { domain := q, recordTypes := fun _ => c.cell q t } t <;> rfl

/-- **The cache refines its history.**  After any calls a lookup answers with the live records of
its domain and type, or with the last negative answer while that lives, and calls about other
domains or other types do not change these answers. -/
theorem refines_history (calls : List (ℤ × CacheCall)) (now : ℤ) (q : String) (t : QueryType) :
    Answers calls now q t ((after calls).lookup now q t)
      ∧ ∀ call : ℤ × CacheCall, ¬ call.2.Touches q t →
        ((after (calls ++ [call])).lookup now q t).map (fun p => (p.header, p.answers))
          = ((after calls).lookup now q t).map fun p => (p.header, p.answers) := by
  refine ⟨answers_lookup, fun call hcall => lookup_congr ?_⟩
  rw [after, List.foldl_append]
  exact cell_call hcall

end Cache
