/-
# Names that are not asked for elsewhere

The filter of the chain answers for every name in one of its zones, registered or not, unless the
data of the domain cannot be read, or delegate the domain to name servers of its own that do not
answer.  Data that cannot be read are on no chain: they would need a difficulty that no hash
reaches.  So the DNS server never asks an upstream server for a name in a zone of the chain, in any
interleaving of its workers, unless the domain is delegated.
-/
import Ruvname.DnsAnswers
import Ruvname.MiningGate

open Exec

section Readable

variable {P : Platform} {now : UtcTime} {c c' : Chain} {b : Block} {f : Ledger}

/-- The data of a domain can be read. -/
def Block.Readable (P : Platform) (b : Block) : Prop :=
  ∀ t, b.transaction = some t → t.class' = classDomain →
    ∃ data, P.parseDomainData t.data = .ok (some data)

namespace Chain

/-- Data that cannot be read need a difficulty that no hash reaches. -/
theorem Passed.readable {last : Option Block} (h : Passed P now c b last) : b.Readable P := by
  intro t ht hclass
  obtain ⟨needed, hneeded, hdeclared⟩ := bind_verdictIf_eq_none.mp h.declaredDifficulty
  have hlow : needed.toNat ≤ 128 := by
    rw [UInt32.not_lt, UInt32.le_iff_toNat_le] at hdeclared
    exact hdeclared.trans h.difficulty_le
  unfold neededDifficulty getDifficultyForTransaction at hneeded
  rw [ht] at hneeded
  dsimp only at hneeded
  rw [if_pos hclass] at hneeded
  obtain ⟨discount, -, hneeded⟩ := bind_eq_ok.mp hneeded
  obtain ⟨data, hdata, hneeded⟩ := bind_eq_ok.mp hneeded
  cases data with
  | some data => exact ⟨data, hdata⟩
  | none =>
    cases hneeded
    exact absurd hlow (by decide)

/-- What every block that passes the checks has, every stored block has. -/
theorem run_stored {Q : Block → Prop} (hQ : ∀ {now c b last}, Passed P now c b last → Q b)
    {origin : Bytes} {ok : Chain → ChainAction → Prop}
    (run : Run (Step P) ok (Chain.new origin Db.empty) c) :
    ∃ f, c.Grounded f ∧ ∀ n x, f n = some x → Q x := by
  refine run.invariant (I := fun c => ∃ f, c.Grounded f ∧ ∀ n x, f n = some x → Q x) ?_ ?_
  · obtain ⟨f, hg, -⟩ := new_ledger Db.represents_empty origin
    refine ⟨f, hg, fun n x hx => ?_⟩
    have hempty := hg.db
    rw [new_empty] at hempty
    rw [hempty.eq_none_of_empty] at hx
    cases hx
  · rintro c a c' ⟨f, hg, hf⟩ - hstep
    obtain ⟨f', hg', hledger, -⟩ := hstep.ledger hg
    refine ⟨f', hg', fun n x hx => ?_⟩
    rcases hledger.eq_or_added hx with hold | hadded
    · exact hf n x hold
    · obtain ⟨now, hpassed⟩ := hstep.passed hadded
      exact hQ hpassed

end Chain

end Readable

namespace BlockchainFilter

variable {P : Platform} {sha256 : List UInt8 → List UInt8} {lookupFromNs : LookupFromNs}
  {now : UtcTime} {c : Chain} {qname : String} {qtype : QueryType}

/-- The data of the domain cannot be read. -/
def Unreadable (P : Platform) (sha256 : List UInt8 → List UInt8) (now : UtcTime) (c : Chain)
    (topDomain : String) : Prop :=
  ∃ info, c.getDomainInfo P sha256 now topDomain = .ok (some info) ∧ P.parseDomainData info = .ok none

/-- A domain that the filter has no answer for. -/
theorem lookupDomain_eq_none {topDomain subdomain zone : String}
    (h : lookupDomain P sha256 lookupFromNs now c qname qtype topDomain subdomain zone = .ok none)
    (hzone : c.isAvailableZone zone) :
    Delegated P sha256 now c topDomain ∨ Unreadable P sha256 now c topDomain := by
  obtain ⟨info?, hinfo, h⟩ := bind_eq_ok.mp h
  cases info? with
  | none =>
    dsimp only at h
    rw [if_pos hzone] at h
    cases h
  | some info =>
    obtain ⟨data?, hdata, h⟩ := bind_eq_ok.mp h
    cases data? with
    | none => exact Or.inr ⟨info, hinfo, hdata⟩
    | some data =>
      refine Or.inl ⟨info, data, hinfo, hdata, fun hglue => ?_⟩
      -- without name servers of its own the domain has an answer
      dsimp only at h
      rw [resolveByNs_of_own hglue] at h
      dsimp only at h
      rw [if_neg Bool.false_ne_true] at h
      cases h

/-- **The filter answers for every name in a zone of the chain**, unless the domain is delegated or
its data cannot be read. -/
theorem lookup_eq_none (h : lookup P sha256 lookupFromNs now c qname qtype = .ok none)
    (hzone : c.isAvailableZone (lastLabel qname)) :
    ∃ top, topDomain? qname = some top ∧
      (Delegated P sha256 now c top ∨ Unreadable P sha256 now c top) := by
  unfold lookup at h
  unfold topDomain?
  cases hparts : rsplitn 3 qname.toList with
  | nil =>
    unfold rsplitn at hparts
    split at hparts
    · cases hparts
    · cases hparts
  | cons part parts =>
    have hlast : String.ofList part = lastLabel qname := by
      rw [head_rsplitn hparts, lastLabel]
    rw [hparts] at h
    cases parts with
    | nil =>
      -- only the zone: it is answered with its SOA record
      rw [List.map_cons, List.map_nil, Except.ok.injEq, getZoneResponse, hlast, if_pos hzone] at h
      cases h
    | cons name rest =>
      refine ⟨_, rfl, ?_⟩
      rw [← hlast] at hzone
      cases rest with
      | nil => exact lookupDomain_eq_none h hzone
      | cons sub rest => exact lookupDomain_eq_none h hzone

/-- Data that cannot be read are on no chain of a node. -/
theorem not_unreadable {n : Node} (hn : n.Reachable P) {topDomain : String} :
    ¬ Unreadable P sha256 now n.chain topDomain := by
  rintro ⟨info, hinfo, hparse⟩
  obtain ⟨origin, run⟩ := hn
  obtain ⟨f, hg, hreadable⟩ := Chain.run_stored Chain.Passed.readable (Node.chain_run run)
  obtain ⟨i, x, t, hx, ht, hclass, rfl, -⟩ := Chain.exists_block_of_getDomainInfo hg.db hinfo
  obtain ⟨data, hdata⟩ := hreadable i x hx t ht hclass
  rw [hdata] at hparse
  cases hparse

end BlockchainFilter

namespace DnsWorkers

variable {ε : Type} {threads : ℕ}

/-- The filter with this number is the filter of a chain that changes with time, the chain of a
node.  The name servers that it asks may answer or not, from call to call. -/
structure AnswersFromChain (P : Platform) (sha256 : List UInt8 → List UInt8) (utc : ℤ → UtcTime)
    (chain : ℤ → Chain) (answers : FilterAnswers) (n : ℕ) : Prop where
  node : ∀ now, ∃ node : Node, node.Reachable P ∧ chain now = node.chain
  lookup : ∀ now qname qtype reply, answers now n qname qtype reply →
    ∃ lookupFromNs : BlockchainFilter.LookupFromNs,
      BlockchainFilter.lookup P sha256 lookupFromNs (utc now) (chain now) qname qtype = .ok reply

/-- **Names of the chain are not asked for elsewhere.**  If a worker asks an upstream server for a
name in a zone of the chain, then the chain, when its filter was asked for this request, had the
domain delegated to other name servers. -/
theorem run_delegated (S : Settings) (answers : FilterAnswers) (start : ℤ) {p : Server ε threads}
    (run : Runs S answers start p) {P : Platform} {sha256 : List UInt8 → List UInt8}
    {utc : ℤ → UtcTime} {chain : ℤ → Chain} {n : ℕ} (hn : n < S.filters)
    (hchain : AnswersFromChain P sha256 utc chain answers n) :
    ∀ e ∈ p.record, ∀ time client query recursive reply,
      e.deed = .called ⟨time, .sendQuery client query recursive, reply⟩ →
      (∃ z ∈ loadZones, z.name = lastLabel query.qname) →
      ∃ now top, ⟨now, .filter n query.qname query.qtype, none⟩ ∈ e.past ∧
        topDomain? query.qname = some top ∧
        BlockchainFilter.Delegated P sha256 (utc now) (chain now) top := by
  intro e he time client query recursive reply hdeed hzone
  have hlawful := (Pool.run_keeps (keeps_serve S) run).2 e he
  unfold Pool.Lawful at hlawful
  rw [hdeed] at hlawful
  have hcleared : Cleared S e.past query.qname query.qtype := hlawful
  obtain ⟨now, hasked⟩ := hcleared.filters n hn
  have hacted := ((Pool.run_past run).2 e he).subset hasked
  obtain ⟨before, later, -, hreplies⟩ := exists_before (Pool.run_path run) hacted
  obtain ⟨lookupFromNs, hlookup⟩ := hchain.lookup now _ _ _ hreplies
  obtain ⟨node, hnode, hsame⟩ := hchain.node now
  have havailable : (chain now).isAvailableZone (lastLabel query.qname) := by
    obtain ⟨z, hz, hname⟩ := hzone
    rw [hsame, Chain.isAvailableZone, hnode.zones, List.any_eq_true]
    exact ⟨z, hz, decide_eq_true hname⟩
  obtain ⟨top, htop, hdelegated | hunreadable⟩ := BlockchainFilter.lookup_eq_none hlookup havailable
  · exact ⟨now, top, hasked, htop, hdelegated⟩
  · rw [hsame] at hunreadable
    exact absurd hunreadable (BlockchainFilter.not_unreadable hnode)

end DnsWorkers

/-! ## A delegated domain -/

namespace Sample

/-- Data that delegate the domain to a name server of its own. -/
def nsText : String := "\x7b\"encrypted\":\"\",\"zone\":\"ruv\",\"records\":["
  ++ "\x7b\"type\":\"NS\",\"domain\":\"@\",\"host\":\"ns.foo.ruv\",\"ttl\":60\x7d,"
  ++ "\x7b\"type\":\"AAAA\",\"domain\":\"ns\",\"addr\":\"fa00::1\",\"ttl\":60\x7d]\x7d"

/-- The platform of the concrete runs, which also reads this text. -/
def nsPlatform : Platform :=
  { platform true with
    readDomainJson := fun s =>
      if s = nsText then some ("", some fun bytes =>
        ⟨bytes, "ruv", "", [.ns "@" "ns.foo.ruv" 60, .aaaa "ns" fa001 60], []⟩)
      else none }

end Sample

namespace DnsWorkers

namespace Sample

/-- A server that forwards what the filter of the chain does not answer. -/
def filtered : Settings := { settings with filters := 1 }

def queryFoo : Request where
  packet := { header := { id := 7, recursionDesired := true }, questions := [⟨"foo.ruv", .a⟩] }
  fuel := 0

/-- What is done before the upstream server is asked. -/
def missed : List (Doing Unit) :=
  [⟨1, .lookup "foo.ruv" .a, none⟩, ⟨1, .lookup "foo.ruv" .cname, none⟩,
    ⟨1, .filter 0 "foo.ruv" .a, none⟩, ⟨1, .random, 0⟩, ⟨1, .lookupAgain "foo.ruv" .a, none⟩]

/-- The question to the upstream server, which has no answer. -/
def forwarded : Doing Unit :=
  ⟨1, .sendQuery .old ⟨"9.9.9.9:53", "foo.ruv", .a⟩ true, .ok {}⟩

theorem yields_forwarded : ∃ packet, (serve filtered queryFoo).Yields
    (missed ++ [forwarded, ⟨1, .store [], ()⟩]) packet :=
  ⟨_, .call 1 (.call 1 (.call 1 (.call 1 (.call 1 (.call 1 (.call 1 (.done _)))))))⟩

end Sample

/-- The name server of `foo.ruv` does not answer, and the name is asked for elsewhere. -/
theorem run_delegated_foo : ∃ (chain : Chain) (p : Server Unit 1) (e : _),
    Runs Sample.filtered (fun _ n q t reply => n = 0 ∧
      BlockchainFilter.lookup Sample.nsPlatform Sample.sha256 (fun _ _ _ => none) Sample.now chain q t
        = .ok reply) 0 p ∧ e ∈ p.record ∧
    e.deed = .called Sample.forwarded ∧
    ∃ now top, ⟨now, .filter 0 "foo.ruv" .a, none⟩ ∈ e.past ∧ topDomain? "foo.ruv" = some top ∧
      BlockchainFilter.Delegated Sample.nsPlatform Sample.sha256 Sample.now chain top := by
  have hnode : ∃ n, Node.receive Sample.nsPlatform Sample.now
      [Sample.genesis, Sample.foo Sample.nsText, Sample.afterFoo] (Node.fresh Sample.genesis.hash) = .ok n
      ∧ BlockchainFilter.lookup Sample.nsPlatform Sample.sha256 (fun _ _ _ => none) Sample.now n.chain
        "foo.ruv" .a = .ok none := by
    decide +kernel
  obtain ⟨n, hn, hlookup⟩ := hnode
  have hreach : n.Reachable Sample.nsPlatform :=
    ⟨Sample.genesis.hash, Node.receive_run (fun _ _ _ => trivial) hn⟩
  generalize hanswers : (fun (_ : ℤ) m q t reply => m = 0 ∧ BlockchainFilter.lookup Sample.nsPlatform
    Sample.sha256 (fun _ _ _ => none) Sample.now n.chain q t = .ok reply : FilterAnswers) = answers
  have hchain : AnswersFromChain Sample.nsPlatform Sample.sha256 (fun _ => Sample.now)
      (fun _ => n.chain) answers 0 := by
    subst hanswers
    exact ⟨fun _ => ⟨n, hreach, rfl⟩, fun _ _ _ _ h => ⟨_, h.2⟩⟩
  have hpath : Pool.Path (Acts answers) ⟨Cache.new, 0⟩
      (Sample.missed ++ [Sample.forwarded, ⟨1, .store [], ()⟩]) ⟨Cache.new, 1⟩ := by
    subst hanswers
    refine Pool.path_cons.mpr ⟨⟨_, _⟩, ⟨by decide, rfl, rfl, rfl⟩, ?_⟩
    refine Pool.path_cons.mpr ⟨⟨_, _⟩, ⟨by decide, rfl, rfl, rfl⟩, ?_⟩
    refine Pool.path_cons.mpr ⟨⟨_, _⟩, ⟨by decide, rfl, ⟨rfl, hlookup⟩, rfl⟩, ?_⟩
    refine Pool.path_cons.mpr ⟨⟨_, _⟩, ⟨by decide, rfl, trivial, rfl⟩, ?_⟩
    refine Pool.path_cons.mpr ⟨⟨_, _⟩, ⟨by decide, rfl, rfl, rfl⟩, ?_⟩
    refine Pool.path_cons.mpr ⟨⟨_, _⟩, ⟨by decide, rfl, trivial, rfl⟩, ?_⟩
    exact Pool.path_cons.mpr ⟨⟨_, _⟩, ⟨by decide, rfl, trivial, rfl⟩, .nil⟩
  have hidle : Runs Sample.filtered answers 0 (Pool.idle ⟨Cache.new, 0⟩ : Server Unit 1) := .refl _
  obtain ⟨p, hrun, hacted⟩ : ∃ p : Server Unit 1, Runs Sample.filtered answers 0 p ∧
      Sample.forwarded ∈ Pool.acted p.record := by
    obtain ⟨packet, hyields⟩ := Sample.yields_forwarded
    obtain ⟨record, hrun, hacted, -⟩ := Pool.run_alone (i := 0) hidle rfl hyields hpath
    refine ⟨_, hrun, ?_⟩
    rw [hacted]
    exact List.mem_append_right _ (List.mem_append_right _ List.mem_cons_self)
  obtain ⟨e, he, hdeed⟩ := Pool.mem_acted.mp hacted
  have hdelegated := run_delegated Sample.filtered answers 0 hrun (by decide) hchain e he 1 .old
    ⟨"9.9.9.9:53", "foo.ruv", .a⟩ true (.ok {}) hdeed
    ⟨⟨"ruv", true⟩, by decide +kernel, by decide +kernel⟩
  subst hanswers
  exact ⟨n.chain, p, e, hrun, he, hdeed, hdelegated⟩

end DnsWorkers
