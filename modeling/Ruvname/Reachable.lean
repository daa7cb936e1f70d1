/-
# Runs of a node

A node receives blocks and announced heights from its peers, appends what its own miner
finds, and is restarted.  `Node.Step` is the transition relation; a node is *reachable*
when a run leads to it from a fresh one with an empty database.

A step of a node is a run of its chain (`Node.Step.run`): every property of chains that is
kept by the actions of `Chain.Step` therefore holds in every reachable node.
-/
import Ruvname.Steps

open Exec

/-! ## Inputs -/

/-- What a node reacts to. -/
inductive NodeInput where
  /-- A peer sends a block. -/
  | block (clock : ℕ → UtcTime) (b : Block)
  /-- A peer announces its height, in `Hand`, `Ping` or `Pong`. -/
  | height (height : UInt64)
  /-- A miner thread has found a block. -/
  | mined (now : UtcTime) (b : Block)
  /-- The node is started again and checks its last blocks. -/
  | restart (clock : ℕ → UtcTime) (count : UInt64)

namespace Node

variable (P : Platform)

/-- The end of a miner thread in `miner.rs`: a mined block is judged, a good one added. -/
def addMined (now : UtcTime) (n : Node) (b : Block) : Exec Node := do
  let (quality, cache) ← n.chain.checkNewBlock P now b
  let c := { n.chain with signers := cache }
  if quality = .good then do
    let c ← c.addBlock b
    .ok { n with chain := c }
  else .ok { n with chain := c }

/-- `create_context` and `start_services` of `main.rs`: the database is opened and its last
blocks are checked.  Nothing else survives. -/
def restart (clock : ℕ → UtcTime) (n : Node) (count : UInt64) : Exec Node := do
  let c ← (Chain.new n.chain.origin n.chain.db).checkChain P clock count
  .ok ⟨c, [], []⟩

/-- The blocks of a list are received one after the other, at one reading of the clock. -/
def receive (now : UtcTime) : List Block → Node → Exec Node
  | [], n => .ok n
  | b :: blocks, n => do
    let (n, _) ← n.handleBlock P (fun _ => now) b
    receive now blocks n

/-- A node with an empty database. -/
def fresh (origin : Bytes) : Node := ⟨Chain.new origin Db.empty, [], []⟩

/-- The transitions of a node. -/
def Step (n : Node) (i : NodeInput) (n' : Node) : Prop :=
  match i with
  | .block clock b => ∃ state, n.handleBlock P clock b = .ok (n', state)
  | .height h => n' = { n with chain := n.chain.updateMaxHeight h }
  | .mined now b => n.addMined P now b = .ok n'
  | .restart clock count => n.restart P clock count = .ok n'

/-- The nodes that a fresh node can become. -/
def Reachable (n : Node) : Prop :=
  ∃ origin, Run (Step P) (fun _ _ => True) (fresh origin) n

/-- A block takes the place of ours: it is judged a fork, and it is better than our block
or we are lagged. -/
def Replaces (now : UtcTime) (c : Chain) (b : Block) : Prop :=
  ∃ s our, c.checkNewBlock P now b = .ok (.fork, s) ∧ c.getBlock b.index = some our
    ∧ forkWins P c b our = .ok true

/-- The actions on the chain that an input can lead to. -/
def Allowed (n : Node) (i : NodeInput) (c : Chain) (a : ChainAction) : Prop :=
  match i, a with
  | _, .judge _ _ => True
  | _, .height _ => True
  | .block _ b, .append _ x => x = b ∨ ∃ j, (j, x) ∈ n.futureBlocks
  | .block clock b, .replace now x =>
    x = b ∧ now = clock 0 ∧ c = n.chain ∧ Replaces P (clock 0) n.chain b
  | .mined _ b, .append _ x => x = b
  | .restart _ _, .reopen => c = n.chain
  | .restart clock count, .recheck clock' count' =>
    clock' = clock ∧ count' = count ∧ c = Chain.new n.chain.origin n.chain.db
  | _, _ => False

variable {P} {n n' : Node} {clock : ℕ → UtcTime} {b : Block} {state : State} {i : NodeInput}

/-! ## Handling a block -/

/-- What a bucket finds was put there. -/
theorem mem_of_lookup {future : FutureBlocks} {j : UInt64} (h : future.lookup j = some b) :
    (j, b) ∈ future := by
  induction future with
  | nil => cases h
  | cons e future ih =>
    rw [List.lookup_cons] at h
    split at h
    · rename_i heq
      cases h
      rw [eq_of_beq heq]
      exact List.mem_cons_self
    · exact List.mem_cons_of_mem _ (ih h)

/-- Draining the bucket appends blocks that waited in it, and only takes them out. -/
theorem drainFuture_run {k : ℕ} {c c' : Chain} {future future' : FutureBlocks} {next : UInt64}
    (h : drainFuture P k clock c future next = .ok (c', future')) :
    Run (Chain.Step P) (fun _ a => match a with
      | .judge _ _ => True
      | .append _ x => ∃ j, (j, x) ∈ future
      | _ => False) c c' ∧ future' ⊆ future := by
  induction k generalizing clock c future next with
  | zero =>
    cases h
    exact ⟨.refl _, List.Subset.refl _⟩
  | succ k ih =>
    rw [drainFuture] at h
    split at h
    · cases h
      exact ⟨.refl _, List.Subset.refl _⟩
    · rename_i x hx
      have hsub : future.remove next ⊆ future := List.filter_sublist.subset
      obtain ⟨⟨quality, cache⟩, hcheck, h⟩ := bind_eq_ok.mp h
      by_cases hq : quality = .good
      · simp only [hq, if_true] at h hcheck
        obtain ⟨c₁, hadd, h⟩ := bind_eq_ok.mp h
        obtain ⟨next', -, h⟩ := bind_eq_ok.mp h
        obtain ⟨hrun, hfuture⟩ := ih h
        refine ⟨?_, List.Subset.trans hfuture hsub⟩
        have hfirst : Run (Chain.Step P) (fun _ a => match a with
            | .judge _ _ => True
            | .append _ x => ∃ j, (j, x) ∈ future
            | _ => False) c c₁ :=
          Run.single (a := .append (clock 0) x) ⟨next, mem_of_lookup hx⟩ ⟨cache, hcheck, hadd⟩
        refine hfirst.trans (hrun.mono fun _ a ha => ?_)
        cases a with
        | append now y => exact ha.imp fun j hj => hsub hj
        | _ => exact ha
      · simp only [hq, if_false] at h
        cases h
        exact ⟨Run.single (a := .judge (clock 0) x) trivial ⟨_, _, hcheck, rfl⟩, hsub⟩

/-- What becomes of a fork: it wins and replaces ours, or only the signers have been looked up. -/
theorem handleBlock_fork_cases {cache : SignersCache}
    (hcheck : n.chain.checkNewBlock P (clock 0) b = .ok (.fork, cache))
    (h : n.handleBlock P clock b = .ok (n', state)) :
    n'.futureBlocks = n.futureBlocks ∧
      (Replaces P (clock 0) n.chain b
          ∧ { n.chain with signers := cache }.replaceBlock b = .ok n'.chain
        ∨ ¬ Replaces P (clock 0) n.chain b ∧ n'.chain = { n.chain with signers := cache }) := by
  unfold handleBlock at h
  obtain ⟨⟨quality, cache'⟩, hcheck', h⟩ := bind_eq_ok.mp h
  cases (hcheck.symm.trans hcheck' : Except.ok (_, _) = Except.ok (_, _))
  simp only at h
  split at h
  · cases h
  · rename_i our hour
    obtain ⟨wins, hwins, h⟩ := bind_eq_ok.mp h
    cases wins with
    | true =>
      simp only [if_true] at h
      obtain ⟨c₁, hrep, h⟩ := bind_eq_ok.mp h
      cases h
      exact ⟨rfl, Or.inl ⟨⟨cache, our, hcheck, hour, hwins⟩, hrep⟩⟩
    | false =>
      cases h
      refine ⟨rfl, Or.inr ⟨?_, rfl⟩⟩
      rintro ⟨s, our', -, hour', hwins'⟩
      have hsame : our' = our := by
        rw [← Option.some.injEq, ← hour, ← hour']
        rfl
      rw [hsame] at hwins'
      have : (Except.ok false : Exec Bool) = .ok true := hwins.symm.trans hwins'
      cases this

/-- **What `handle_block` can do.**  It appends the block and drains the bucket, or lets a
winning fork replace ours, or leaves the tables and the tip alone. -/
theorem handleBlock_cases (h : n.handleBlock P clock b = .ok (n', state)) :
    (∃ s c₁, n.chain.checkNewBlock P (clock 0) b = .ok (.good, s)
      ∧ { n.chain with signers := s }.addBlock b = .ok c₁
      ∧ ∃ next future, addU64 P.checks b.index 1 = .ok next
        ∧ drainFuture P n.futureBlocks.length (fun i => clock (i + 1)) c₁ n.futureBlocks next
          = .ok (n'.chain, future)
        ∧ n'.futureBlocks ⊆ future)
    ∨ (∃ s, n.chain.checkNewBlock P (clock 0) b = .ok (.fork, s) ∧ Replaces P (clock 0) n.chain b
      ∧ { n.chain with signers := s }.replaceBlock b = .ok n'.chain
      ∧ n'.futureBlocks = n.futureBlocks)
    ∨ (∃ q s maxHeight, n.chain.checkNewBlock P (clock 0) b = .ok (q, s)
      ∧ n'.chain = { n.chain with signers := s, maxHeight := maxHeight }
      ∧ ¬ Replaces P (clock 0) n.chain b
      ∧ (n'.futureBlocks = n.futureBlocks ∨ n'.futureBlocks = n.futureBlocks.insert b.index b)) := by
  have hhandled := h
  unfold handleBlock at h
  obtain ⟨⟨quality, cache⟩, hcheck, h⟩ := bind_eq_ok.mp h
  have hnot : quality ≠ .fork → ¬ Replaces P (clock 0) n.chain b := by
    rintro hne ⟨s, our, hfork, -⟩
    rw [hcheck] at hfork
    cases hfork
    exact hne rfl
  cases quality with
  | good =>
    obtain ⟨next, hnext, h⟩ := bind_eq_ok.mp h
    obtain ⟨c₁, hadd, h⟩ := bind_eq_ok.mp h
    obtain ⟨⟨c₂, future⟩, hdrain, h⟩ := bind_eq_ok.mp h
    cases h
    refine Or.inl ⟨cache, c₁, hcheck, hadd, next, future, hnext, hdrain, ?_⟩
    show (if _ then _ else _) ⊆ future
    split
    · exact List.nil_subset _
    · exact List.Subset.refl _
  | twin =>
    cases h
    exact Or.inr (Or.inr ⟨_, _, _, hcheck, rfl, hnot (by simp), Or.inl rfl⟩)
  | future =>
    cases h
    exact Or.inr (Or.inr ⟨_, _, _, hcheck, rfl, hnot (by simp), Or.inr rfl⟩)
  | bad =>
    obtain ⟨next, -, h⟩ := bind_eq_ok.mp h
    cases h
    right; right
    by_cases hnext : next = b.index
    · refine ⟨_, _, n.chain.getHeight, hcheck, ?_, hnot (by simp), Or.inl rfl⟩
      simp only [hnext, if_true]
      rfl
    · refine ⟨_, _, n.chain.maxHeight, hcheck, ?_, hnot (by simp), Or.inl rfl⟩
      simp only [hnext, if_false]
  | rewind =>
    obtain ⟨parent, -, h⟩ := bind_eq_ok.mp h
    cases h
    exact Or.inr (Or.inr ⟨_, _, _, hcheck, rfl, hnot (by simp), Or.inl rfl⟩)
  | fork =>
    obtain ⟨hfuture, ⟨hreplaces, hrep⟩ | ⟨hkeeps, hchain⟩⟩ :=
      handleBlock_fork_cases (n := n) hcheck hhandled
    · exact Or.inr (Or.inl ⟨cache, hcheck, hreplaces, hrep, hfuture⟩)
    · exact Or.inr (Or.inr ⟨_, cache, n.chain.maxHeight, hcheck, hchain, hkeeps, Or.inl hfuture⟩)

/-- **A step of a node is a run of its chain.** -/
theorem Step.run (h : n.Step P i n') : Run (Chain.Step P) (Allowed P n i) n.chain n'.chain := by
  cases i with
  | block clock b =>
    obtain ⟨state, h⟩ := h
    rcases handleBlock_cases h with ⟨s, c₁, hgood, hadd, next, future, -, hdrain, -⟩
      | ⟨s, hfork, hwins, hrep, -⟩ | ⟨q, s, maxHeight, hcheck, hchain, -, -⟩
    · have hfirst : Run (Chain.Step P) (Allowed P n (.block clock b)) n.chain c₁ :=
        Run.single (a := .append (clock 0) b) (Or.inl rfl) ⟨s, hgood, hadd⟩
      refine hfirst.trans ((drainFuture_run hdrain).1.mono fun _ a ha => ?_)
      cases a with
      | judge now x => trivial
      | append now x => exact Or.inr ha
      | _ => exact ha.elim
    · exact Run.single (a := .replace (clock 0) b) ⟨rfl, rfl, rfl, hwins⟩ ⟨s, hfork, hrep⟩
    · have hjudge : Run (Chain.Step P) (Allowed P n (.block clock b)) n.chain
          { n.chain with signers := s } :=
        Run.single (a := .judge (clock 0) b) trivial ⟨q, s, hcheck, rfl⟩
      refine hjudge.trans ?_
      rw [hchain]
      exact Run.single (a := .height maxHeight) trivial rfl
  | height h' =>
    cases h
    exact Run.single (a := .height h') trivial rfl
  | mined now b =>
    obtain ⟨⟨quality, cache⟩, hcheck, h⟩ := bind_eq_ok.mp h
    by_cases hq : quality = .good
    · simp only [hq, if_true] at h hcheck
      obtain ⟨c₁, hadd, h⟩ := bind_eq_ok.mp h
      cases h
      exact Run.single (a := .append now b) rfl ⟨cache, hcheck, hadd⟩
    · simp only [hq, if_false] at h
      cases h
      exact Run.single (a := .judge now b) trivial ⟨_, _, hcheck, rfl⟩
  | restart clock count =>
    obtain ⟨c, hcheck, h⟩ := bind_eq_ok.mp h
    cases h
    have hopen : Run (Chain.Step P) (Allowed P n (.restart clock count)) n.chain
        (Chain.new n.chain.origin n.chain.db) :=
      Run.single (a := .reopen) rfl rfl
    exact hopen.trans (Run.single (a := .recheck clock count) ⟨rfl, rfl, rfl⟩ hcheck)

/-- A good block is added, with the blocks that waited for it. -/
theorem handleBlock_good {clock : ℕ → UtcTime} {b : Block} {s : SignersCache} {next : UInt64}
    {added : Chain} (hcheck : n.chain.checkNewBlock P (clock 0) b = .ok (.good, s))
    (hnext : addU64 P.checks b.index 1 = .ok next)
    (hadd : { n.chain with signers := s }.addBlock b = .ok added) :
    n.handleBlock P clock b =
      drainFuture P n.futureBlocks.length (fun i => clock (i + 1)) added n.futureBlocks next
        >>= fun r => .ok
          (⟨r.1, if r.1.getHeight = n.chain.maxHeight then [] else r.2, b.hash :: n.seenBlocks⟩,
            .idle) := by
  unfold handleBlock
  dsimp only
  rw [hcheck, ok_bind]
  simp only [hnext, hadd, ok_bind]

/-- Receiving blocks is a run of the node. -/
theorem receive_run {now : UtcTime} {blocks : List Block} {ok : Node → NodeInput → Prop}
    (hok : ∀ n, ∀ b ∈ blocks, ok n (.block (fun _ => now) b)) (h : receive P now blocks n = .ok n') :
    Run (Step P) ok n n' := by
  induction blocks generalizing n with
  | nil =>
    cases h
    exact .refl _
  | cons b blocks ih =>
    obtain ⟨⟨n₁, state⟩, hfirst, h⟩ := bind_eq_ok.mp h
    have hstep : Run (Step P) ok n n₁ :=
      Run.single (hok n b List.mem_cons_self) ⟨state, hfirst⟩
    exact hstep.trans (ih (fun n x hx => hok n x (List.mem_cons_of_mem _ hx)) h)

/-! ## Invariants of reachable nodes -/

/-- A property of the chain that every action keeps is kept by a step of the node. -/
theorem Step.chain_invariant {I : Chain → Prop} (h : n.Step P i n') (hn : I n.chain)
    (keep : ∀ c a c', I c → Allowed P n i c a → c.Step P a c' → I c') : I n'.chain :=
  (h.run).invariant hn keep

/-- A run of a node is a run of its chain. -/
theorem chain_run {ok : Node → NodeInput → Prop} (run : Run (Step P) ok n n') :
    Run (Chain.Step P) (fun _ _ => True) n.chain n'.chain := by
  induction run with
  | refl => exact .refl _
  | tail _ _ last ih => exact ih.trans (last.run.mono fun _ _ _ => trivial)

/-- A step keeps a node grounded. -/
theorem Step.grounded (h : n.Step P i n') (hn : ∃ f, n.chain.Grounded f) :
    ∃ f, n'.chain.Grounded f := by
  refine h.chain_invariant (I := fun c => ∃ f, c.Grounded f) hn fun c a c' ⟨f, hg⟩ _ hstep => ?_
  obtain ⟨f', hg', -, -⟩ := hstep.ledger hg
  exact ⟨f', hg'⟩

theorem grounded_fresh (origin : Bytes) : ∃ f, (fresh origin).chain.Grounded f := by
  obtain ⟨f, hg, -⟩ := Chain.new_ledger Db.represents_empty origin
  exact ⟨f, hg⟩

/-- **The database of a reachable node represents a ledger, and its tip is cached.** -/
theorem Reachable.grounded (h : Reachable P n) : ∃ f, n.chain.Grounded f := by
  obtain ⟨origin, run⟩ := h
  exact run.invariant (grounded_fresh origin) fun _ _ _ hn _ hstep => hstep.grounded hn

end Node

namespace Node

variable {P : Platform} {n n' : Node} {clock : ℕ → UtcTime} {b : Block} {state : State}
  {f : Ledger}

/-- Along a run that replaces, checks and reopens nothing, the ledger only grows. -/
theorem ledger_grows {ok : Chain → ChainAction → Prop} {c c' : Chain} (hg : c.Grounded f)
    (run : Run (Chain.Step P) ok c c')
    (hok : ∀ c a, ok c a → match a with
      | .judge _ _ => True
      | .height _ => True
      | .append _ _ => True
      | _ => False) :
    ∃ f', c'.Grounded f' ∧ ∀ k x, f k = some x → f' k = some x := by
  refine run.invariant
    (I := fun c => ∃ f', c.Grounded f' ∧ ∀ k x, f k = some x → f' k = some x)
    ⟨f, hg, fun _ _ h => h⟩ ?_
  rintro c₁ a c₂ ⟨f₁, hg₁, hle⟩ hcond hstep
  obtain ⟨f₂, hg₂, hledger, -⟩ := hstep.ledger hg₁
  refine ⟨f₂, hg₂, fun k x hk => ?_⟩
  have hx := hle k x hk
  have hmatch := hok c₁ a hcond
  cases a with
  | judge now y => rw [show f₂ = f₁ from hledger, hx]
  | height h => rw [show f₂ = f₁ from hledger, hx]
  | append now y =>
    rcases hledger with rfl | ⟨hfree, rfl⟩
    · exact hx
    · rw [Ledger.put_of_ne, hx]
      rintro rfl
      rw [hx] at hfree
      cases hfree
  | _ => exact hmatch.elim

/-- **What `handle_block` does to the ledger.**  A winning fork truncates it; everything
else leaves the stored blocks in their places. -/
theorem handleBlock_ledger (hg : n.chain.Grounded f) (h : n.handleBlock P clock b = .ok (n', state)) :
    ∃ f', n'.chain.Grounded f' ∧
      ((Replaces P (clock 0) n.chain b ∧ f' = (f.truncate b.index.toNat).put b)
        ∨ (¬ Replaces P (clock 0) n.chain b ∧ ∀ k x, f k = some x → f' k = some x)) := by
  rcases handleBlock_cases h with ⟨s, c₁, hgood, hadd, next, future, -, hdrain, -⟩
    | ⟨s, hfork, hwins, hrep, -⟩ | ⟨q, s, maxHeight, hcheck, hchain, hnot, -⟩
  · have hfirst : Run (Chain.Step P) (fun _ a => match a with
        | .judge _ _ => True
        | .append _ _ => True
        | _ => False) n.chain c₁ :=
      Run.single (a := .append (clock 0) b) trivial ⟨s, hgood, hadd⟩
    have hrest := (drainFuture_run hdrain).1
    obtain ⟨f', hg', hle⟩ := ledger_grows hg
      (hfirst.trans (hrest.mono fun _ a ha => by cases a <;> trivial))
      (fun _ a ha => by cases a <;> trivial)
    refine ⟨f', hg', Or.inr ⟨?_, hle⟩⟩
    rintro ⟨s', our, hfork, -⟩
    rw [hgood] at hfork
    cases hfork
  · obtain ⟨-, hg', -⟩ := Chain.replace_ledger hg hfork hrep
    exact ⟨_, hg', Or.inl ⟨hwins, rfl⟩⟩
  · refine ⟨f, ?_, Or.inr ⟨hnot, fun _ _ hk => hk⟩⟩
    rw [hchain]
    exact hg.congr rfl rfl

end Node

/-! ## A platform for concrete runs -/

namespace Sample

/-- A reading of the clock, in November 2023. -/
def now : UtcTime := ⟨1700000000, by decide, by decide⟩

/-- A digest with 64 zero bits at its start and the given bytes at its end. -/
def hash (tail : List UInt8) : Bytes :=
  ⟨List.replicate 8 0 ++ 1 :: List.replicate 15 0 ++ (tail ++ List.replicate 8 0).take 8⟩

/-- Domain data without records, in the zone `ruv`. -/
def domainText : String := "\x7b\"encrypted\":\"\",\"zone\":\"ruv\"\x7d"

/-- A platform whose digest ends in the nonce of the block that is hashed. -/
def platform (checks : Bool) : Platform where
  checks := checks
  fuel := 100
  blakeout data := hash ((data.drop 28).take 8)
  blakeout_length data := by simp [hash, Bytes.length]
  validKey _ := true
  verify _ _ _ := true
  readDomainJson s :=
    if s = domainText then some ("", some fun bytes => ⟨bytes, "ruv", "", [], []⟩) else none

def key (i : UInt8) : Bytes := ⟨i :: List.replicate 31 0⟩

def origin : Transaction :=
  ⟨classOrigin, Bytes.default, Bytes.default, Bytes.default, Bytes.default, ""⟩

def domain (identity : Bytes) : Transaction :=
  ⟨classDomain, identity, Bytes.default, Bytes.default, Bytes.default, domainText⟩

/-- A block with the digest and a signature of this platform. -/
def block (index : UInt64) (timestamp : Int64) (nonce : UInt64) (prevBlockHash pubKey : Bytes)
    (t : Option Transaction) : Block where
  index := index
  timestamp := timestamp
  version := 1
  difficulty := 28
  random := 0
  nonce := nonce
  hash := hash (leBytes 8 nonce.toNat)
  prevBlockHash := prevBlockHash
  pubKey := pubKey
  signature := ⟨List.replicate 64 1⟩
  transaction := t

/-- The origin block of the concrete runs. -/
def genesis : Block := block 1 0 1 Bytes.default (key 1) (some origin)

end Sample
