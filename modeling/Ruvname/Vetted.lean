/-
# What every stored block has in common

A block only enters the tables after it has passed the decision list.  What the list
guarantees about a block by itself (its clock, the lengths of its hash and signature) thus
holds for every stored block and for the cached full block, also for one that has gone
stale.  Later checks rely on these facts without testing them.
-/
import Ruvname.TipCache

open Exec

/-- What passing the decision list says about a block alone.  The bound on the timestamp is
the latest reading of the clock plus the tolerated minute. -/
structure Block.Vetted (b : Block) : Prop where
  timestamp : b.timestamp.toInt ≤ 2 ^ 43 + 60
  hash : b.hash.length = 32
  signature : b.signature.length = 64

/-- The stored form of a vetted block is vetted. -/
theorem Block.Vetted.collapse {b : Block} (h : b.Vetted) : b.collapse.Vetted :=
  ⟨h.timestamp, h.hash, h.signature⟩

/-- The vetted columns are stored as they are. -/
theorem Block.Vetted.congr {a b : Block} (h : a.Vetted) (hrow : BlockRow.ofBlock a = BlockRow.ofBlock b) :
    b.Vetted := by
  have htimestamp : a.timestamp = b.timestamp := congrArg BlockRow.timestamp hrow
  have hhash : a.hash = b.hash := congrArg BlockRow.hash hrow
  have hsignature : a.signature = b.signature := congrArg BlockRow.signature hrow
  exact ⟨htimestamp ▸ h.timestamp, hhash ▸ h.hash, hsignature ▸ h.signature⟩

namespace Chain

variable {P : Platform} {now : UtcTime} {c c' : Chain} {b l : Block} {f f' : Ledger} {s : SignersCache}
  {a : ChainAction}

/-- A block that has passed the checks is vetted. -/
theorem Passed.vetted {last : Option Block} (h : Passed P now c b last) : b.Vetted where
  timestamp := by
    have := h.timestamp_le
    have := now.upper
    omega
  hash := h.hash_length
  signature := h.signature_length

/-- A block that may be cached as the last full one. -/
def CacheableFull (o : Option Block) : Prop :=
  ∀ full, o = some full → full.Vetted ∧ full.transaction.isSome

/-- A grounded chain of vetted blocks, with a vetted full block in the cache. -/
structure Clean (c : Chain) (f : Ledger) : Prop extends c.Grounded f where
  vetted : ∀ n x, f n = some x → x.Vetted
  full : CacheableFull c.lastFullBlock

/-- What the statement for the last full block selects may be cached. -/
theorem cacheableFull_lastFullBlock {db : Db} (hr : db.Represents f)
    (hvetted : ∀ n x, f n = some x → x.Vetted) : CacheableFull (db.lastFullBlock maxIndex none) := by
  intro full hfull
  obtain ⟨n, x, hx, rfl, -, hcond, -⟩ := hr.lastFullBlock_eq_some (by decide) hfull
  refine ⟨(hvetted n x hx).collapse, ?_⟩
  rw [Block.collapse_transaction_isSome]
  exact hcond.1

namespace Clean

/-- Only the tables and the caches matter. -/
theorem congr (hc : c.Clean f) (hdb : c'.db = c.db) (hlast : c'.lastBlock = c.lastBlock)
    (hfull : c'.lastFullBlock = c.lastFullBlock) : c'.Clean f where
  toGrounded := hc.toGrounded.congr hdb hlast
  vetted := hc.vetted
  full := hfull ▸ hc.full

/-- What is left after a cut is vetted. -/
theorem vetted_truncate (hc : c.Clean f) (n : ℕ) : ∀ m x, f.truncate n m = some x → x.Vetted :=
  fun m x hx => hc.vetted m x (Ledger.truncate_eq_some hx).2

/-- A vetted block has been put into the ledger. -/
theorem put {g : Ledger} {c₀ : Chain} (hg : c'.Grounded (g.put b)) (hadded : c₀.Added b c')
    (hvetted : ∀ n x, g n = some x → x.Vetted) (hfull : CacheableFull c₀.lastFullBlock)
    (hb : b.Vetted) : c'.Clean (g.put b) where
  toGrounded := hg
  vetted n x hx := by
    by_cases hn : n = b.index.toNat
    · rw [hn, Ledger.put_self] at hx
      cases hx
      exact hb
    · rw [Ledger.put_of_ne hn] at hx
      exact hvetted n x hx
  full := by
    rw [hadded.lastFullBlock]
    by_cases htx : b.transaction.isSome
    · rw [if_pos htx]
      intro full hfull
      cases hfull
      exact ⟨hb, htx⟩
    · rw [if_neg htx]
      exact hfull

/-- A clean chain stays clean when a good block is appended. -/
theorem append (hc : c.Clean f) (hgood : c.checkNewBlock P now b = .ok (.good, s))
    (h : { c with signers := s }.addBlock b = .ok c') : ∃ f', c'.Clean f' := by
  have hpassed := ((checkBlock_accepting accepting_good).mp hgood).1
  rcases append_ledger hc.toGrounded hgood h with ⟨rfl, -⟩ | ⟨-, hg', hadded⟩
  · exact ⟨f, hc.congr rfl rfl rfl⟩
  · exact ⟨_, put hg' hadded hc.vetted hc.full hpassed.vetted⟩

/-- When a better block replaces a fork. -/
theorem replace (hc : c.Clean f) (hfork : c.checkNewBlock P now b = .ok (.fork, s))
    (h : { c with signers := s }.replaceBlock b = .ok c') : ∃ f', c'.Clean f' := by
  have hpassed := ((checkBlock_accepting accepting_fork).mp hfork).1
  obtain ⟨-, hg', hadded⟩ := replace_ledger hc.toGrounded hfork h
  exact ⟨_, put hg' hadded (hc.vetted_truncate _) hc.full hpassed.vetted⟩

/-- And when the chain is checked again. -/
theorem recheck {clock : ℕ → UtcTime} {count : UInt64} (hc : c.Clean f)
    (h : c.checkChain P clock count = .ok c') : ∃ f', c'.Clean f' := by
  obtain ⟨f', hg', -, hf'⟩ := recheck_ledger hc.toGrounded h
  have hvetted : ∀ n x, f' n = some x → x.Vetted := by
    rcases hf' with rfl | ⟨i, -, -, rfl⟩
    · exact hc.vetted
    · exact hc.vetted_truncate i
  refine ⟨f', ⟨hg', hvetted, ?_⟩⟩
  have hheight := hc.height_le
  have hmax := maxRows_lt
  obtain ⟨start, hstart, h⟩ := bind_eq_ok.mp h
  have hfrom := checkFrom_spec (by omega) hstart
  obtain ⟨⟨c₁, cut⟩, hloop, h⟩ := bind_eq_ok.mp h
  cases h
  obtain ⟨stop, -, -, -, hchecked⟩ := checkLoop_lastFull hc.db hfrom.1 (by omega) hloop
  -- the loop leaves the old cache or a stored block, the final query that or another one
  have hloopFull : CacheableFull c₁.lastFullBlock := by
    rcases hchecked with ⟨ho, -⟩ | ⟨m, x, -, -, -, hx, hxfull, ho, -⟩
    · rw [ho]
      exact hc.full
    · rw [ho]
      intro full hfull
      cases hfull
      exact ⟨(hc.vetted m x hx).collapse, by rw [Block.collapse_transaction_isSome]; exact hxfull⟩
  have hquery := cacheableFull_lastFullBlock hg'.db hvetted
  show CacheableFull (c₁.getLastFullBlock maxIndex none)
  unfold getLastFullBlock
  split
  · rename_i full hfull
    split
    · rw [← hfull]
      exact hloopFull
    · exact hquery
  · exact hquery

/-- A chain that is opened on vetted blocks is clean. -/
theorem of_new {db : Db} (hr : db.Represents f) (hvetted : ∀ n x, f n = some x → x.Vetted)
    (origin : Bytes) : ∃ f', (Chain.new origin db).Clean f' := by
  obtain ⟨f', hg', hf'⟩ := new_ledger hr origin
  have hvetted' : ∀ n x, f' n = some x → x.Vetted := by
    rcases hf' with rfl | rfl
    · exact hvetted
    · intro n x hx
      cases hx
  refine ⟨f', ⟨hg', hvetted', ?_⟩⟩
  intro full hfull
  obtain ⟨l, hl, hfull⟩ := Option.bind_eq_some_iff.mp hfull
  split at hfull
  · rename_i htx
    cases hfull
    obtain ⟨x, hx, hrow⟩ := hg'.tip _ hl
    exact ⟨(hvetted' _ x hx).congr hrow, htx⟩
  · exact cacheableFull_lastFullBlock hg'.db hvetted' full hfull

/-- **The step lemma.**  Every action keeps the chain clean. -/
theorem step (hc : c.Clean f) (h : c.Step P a c') : ∃ f', c'.Clean f' := by
  cases a with
  | judge now b =>
    obtain ⟨q, s, -, rfl⟩ := h
    exact ⟨f, hc.congr rfl rfl rfl⟩
  | height h' =>
    cases h
    exact ⟨f, hc.congr rfl rfl rfl⟩
  | append now b =>
    obtain ⟨s, hgood, hadd⟩ := h
    exact hc.append hgood hadd
  | replace now b =>
    obtain ⟨s, hfork, hrep⟩ := h
    exact hc.replace hfork hrep
  | recheck clock count => exact hc.recheck h
  | reopen =>
    cases h
    exact of_new hc.db hc.vetted c.origin

end Clean

end Chain

/-- **Every chain of a reachable node is clean.** -/
theorem Node.Reachable.clean {P : Platform} {n : Node} (h : n.Reachable P) :
    ∃ f, n.chain.Clean f := by
  obtain ⟨origin, run⟩ := h
  have hstart : ∃ f, (Node.fresh origin).chain.Clean f :=
    Chain.Clean.of_new Db.represents_empty (fun n x hx => by cases hx) origin
  refine (Node.chain_run run).invariant (I := fun c => ∃ f, c.Clean f) hstart ?_
  rintro c a c' ⟨f, hc⟩ - hstep
  exact hc.step hstep
