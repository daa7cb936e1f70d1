/-
# One new domain per key and day

`can_mine_identity` compares a block for a new identity with the latest full block of its
key only.  That this separates it from *all* earlier full blocks of the key needs two facts
about the whole chain: timestamps do not decrease along it, and the fast path through the
cached full block finds what the query on the table would find.  Both are read off the
history of the chain.
-/
import Ruvname.History

open Exec

namespace Chain

variable {P : Platform} {now : UtcTime} {c : Chain} {x y full : Block} {f : Ledger}
  {log : List (UtcTime × Block)}

/-! ## Timestamps -/

/-- A block is not older than the block below it. -/
theorem History.timestamp_le_succ (hh : History P c f log) {m : ℕ} (hx : f m = some x)
    (hy : f (m + 1) = some y) : x.timestamp.toInt ≤ y.timestamp.toInt := by
  obtain ⟨now, c₀, s, hs₀, -, -, hheight, hgood⟩ := hh.judgedGood hy
  have hindex : y.index.toNat = m + 1 := hh.settled.db.index _ _ hy
  have hx₀ : f.truncate y.index.toNat m = some x := by
    rw [Ledger.truncate_of_lt (by omega), hx]
  have hpos := ((checkBlock_accepting accepting_good).mp hgood).2
  obtain ⟨l, hl⟩ := hs₀.exists_tip hx₀
  rw [hl, checkPosition_some accepting_good] at hpos
  rw [getHeight_of_some hl] at hheight
  -- the tip of that time is the block below
  obtain ⟨a, ha, hrow⟩ := hs₀.tip l hl
  have hlm : l.index.toNat = m := by omega
  rw [hlm, hx₀, Option.some.injEq] at ha
  subst ha
  have htime : x.timestamp = l.timestamp := congrArg BlockRow.timestamp hrow
  have hnot : ¬ y.timestamp < l.timestamp := fun hlt =>
    hpos.1 ⟨hlt, UInt64.lt_iff_toNat_lt.mpr (by omega)⟩
  rw [htime]
  exact not_lt.mp fun hlt => hnot (Int64.lt_iff_toInt_lt.mpr hlt)

/-- **Timestamps do not decrease along the chain.** -/
theorem History.timestamp_mono (hh : History P c f log) {i j : ℕ} (hx : f i = some x)
    (hy : f j = some y) (hij : i ≤ j) : x.timestamp.toInt ≤ y.timestamp.toInt := by
  have hone : 1 ≤ i := by
    by_contra hlt
    have hzero : i = 0 := by omega
    rw [hzero, hh.settled.zero] at hx
    cases hx
  induction j, hij using Nat.le_induction generalizing y with
  | base =>
    rw [hx, Option.some.injEq] at hy
    rw [hy]
  | succ j hij ih =>
    have hsome : (f j).isSome := hh.settled.db.closed (j + 1) (by rw [hy]; rfl) j (by omega) (by omega)
    obtain ⟨z, hz⟩ := Option.isSome_iff_exists.mp hsome
    exact (ih hz).trans (hh.timestamp_le_succ hz hy)

/-! ## The latest full block of a key -/

/-- A full block of the key below the tip is found by `get_last_full_block`, or a later
one is. -/
theorem Settled.getLastFullBlock (hs : c.Settled P f) {before : UInt64} {key : Bytes} {m : ℕ}
    (hbefore : before.toNat < 2 ^ 63) (hx : f m = some x) (hm : m < before.toNat)
    (hfull : x.transaction.isSome) (hkey : x.pubKey = key) :
    ∃ last p z, c.getLastFullBlock before (some key) = some last ∧ m ≤ p ∧ f p = some z
      ∧ p < before.toNat ∧ z.timestamp = last.timestamp := by
  have hquery : ∃ last p z, c.db.lastFullBlock before (some key) = some last ∧ m ≤ p ∧ f p = some z
      ∧ p < before.toNat ∧ z.timestamp = last.timestamp := by
    have hcond : Db.Represents.IsFullFor (some key) x := by
      refine ⟨hfull, fun k hk => ?_⟩
      rw [Option.mem_some_iff] at hk
      rw [hkey, hk]
    cases hlast : c.db.lastFullBlock before (some key) with
    | none => exact absurd hcond (hs.db.lastFullBlock_eq_none hbefore hlast m x hx hm)
    | some last =>
      obtain ⟨p, z, hz, rfl, hp, -, hmax⟩ := hs.db.lastFullBlock_eq_some hbefore hlast
      exact ⟨_, p, z, rfl, hmax m x hx hm hcond, hz, hp, rfl⟩
  unfold Chain.getLastFullBlock
  cases hcached : c.lastFullBlock with
  | none => exact hquery
  | some full =>
    simp only
    split
    · rename_i hfast
      -- the cached block is the last full one of all, so not below this one
      have hcoherent := hs.full
      rw [hcached] at hcoherent
      obtain ⟨⟨z, hz, hrow⟩, -, hgreatest⟩ := hcoherent
      exact ⟨full, _, z, rfl, hgreatest m x hx hfull, hz, UInt64.lt_iff_toNat_lt.mp hfast.1,
        congrArg BlockRow.timestamp hrow⟩
    · exact hquery

/-! ## The rule -/

/-- A full block `y` with the key of `x` for an identity that has no row below it comes at
least a day after `x`. -/
def DayApart (c : Chain) (x y : Block) : Prop :=
  x.transaction.isSome → x.pubKey = y.pubKey →
    ∀ t, y.transaction = some t → c.db.domainById t.identity y.index = none →
      x.timestamp.toInt + newDomainsInterval.toInt ≤ y.timestamp.toInt

/-- No wait is left when the difference is not positive, whichever way it is computed: a
wrapped difference comes from a time far beyond the allowed one. -/
theorem le_of_not_lt_wait {allowed time wait : Int64} (hclose : allowed.toInt - time.toInt < 2 ^ 63)
    (hwait : subI64 P.checks allowed time = .ok wait) (hnot : ¬ 0 < wait) :
    allowed.toInt ≤ time.toInt := by
  by_contra hlt
  have hrange : -2 ^ 63 ≤ allowed.toInt - time.toInt := by omega
  rw [subI64_of_range hrange hclose, Except.ok.injEq] at hwait
  apply hnot
  have hzero : (0 : Int64).toInt = 0 := rfl
  rw [← hwait, Int64.lt_iff_toInt_lt, toInt_sub_of_range hrange hclose, hzero]
  omega

/-- **The law for two stored blocks.** -/
theorem History.dayApart (hh : History P c f log) {i j : ℕ} (hx : f i = some x) (hy : f j = some y)
    (hij : i < j) : c.DayApart x y := by
  intro hfull hkey t ht hnew
  obtain ⟨now, c₀, s, hs₀, hagree, -, hheight, hgood⟩ := hh.judgedGood hy
  have hj : y.index.toNat = j := hh.settled.db.index j y hy
  have hbound : y.index.toNat < 2 ^ 63 := by
    have := hs₀.height_le
    have := maxRows_lt
    omega
  have hx₀ : f.truncate y.index.toNat i = some x := by
    rw [Ledger.truncate_of_lt (by omega), hx]
  obtain ⟨last, p, z, hlast, hip, hz₀, hp, htime⟩ :=
    hs₀.getLastFullBlock hbound hx₀ (by omega) hfull hkey
  have hz : f p = some z := (Ledger.truncate_eq_some hz₀).2
  have hvetted := (hh.settled.clean.vetted p z hz).timestamp
  have hday : newDomainsInterval.toInt = 86400 := by decide
  have hlow := z.timestamp.le_toInt
  -- the cooldown was computed from the latest full block of the key
  have hcool : c₀.checkCooldown P y t = .ok none := by
    have hpassed := ((checkBlock_accepting accepting_good).mp hgood).1.transaction
    rw [checkTransaction, ht, firstVerdict_eq_none] at hpassed
    exact hpassed _ (by simp)
  obtain ⟨result, hresult, hfine⟩ := bind_verdictIf_eq_none.mp hcool
  rw [not_not] at hfine
  have hsum : addI64 P.checks last.timestamp newDomainsInterval
      = .ok (last.timestamp + newDomainsInterval) := by
    rw [← htime]
    exact addI64_of_range (by omega) (by omega)
  have htoInt : (last.timestamp + newDomainsInterval).toInt = z.timestamp.toInt + 86400 := by
    rw [← htime, toInt_add_of_range (by omega) (by omega), hday]
  rw [canMineIdentity, hlast] at hresult
  simp only [hsum, ok_bind] at hresult
  obtain ⟨wait, hwait, hresult⟩ := bind_eq_ok.mp hresult
  have habsent : ¬ c₀.isDomainInBlockchain y.index t.identity := by
    rw [← hagree.isDomainInBlockchain, isDomainInBlockchain, hnew]
    simp
  have hnot : ¬ 0 < wait := by
    intro hpos
    rw [if_pos ⟨habsent, hpos⟩, Except.ok.injEq] at hresult
    rw [← hresult] at hfine
    cases hfine
  have hmono := hh.timestamp_mono hz hy (by omega)
  have hle := le_of_not_lt_wait (by omega) hwait hnot
  have hearlier := hh.timestamp_mono hx hz hip
  omega

/-- **One new domain per key per day.**  In every chain grown from an empty database by
good blocks of positive index, a stored full block for an identity without an earlier row
comes at least a day after every stored full block of the same key below it. -/
theorem run_dayApart {origin : Bytes}
    (run : Run (Grow P) GrowsAtTip (Chain.new origin Db.empty, []) (c, log)) :
    ∀ e ∈ log, ∀ e' ∈ log, c.Stores e.2 → c.Stores e'.2 → e.2.index < e'.2.index →
      c.DayApart e.2 e'.2 := by
  intro e he e' he' hstores hstores' hlt
  obtain ⟨f, hh⟩ := run_history run
  exact hh.dayApart (hh.eq_some he hstores) (hh.eq_some he' hstores')
    (UInt64.lt_iff_toNat_lt.mp hlt)

end Chain

namespace Sample

/-- Two domains of the second key, a day apart. -/
def firstDomain : Block := block 2 10 3 genesis.hash (key 2) (some (domain ⟨[7]⟩))
def nextDay : Block := block 3 86410 5 (hash [3]) (key 2) (some (domain ⟨[8]⟩))

/-- A domain of the same key at index 0. -/
def belowAll : Block := block 0 10 5 (hash [3]) (key 2) (some (domain ⟨[8]⟩))

end Sample

namespace Chain

/-- Two new domains of one key on successive days. -/
theorem run_dayApart_nextDay : ∃ c log,
    Run (Grow (Sample.platform true)) GrowsAtTip (Chain.new Sample.genesis.hash Db.empty, []) (c, log)
      ∧ (Sample.now, Sample.firstDomain) ∈ log ∧ (Sample.now, Sample.nextDay) ∈ log
      ∧ c.db.domainById ⟨[8]⟩ 3 = none ∧ c.DayApart Sample.firstDomain Sample.nextDay := by
  have hrun : ∃ c, (Chain.new Sample.genesis.hash Db.empty).appendAll (Sample.platform true) Sample.now
        [Sample.genesis, Sample.firstDomain, Sample.nextDay] = .ok (some c)
      ∧ c.getBlock 2 = some Sample.firstDomain.collapse
      ∧ c.getBlock 3 = some Sample.nextDay.collapse
      ∧ c.db.domainById ⟨[8]⟩ 3 = none := by
    decide +kernel
  obtain ⟨c, hc, hfirst, hnext, hnew⟩ := hrun
  have hrun' : Run (Grow (Sample.platform true)) GrowsAtTip
      (Chain.new Sample.genesis.hash Db.empty, []) (c, ([Sample.genesis, Sample.firstDomain,
        Sample.nextDay].map fun b => (Sample.now, b)).reverse ++ []) := by
    refine appendAll_grow [] (fun g b hb => ?_) hc
    simp only [List.mem_cons, List.not_mem_nil, or_false] at hb
    show b.index ≠ 0
    rcases hb with rfl | rfl | rfl <;> decide
  have hmem₁ : (Sample.now, Sample.firstDomain) ∈ ([Sample.genesis, Sample.firstDomain,
      Sample.nextDay].map fun b => (Sample.now, b)).reverse ++ [] := by simp
  have hmem₂ : (Sample.now, Sample.nextDay) ∈ ([Sample.genesis, Sample.firstDomain,
      Sample.nextDay].map fun b => (Sample.now, b)).reverse ++ [] := by simp
  exact ⟨c, _, hrun', hmem₁, hmem₂, hnew,
    run_dayApart hrun' _ hmem₁ _ hmem₂ hfirst hnext (by decide)⟩

/-- In a build without overflow checks, a domain block of index 0 is judged good after the
domain block 2 of the same key, at the same time.  The identity of block 2 has no earlier
row, and block 0 is not a day older. -/
theorem not_dayApart_belowAll : ∃ c log,
    Run (Grow (Sample.platform false)) (fun _ _ => True)
        (Chain.new Sample.genesis.hash Db.empty, []) (c, log)
      ∧ (Sample.now, Sample.belowAll) ∈ log ∧ (Sample.now, Sample.firstDomain) ∈ log
      ∧ c.Stores Sample.belowAll ∧ c.Stores Sample.firstDomain
      ∧ Sample.belowAll.index < Sample.firstDomain.index
      ∧ ¬ c.DayApart Sample.belowAll Sample.firstDomain := by
  have hrun : ∃ c, (Chain.new Sample.genesis.hash Db.empty).appendAll (Sample.platform false) Sample.now
        [Sample.genesis, Sample.firstDomain, Sample.belowAll] = .ok (some c)
      ∧ c.getBlock 0 = some Sample.belowAll.collapse
      ∧ c.getBlock 2 = some Sample.firstDomain.collapse
      ∧ c.db.domainById ⟨[7]⟩ 2 = none := by
    decide +kernel
  obtain ⟨c, hc, hzero, hfirst, hnew⟩ := hrun
  refine ⟨c, _, appendAll_grow [] (fun _ _ _ => trivial) hc, by simp, by simp, hzero, hfirst,
    by decide, fun hday => ?_⟩
  exact absurd (hday rfl rfl _ rfl hnew) (by decide)

end Chain
