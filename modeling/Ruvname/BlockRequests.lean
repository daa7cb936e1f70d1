/-
# Requests for blocks

`ask_blocks_from_peers` of `p2p/peers.rs`, and the part of `update` that calls it.  At most as many
peers are chosen as blocks are missing, and asked in any order for one block after the other, from
the own height on.  A block that has come already still takes its turn from a peer.  So the peers
are used up before the blocks are, and the bound holds although `continue` jumps over its check.
-/
import Ruvname.Numbering
import Ruvname.Peers

open Exec Numbering

namespace P2p

/-- A random number generator, and what `choose_multiple` and `shuffle` promise. -/
structure Rng (α : Type) where
  chooseMultiple : List α → ℕ → List α
  chooseMultiple_subperm : ∀ l amount, List.Subperm (chooseMultiple l amount) l
  length_chooseMultiple : ∀ l amount, (chooseMultiple l amount).length = min amount l.length
  shuffle : List α → List α
  shuffle_perm : ∀ l, List.Perm (shuffle l) l

/-- `is_idle`. -/
def Peer.State.isIdle : Peer.State → Bool
  | .idle _ => true
  | _ => false

/-- `has_more_blocks`. -/
def Peer.hasMoreBlocks (height : UInt64) (p : Peer) : Bool :=
  if p.height ≤ height then false
  else if p.receivedBlock > height then false
  else if ¬ p.state.isIdle then false
  else p.height > height

/-- What the program runs on: the build profile, the bits of a `usize`, the random numbers and the
registry of the poll. -/
structure Machine where
  checks : Bool
  usizeBits : ℕ
  rng : Rng (ℕ × Peer)
  /-- Whether `reregister` succeeds for a token. -/
  reregister : ℕ → Bool

namespace Peers

/-- The peer table, and the tokens and blocks of the requests so far, the first one first. -/
structure Asking where
  table : Peers
  requests : List (ℕ × UInt64)

namespace Asking

def start (t : Peers) : Asking := ⟨t, []⟩

/-- `set_state` with a `GetBlock` message. -/
def ask (a : Asking) (r : ℕ × UInt64) : Asking where
  table := a.table.modify r.1 (Peer.setState (.message (Message.getBlock r.2).toVec))
  requests := a.requests ++ [r]

end Asking

variable (M : Machine) (t : Peers) (height maxHeight : UInt64) (haveBlocks : Finset UInt64)

/-- The loop of `ask_blocks_from_peers`: what it leaves, and how it ends. -/
def askLoop : List (ℕ × Peer) → UInt64 → Asking → Asking × Exec Unit
  | [], _, a => (a, .ok ())
  | (token, _) :: peers, index, a =>
    if index ∈ haveBlocks then
      match addU64 M.checks index 1 with
      | .error fault => (a, .error fault)
      | .ok next => askLoop peers next a
    else if ¬ M.reregister token then
      (a, .error (.expect "called `Result::unwrap()` on an `Err` value"))
    else
      match addU64 M.checks index 1 with
      | .error fault => (a.ask (token, index), .error fault)
      | .ok next =>
        if next > maxHeight then (a.ask (token, index), .ok ())
        else askLoop peers next (a.ask (token, index))

/-- The peers that can be asked. -/
def eligible : List (ℕ × Peer) := t.peers.filter fun e => e.2.hasMoreBlocks height

/-- The peers that are asked, in order. -/
def chosen (amount : UInt64) : List (ℕ × Peer) :=
  M.rng.shuffle (M.rng.chooseMultiple (t.eligible height) (amount.toNat % 2 ^ M.usizeBits))

/-- `ask_blocks_from_peers`. -/
def askBlocksFromPeers : Asking × Exec Unit :=
  match subU64 M.checks maxHeight height, addU64 M.checks height 1 with
  | .error fault, _ => (.start t, .error fault)
  | .ok _, .error fault => (.start t, .error fault)
  | .ok amount, .ok index =>
    askLoop M maxHeight haveBlocks (t.chosen M height amount) index (.start t)

/-- `MIN_CONNECTED_NODES_START_SYNC`. -/
def minConnectedNodesStartSync : ℕ := 4

/-- The part of `update` that asks for blocks, with the number of active peers and the outcome of
`random::<bool>()`. -/
def updateSync (nodes : ℕ) (coin : Bool) : Asking × Exec Unit :=
  if minConnectedNodesStartSync ≤ nodes ∧ height < maxHeight then
    if 10 ≤ nodes ∨ coin then
      match subU64 M.checks maxHeight height with
      | .error fault => (.start t, .error fault)
      | .ok missing =>
        match addU64 M.checks height (min missing (UInt64.ofNat nodes)) with
        | .error fault => (.start t, .error fault)
        | .ok bound => askBlocksFromPeers M t height bound haveBlocks
    else (.start t, .ok ())
  else (.start t, .ok ())

/-! ## One request after the other -/

variable {M t height maxHeight haveBlocks} {index : UInt64} {a : Asking} {made : List (ℕ × UInt64)}
  {peers : List (ℕ × Peer)}

/-- The blocks that have not come. -/
def missingBlock (haveBlocks : Finset UInt64) (n : ℕ) : Bool := UInt64.ofNat n ∉ haveBlocks

/-- A request with its block as a natural number. -/
def natRequest (r : ℕ × UInt64) : ℕ × ℕ := (r.1, r.2.toNat)

/-- A block is missing if it does not wait in the bucket. -/
theorem missingBlock_toNat : missingBlock haveBlocks index.toNat = decide (index ∉ haveBlocks) := by
  rw [missingBlock, UInt64.ofNat_toNat]

/-- **Requests in order**: these are made, one after the other, and all of them unless something
stops the loop. -/
structure AskedInOrder (order : List (ℕ × ℕ)) (a : Asking) (made : List (ℕ × UInt64))
    (out : Asking × Exec Unit) : Prop where
  eq : out.1 = made.foldl Asking.ask a
  inOrder : made.map natRequest <+: order
  complete : out.2 = .ok () → made.map natRequest = order

namespace AskedInOrder

variable {order : List (ℕ × ℕ)} {out : Asking × Exec Unit}

/-- Nobody is asked. -/
theorem nil : AskedInOrder [] a [] (a, .ok ()) := ⟨rfl, List.nil_prefix, fun _ => rfl⟩

/-- The loop may stop on a fault. -/
theorem stopped (fault : Fault) : AskedInOrder order a [] (a, .error fault) :=
  ⟨rfl, List.nil_prefix, fun h => by cases h⟩

/-- One more peer is asked for the next block. -/
theorem cons {token : ℕ} (h : AskedInOrder order (a.ask (token, index)) made out) :
    AskedInOrder ((token, index.toNat) :: order) a ((token, index) :: made) out where
  eq := h.eq
  inOrder := (List.prefix_cons_inj _).mpr h.inOrder
  complete hok := by rw [List.map_cons, h.complete hok, natRequest]

end AskedInOrder

/-- Only behind the last peer can the next index wrap. -/
theorem numbered_next (free : ℕ → Bool) (h : index.toNat + peers.length ≤ maxHeight.toNat) :
    (index + 1).toNat + peers.length ≤ maxHeight.toNat + 1 ∧
      numbered free (peers.map Prod.fst) (index + 1).toNat
        = numbered free (peers.map Prod.fst) (index.toNat + 1) := by
  have hmax := maxHeight.toNat_lt
  by_cases hlt : index.toNat + 1 < 2 ^ 64
  · rw [toNat_add_one hlt]
    exact ⟨by omega, rfl⟩
  · have hnil : peers = [] := List.length_eq_zero_iff.mp (by omega)
    have hwrap : (index + 1).toNat = 0 := by
      have hindex := index.toNat_lt
      rw [UInt64.toNat_add, UInt64.toNat_one]
      omega
    rw [hnil, hwrap]
    exact ⟨Nat.zero_le _, rfl⟩

/-- The loop asks in order if there are enough blocks for the peers, by induction on these. -/
theorem askLoop_inOrder (h : index.toNat + peers.length ≤ maxHeight.toNat + 1) :
    ∃ made, AskedInOrder (numbered (missingBlock haveBlocks) (peers.map Prod.fst) index.toNat) a
      made (askLoop M maxHeight haveBlocks peers index a) := by
  induction peers generalizing index a with
  | nil => exact ⟨[], .nil⟩
  | cons e peers ih =>
    obtain ⟨token, peer⟩ := e
    rw [List.length_cons] at h
    have hroom : index.toNat + peers.length ≤ maxHeight.toNat := by omega
    obtain ⟨hnext, hnumbered⟩ := numbered_next (missingBlock haveBlocks) hroom
    rw [List.map_cons]
    unfold askLoop
    split
    · -- the block has come: its turn is over
      rename_i hhave
      rw [numbered_cons_of_not_free (by simp [missingBlock_toNat, hhave])]
      cases hadd : addU64 M.checks index 1 with
      | error fault => exact ⟨[], .stopped fault⟩
      | ok next =>
        obtain rfl := guarded_eq_ok hadd
        rw [← hnumbered]
        exact ih hnext
    · rename_i hhave
      rw [numbered_cons_of_free (by simp [missingBlock_toNat, hhave])]
      split
      · exact ⟨[], .stopped _⟩
      · cases hadd : addU64 M.checks index 1 with
        | error fault => exact ⟨[(token, index)], .cons (.stopped fault)⟩
        | ok next =>
          obtain rfl := guarded_eq_ok hadd
          rw [← hnumbered]
          dsimp only
          split
          · -- the bound is passed behind the last peer only
            rename_i hgt
            have hgt' := UInt64.lt_iff_toNat_lt.mp hgt
            have hnil : peers = [] := List.length_eq_zero_iff.mp (by omega)
            rw [hnil, List.map_nil, numbered_nil]
            exact ⟨[(token, index)], .cons .nil⟩
          · obtain ⟨made, hmade⟩ := ih hnext (a := a.ask (token, index))
            exact ⟨(token, index) :: made, hmade.cons⟩

/-! ## Who is asked -/

/-- Only eligible peers are chosen, each at most once. -/
theorem chosen_subperm (amount : UInt64) :
    List.Subperm (t.chosen M height amount) (t.eligible height) :=
  (M.rng.shuffle_perm _).subperm.trans (M.rng.chooseMultiple_subperm _ _)

/-- As many are chosen as there are to choose and as are asked for. -/
theorem length_chosen (amount : UInt64) : (t.chosen M height amount).length
    = min (amount.toNat % 2 ^ M.usizeBits) (t.eligible height).length := by
  unfold chosen
  rw [(M.rng.shuffle_perm _).length_eq, M.rng.length_chooseMultiple]

/-- There are no more peers than blocks. -/
theorem length_chosen_le (h : height ≤ maxHeight) :
    (t.chosen M height (maxHeight - height)).length ≤ maxHeight.toNat - height.toNat := by
  rw [length_chosen, ← UInt64.toNat_sub_of_le _ _ h]
  exact (Nat.min_le_left _ _).trans (Nat.mod_le _ _)

/-- No peer is chosen twice. -/
theorem nodup_chosen (amount : UInt64) : ((t.chosen M height amount).map Prod.fst).Nodup := by
  obtain ⟨l, hperm, hsublist⟩ : List.Subperm (t.chosen M height amount) (t.eligible height) :=
    chosen_subperm amount
  rw [← (hperm.map Prod.fst).nodup_iff]
  exact t.nodup.sublist ((hsublist.trans List.filter_sublist).map Prod.fst)

/-- A peer has more blocks if it says so, has been asked for none of them and is idle. -/
theorem hasMoreBlocks_iff {p : Peer} : p.hasMoreBlocks height = true ↔
    height < p.height ∧ p.receivedBlock ≤ height ∧ ∃ since, p.state = .idle since := by
  have hidle : p.state.isIdle = true ↔ ∃ since, p.state = .idle since := by
    cases p.state <;> simp [Peer.State.isIdle]
  unfold Peer.hasMoreBlocks
  rw [← hidle]
  split_ifs with hheight hreceived hstate
  · simp [UInt64.not_lt.mpr hheight]
  · simp [UInt64.not_le.mpr hreceived]
  · rw [decide_eq_true_iff]
    exact ⟨fun h => ⟨h, UInt64.not_lt.mp hreceived, hstate⟩, fun h => h.1⟩
  · simp [hstate]

/-- A peer of the table is found under its token. -/
theorem getPeer_of_mem {e : ℕ × Peer} (h : e ∈ t.peers) : t.getPeer e.1 = some e.2 := by
  unfold getPeer
  cases hfind : t.peers.find? fun e' => e'.1 = e.1 with
  | none => exact absurd (decide_eq_true rfl) (List.find?_eq_none.mp hfind e h)
  | some e' =>
    have htoken : e'.1 = e.1 := by simpa using List.find?_some hfind
    rw [Option.map_some, eq_of_mem (List.mem_of_find?_eq_some hfind) h htoken]

/-- Who is chosen is idle, and has announced more blocks. -/
theorem exists_of_mem_chosen {token : ℕ} {amount : UInt64}
    (h : token ∈ (t.chosen M height amount).map Prod.fst) :
    ∃ peer since, t.getPeer token = some peer ∧ peer.state = .idle since
      ∧ height < peer.height := by
  obtain ⟨e, he, rfl⟩ := List.mem_map.mp h
  obtain ⟨hmem, hmore⟩ := List.mem_filter.mp ((chosen_subperm amount).subset he)
  obtain ⟨hheight, -, since, hidle⟩ := hasMoreBlocks_iff.mp hmore
  exact ⟨e.2, since, getPeer_of_mem hmem, hidle, hheight⟩

/-- `ask_blocks_from_peers` asks the chosen peers in order, from the block after the height on. -/
theorem askBlocksFromPeers_inOrder (h : height ≤ maxHeight) :
    ∃ made, AskedInOrder (numbered (missingBlock haveBlocks)
        ((t.chosen M height (maxHeight - height)).map Prod.fst) (height.toNat + 1))
      (.start t) made (t.askBlocksFromPeers M height maxHeight haveBlocks) := by
  have hle := UInt64.le_iff_toNat_le.mp h
  have hroom : height.toNat + (t.chosen M height (maxHeight - height)).length
      ≤ maxHeight.toNat := by
    have hlength : (t.chosen M height (maxHeight - height)).length ≤ _ := length_chosen_le h
    omega
  obtain ⟨hnext, hnumbered⟩ := numbered_next (missingBlock haveBlocks) hroom
  unfold askBlocksFromPeers
  rw [subU64_of_le hle]
  cases hadd : addU64 M.checks height 1 with
  | error fault => exact ⟨[], .stopped fault⟩
  | ok next =>
    obtain rfl := guarded_eq_ok hadd
    rw [← hnumbered]
    exact askLoop_inOrder hnext

/-! ## What the table becomes -/

/-- What the requests make of a connection. -/
def answered (requests : List (ℕ × UInt64)) (e : ℕ × Peer) : ℕ × Peer :=
  match requests.find? fun r => r.1 = e.1 with
  | none => e
  | some r => (e.1, e.2.setState (.message (Message.getBlock r.2).toVec))

/-- All requests are noted in their order. -/
theorem requests_foldl_ask : (made.foldl Asking.ask a).requests = a.requests ++ made := by
  induction made generalizing a with
  | nil => rw [List.foldl_nil, List.append_nil]
  | cons r made ih =>
    rw [List.foldl_cons, ih]
    show a.requests ++ [r] ++ made = _
    rw [List.append_assoc, List.singleton_append]

/-- Requests to different peers change these, each its own. -/
theorem peers_foldl_ask (h : (made.map Prod.fst).Nodup) :
    (made.foldl Asking.ask a).table.peers = a.table.peers.map (answered made) := by
  induction made generalizing a with
  | nil => exact (List.map_id _).symm
  | cons r made ih =>
    rw [List.map_cons, List.nodup_cons] at h
    rw [List.foldl_cons, ih h.2]
    show (a.table.peers.map _).map (answered made) = _
    rw [List.map_map]
    refine List.map_congr_left fun e _ => ?_
    rw [Function.comp_apply, change]
    unfold answered
    by_cases htoken : e.1 = r.1
    · have hfind : (made.find? fun r' => r'.1 = e.1) = none := by
        rw [List.find?_eq_none]
        intro r' hr' heq
        exact h.1 (List.mem_map.mpr ⟨r', hr', by rw [← htoken, of_decide_eq_true heq]⟩)
      rw [if_pos htoken, hfind, List.find?_cons_of_pos (by simpa using htoken.symm)]
    · rw [if_neg htoken, List.find?_cons_of_neg (by simpa using fun h => htoken h.symm)]

/-! ## The requests -/

/-- **The requests are distinct and in range**, and the table has them and is else unchanged. -/
structure DistinctRequests (t : Peers) (height maxHeight : UInt64) (haveBlocks : Finset UInt64)
    (a : Asking) : Prop where
  distinct : (a.requests.map Prod.snd).Nodup
  inRange : ∀ r ∈ a.requests, height < r.2 ∧ r.2 ≤ maxHeight
  missing : ∀ r ∈ a.requests, r.2 ∉ haveBlocks
  waiting : ∀ r ∈ a.requests, ∃ peer since,
    t.getPeer r.1 = some peer ∧ peer.state = .idle since ∧ height < peer.height
  once : (a.requests.map Prod.fst).Nodup
  table : a.table.peers = t.peers.map (answered a.requests)

namespace DistinctRequests

variable {bound : UInt64}

/-- Nothing has been asked for to begin with. -/
theorem start : DistinctRequests t height maxHeight haveBlocks (.start t) where
  distinct := List.nodup_nil
  inRange _ hr := absurd hr List.not_mem_nil
  missing _ hr := absurd hr List.not_mem_nil
  waiting _ hr := absurd hr List.not_mem_nil
  once := List.nodup_nil
  table := (List.map_id _).symm

/-- The bound may be raised. -/
theorem mono (h : DistinctRequests t height bound haveBlocks a) (hle : bound ≤ maxHeight) :
    DistinctRequests t height maxHeight haveBlocks a :=
  { h with inRange := fun r hr => ⟨(h.inRange r hr).1, UInt64.le_trans (h.inRange r hr).2 hle⟩ }

end DistinctRequests

/-- The requests are those that were made. -/
theorem AskedInOrder.requests {order : List (ℕ × ℕ)} {out : Asking × Exec Unit}
    (h : AskedInOrder order (.start t) made out) : out.1.requests = made := by
  rw [h.eq, requests_foldl_ask]
  rfl

/-- Who is asked in order is asked for distinct blocks in range. -/
theorem AskedInOrder.distinctRequests {out : Asking × Exec Unit} (hle : height ≤ maxHeight)
    (h : AskedInOrder (numbered (missingBlock haveBlocks)
        ((t.chosen M height (maxHeight - height)).map Prod.fst) (height.toNat + 1))
      (.start t) made out) : DistinctRequests t height maxHeight haveBlocks out.1 := by
  have hrequests := h.requests
  have hnat : (made.map natRequest).map Prod.fst = made.map Prod.fst := by
    rw [List.map_map]
    rfl
  have honce : (made.map Prod.fst).Nodup := by
    rw [← hnat]
    exact nodup_fst_of_isPrefix h.inOrder (nodup_chosen _)
  have hmem : ∀ r ∈ made, r.1 ∈ (t.chosen M height (maxHeight - height)).map Prod.fst
      ∧ height.toNat + 1 ≤ r.2.toNat ∧ r.2.toNat ≤ maxHeight.toNat ∧ r.2 ∉ haveBlocks := by
    intro r hr
    obtain ⟨htoken, hlow, hhigh, hmissing⟩ := mem_of_isPrefix h.inOrder (List.mem_map_of_mem hr)
    have hlength : (t.chosen M height (maxHeight - height)).length ≤ _ := length_chosen_le hle
    have hle' := UInt64.le_iff_toNat_le.mp hle
    rw [List.length_map] at hhigh
    refine ⟨htoken, hlow, ?_, ?_⟩
    · show (natRequest r).2 ≤ _
      omega
    · rw [natRequest, missingBlock_toNat] at hmissing
      exact of_decide_eq_true hmissing
  have hdistinct : (made.map Prod.snd).Nodup := by
    have hnodup := nodup_snd_of_isPrefix h.inOrder
    have hsnd : (made.map natRequest).map Prod.snd = (made.map Prod.snd).map UInt64.toNat := by
      rw [List.map_map, List.map_map]
      rfl
    rw [hsnd] at hnodup
    exact hnodup.of_map _
  constructor
  · rwa [hrequests]
  · intro r hr
    obtain ⟨-, hlow, hhigh, -⟩ := hmem r (hrequests ▸ hr)
    exact ⟨UInt64.lt_iff_toNat_lt.mpr hlow, UInt64.le_iff_toNat_le.mpr hhigh⟩
  · exact fun r hr => (hmem r (hrequests ▸ hr)).2.2.2
  · exact fun r hr => exists_of_mem_chosen (hmem r (hrequests ▸ hr)).1
  · rwa [hrequests]
  · rw [hrequests, h.eq]
    exact peers_foldl_ask honce

/-- **Requests for blocks are distinct and in range.** -/
theorem askBlocksFromPeers_distinct (M : Machine) (t : Peers) (haveBlocks : Finset UInt64)
    (h : height < maxHeight) :
    DistinctRequests t height maxHeight haveBlocks
      (t.askBlocksFromPeers M height maxHeight haveBlocks).1 := by
  have hle : height ≤ maxHeight := UInt64.le_of_lt h
  obtain ⟨made, hmade⟩ := askBlocksFromPeers_inOrder hle
  exact hmade.distinctRequests hle

/-- Three idle peers with nine blocks. -/
def threeIdle : Peers :=
  (List.range 3).foldl
    (fun t i => t.addPeer i (((crowdPeer i).setState (.idle 0)).setHeight 9)) (new "abcdef")

/-- A machine that takes the first peers, the last one first. -/
def lastFirst : Machine where
  checks := true
  usizeBits := 64
  rng :=
    { chooseMultiple := fun l amount => l.take amount
      chooseMultiple_subperm := fun l amount => (List.take_sublist amount l).subperm
      length_chooseMultiple := fun _ _ => List.length_take
      shuffle := List.reverse
      shuffle_perm := List.reverse_perm }
  reregister := fun _ => true

/-- Of the three blocks after the third one, the fifth has come. -/
theorem distinctRequests_threeIdle :
    (threeIdle.askBlocksFromPeers lastFirst 3 6 {5}).1.requests = [(0, 4), (2, 6)] ∧
      DistinctRequests threeIdle 3 6 {5} (threeIdle.askBlocksFromPeers lastFirst 3 6 {5}).1 :=
  ⟨by decide +kernel, askBlocksFromPeers_distinct lastFirst threeIdle {5} (by decide)⟩

/-- If nothing stops it, every missing block is asked for that there is a peer for. -/
theorem askBlocksFromPeers_complete (hle : height ≤ maxHeight)
    (hok : (t.askBlocksFromPeers M height maxHeight haveBlocks).2 = .ok ()) (block : UInt64) :
    (∃ token, (token, block) ∈ (t.askBlocksFromPeers M height maxHeight haveBlocks).1.requests)
      ↔ height < block ∧ block.toNat ≤ height.toNat
          + min ((maxHeight - height).toNat % 2 ^ M.usizeBits) (t.eligible height).length
        ∧ block ∉ haveBlocks := by
  obtain ⟨made, hmade⟩ : ∃ made, AskedInOrder _ _ made
      (t.askBlocksFromPeers M height maxHeight haveBlocks) := askBlocksFromPeers_inOrder hle
  have hnat : (∃ token, (token, block) ∈ made)
      ↔ ∃ token, (token, block.toNat) ∈ made.map natRequest := by
    constructor
    · rintro ⟨token, hmem⟩
      exact ⟨token, List.mem_map.mpr ⟨_, hmem, rfl⟩⟩
    · rintro ⟨token, hmem⟩
      obtain ⟨r, hr, heq⟩ := List.mem_map.mp hmem
      rw [natRequest, Prod.mk.injEq, UInt64.toNat_inj] at heq
      exact ⟨r.1, by rwa [← heq.2]⟩
  rw [hmade.requests, hnat, hmade.complete hok, exists_mem_numbered, List.length_map, length_chosen,
    missingBlock_toNat, decide_eq_true_iff, UInt64.lt_iff_toNat_lt]
  constructor
  · rintro ⟨hlow, hhigh, hmissing⟩
    exact ⟨hlow, by omega, hmissing⟩
  · rintro ⟨hlow, hhigh, hmissing⟩
    exact ⟨hlow, by omega, hmissing⟩

/-- What `update` passes on as the last block to ask for. -/
theorem add_min_bounds (hle : height ≤ maxHeight) (nodes : ℕ) :
    height ≤ height + min (maxHeight - height) (UInt64.ofNat nodes)
      ∧ height + min (maxHeight - height) (UInt64.ofNat nodes) ≤ maxHeight
      ∧ (height + min (maxHeight - height) (UInt64.ofNat nodes)).toNat - height.toNat ≤ nodes := by
  have hcount : (min (maxHeight - height) (UInt64.ofNat nodes)).toNat
      = min (maxHeight.toNat - height.toNat) (nodes % 2 ^ 64) := by
    rw [UInt64.toNat_min, UInt64.toNat_sub_of_le _ _ hle, UInt64.toNat_ofNat']
  generalize min (maxHeight - height) (UInt64.ofNat nodes) = count at hcount ⊢
  rw [UInt64.le_iff_toNat_le] at hle
  have hmax := maxHeight.toNat_lt
  have hmod := Nat.mod_le nodes (2 ^ 64)
  have hbound : (height + count).toNat = height.toNat + count.toNat := toNat_addU64 (by omega)
  rw [UInt64.le_iff_toNat_le, UInt64.le_iff_toNat_le, hbound]
  omega

/-- What `update` requests is distinct and in range, too, and at most one block for each active
peer. -/
theorem updateSync_distinct (M : Machine) (t : Peers) (height maxHeight : UInt64)
    (haveBlocks : Finset UInt64) (nodes : ℕ) (coin : Bool) :
    DistinctRequests t height maxHeight haveBlocks
        (t.updateSync M height maxHeight haveBlocks nodes coin).1
      ∧ (t.updateSync M height maxHeight haveBlocks nodes coin).1.requests.length ≤ nodes := by
  have hstart : DistinctRequests t height maxHeight haveBlocks (.start t)
      ∧ (Asking.start t).requests.length ≤ nodes := ⟨.start, Nat.zero_le _⟩
  unfold updateSync
  split_ifs with hsync hrequest
  · have hle : height ≤ maxHeight := UInt64.le_of_lt hsync.2
    rw [subU64_of_le (UInt64.le_iff_toNat_le.mp hle)]
    dsimp only
    cases hadd : addU64 M.checks height (min (maxHeight - height) (UInt64.ofNat nodes)) with
    | error fault => exact hstart
    | ok bound =>
      obtain rfl := guarded_eq_ok hadd
      obtain ⟨hlow, hhigh, hnodes⟩ := add_min_bounds hle nodes
      obtain ⟨made, hmade⟩ := askBlocksFromPeers_inOrder hlow
      refine ⟨(hmade.distinctRequests hlow).mono hhigh, ?_⟩
      dsimp only
      rw [hmade.requests, ← List.length_map (f := natRequest)]
      refine (length_le_of_isPrefix hmade.inOrder).trans ?_
      rw [List.length_map]
      exact (length_chosen_le hlow).trans hnodes
  · exact hstart
  · exact hstart

end Peers

end P2p
