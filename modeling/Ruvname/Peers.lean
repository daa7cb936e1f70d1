/-
# The peer table

`Peers` of `p2p/peers.rs`, as far as it decides which connections stay: closing a connection,
banning an address, looking for twins.  A ban closes the connection it is about and one further
connection of the same address, so that the address keeps no connection exactly if it had at most
one further.
-/
import Ruvname.Packet
import Ruvname.Protocol

open Exec

/-- `SocketAddr` of the standard library. -/
structure SocketAddr where
  ip : IpAddr
  port : UInt16
  deriving DecidableEq

namespace P2p

/-- `State` of a peer.  Instants count nanoseconds. -/
inductive Peer.State where
  | connecting
  | connected (since : ℕ)
  | serverHandshake (since : ℕ)
  | handshakeFinished
  | idle (since : ℕ)
  | message (data : List UInt8)
  | error
  | banned
  | sendLoop
  | loop
  | twin
  | offline (since : ℕ)
  deriving DecidableEq

/-- `is_loop`. -/
def Peer.State.isLoop : Peer.State → Bool
  | .loop | .sendLoop => true
  | _ => false

/-- `Peer`. -/
structure Peer where
  addr : SocketAddr
  state : Peer.State
  id : String
  height : UInt64
  isPublic : Bool
  active : Bool
  lastActive : ℕ
  reconnects : UInt32
  receivedBlock : UInt64
  deriving DecidableEq

namespace Peer

/-- `Peer::new`. -/
def new (now : ℕ) (addr : SocketAddr) (state : Peer.State) : Peer :=
  { addr, state, id := "", height := 0, isPublic := false, active := false, lastActive := now,
    reconnects := 0, receivedBlock := 0 }

def setState (state : Peer.State) (p : Peer) : Peer := { p with state }

def setHeight (height : UInt64) (p : Peer) : Peer := { p with height }

def setPublic (isPublic : Bool) (p : Peer) : Peer := { p with isPublic }

def setActive (now : ℕ) (active : Bool) (p : Peer) : Peer :=
  { p with active, lastActive := if active then now else p.lastActive }

/-- Only peers with few attempts are reconnected, so that this does not overflow. -/
def incReconnects (p : Peer) : Peer := { p with reconnects := p.reconnects + 1 }

def resetReconnects (p : Peer) : Peer := { p with reconnects := 0 }

def setReceivedBlock (index : UInt64) (p : Peer) : Peer := { p with receivedBlock := index }

/-- `elapsed().as_secs()`. -/
def elapsedSecs (now since : ℕ) : ℕ := (now - since) / 1000000000

/-- `active()`. -/
def activeAt (now : ℕ) (p : Peer) : Bool :=
  match p.state with
  | .connected since => elapsedSecs now since < 5
  | .idle since => elapsedSecs now since < 120
  | .serverHandshake since => elapsedSecs now since < 10
  | _ => p.active && elapsedSecs now p.lastActive < 120

end Peer

/-- `Peers`: connections by their tokens, in the order of the map, and banned addresses. -/
structure Peers where
  peers : List (ℕ × Peer)
  nodup : (peers.map Prod.fst).Nodup
  ignored : IpAddr → Option ℕ
  myId : String

namespace Peers

/-- `Peers::new`. -/
def new (myId : String) : Peers := ⟨[], List.nodup_nil, fun _ => none, myId⟩

/-- `get_peer`. -/
def getPeer (t : Peers) (token : ℕ) : Option Peer := (t.peers.find? fun e => e.1 = token).map Prod.snd

/-- The tokens that are left differ. -/
theorem nodup_remove (t : Peers) (token : ℕ) :
    ((t.peers.filter fun e => e.1 ≠ token).map Prod.fst).Nodup :=
  t.nodup.sublist (List.filter_sublist.map Prod.fst)

def remove (t : Peers) (token : ℕ) : Peers :=
  { t with peers := t.peers.filter fun e => e.1 ≠ token, nodup := t.nodup_remove token }

/-- What the changes of one peer make of the connections. -/
def change (token : ℕ) (f : Peer → Peer) (e : ℕ × Peer) : ℕ × Peer :=
  if e.1 = token then (e.1, f e.2) else e

/-- A change of a peer keeps its token. -/
theorem fst_change (token : ℕ) (f : Peer → Peer) : Prod.fst ∘ change token f = Prod.fst := by
  funext e
  unfold change
  rw [Function.comp_apply]
  split <;> rfl

theorem nodup_modify (t : Peers) (token : ℕ) (f : Peer → Peer) :
    ((t.peers.map (change token f)).map Prod.fst).Nodup := by
  rw [List.map_map, fst_change]
  exact t.nodup

/-- Changes a peer through `get_mut_peer`. -/
def modify (t : Peers) (token : ℕ) (f : Peer → Peer) : Peers :=
  { t with peers := t.peers.map (change token f), nodup := t.nodup_modify token f }

/-- A new peer takes the place of one with its token. -/
theorem nodup_addPeer (t : Peers) (token : ℕ) (peer : Peer) :
    (((token, peer) :: (t.remove token).peers).map Prod.fst).Nodup := by
  rw [List.map_cons, List.nodup_cons]
  refine ⟨fun hmem => ?_, (t.remove token).nodup⟩
  obtain ⟨e, he, htoken⟩ := List.mem_map.mp hmem
  simp [remove] at he
  exact he.2 htoken

/-- `add_peer`. -/
def addPeer (t : Peers) (token : ℕ) (peer : Peer) : Peers :=
  { t with peers := (token, peer) :: (t.remove token).peers, nodup := t.nodup_addPeer token peer }

/-- `ignore_ip`. -/
def ignoreIp (now : ℕ) (t : Peers) (ip : IpAddr) : Peers :=
  { t with ignored := Function.update t.ignored ip (some now) }

/-- `close_peer`. -/
def closePeer (now : ℕ) (t : Peers) (token : ℕ) : Peers :=
  match t.getPeer token with
  | none => t
  | some peer =>
    if peer.state = .banned then (t.remove token).ignoreIp now peer.addr.ip else t.remove token

/-- `ignore_peer`. -/
def ignorePeer (now : ℕ) (t : Peers) (token : ℕ) : Exec Peers :=
  match t.getPeer token with
  | none => .error (.expect "called `Option::unwrap()` on a `None` value")
  | some peer =>
    let banned := t.modify token fun peer => if peer.state.isLoop then peer else peer.setState .banned
    let closed := (banned.closePeer now token).ignoreIp now peer.addr.ip
    match closed.peers.find? fun e => e.2.addr.ip = peer.addr.ip with
    | none => .ok closed
    | some e => .ok (closed.closePeer now e.1)

/-- `is_tween_connect`. -/
def isTweenConnect (now : ℕ) (t : Peers) (id : String) : Bool :=
  t.peers.any fun e => e.2.activeAt now ∧ e.2.id = id

/-- `get_peers_active_count`. -/
def getPeersActiveCount (now : ℕ) (t : Peers) : ℕ := t.peers.countP fun e => e.2.activeAt now

/-! ## Connections -/

variable {now token : ℕ} {t t' : Peers} {peer : Peer} {e : ℕ × Peer} {ip : IpAddr}

/-- A peer that is found is in the table. -/
theorem mem_of_getPeer (h : t.getPeer token = some peer) : (token, peer) ∈ t.peers := by
  obtain ⟨e, he, rfl⟩ := Option.map_eq_some_iff.mp h
  have htoken : e.1 = token := by simpa using List.find?_some he
  rw [← htoken]
  exact List.mem_of_find?_eq_some he

/-- A token belongs to one connection. -/
theorem eq_of_mem {e' : ℕ × Peer} (he : e ∈ t.peers) (he' : e' ∈ t.peers) (h : e.1 = e'.1) : e = e' :=
  List.inj_on_of_nodup_map t.nodup he he' h

/-- A peer that is closed is removed. -/
theorem peers_closePeer : (t.closePeer now token).peers = t.peers.filter fun e => e.1 ≠ token := by
  unfold closePeer
  cases hpeer : t.getPeer token with
  | none =>
    rw [getPeer, Option.map_eq_none_iff, List.find?_eq_none] at hpeer
    refine (List.filter_eq_self.mpr fun e he => ?_).symm
    simpa using hpeer e he
  | some peer =>
    dsimp only
    split <;> rfl

/-- An address that is ignored is on the list. -/
theorem ignored_ignoreIp : (t.ignoreIp now ip).ignored ip ≠ none := by
  show Function.update t.ignored ip (some now) ip ≠ none
  rw [Function.update_self]
  exact Option.some_ne_none _

/-- An address that is ignored stays so. -/
theorem ignored_closePeer (h : t.ignored ip ≠ none) : (t.closePeer now token).ignored ip ≠ none := by
  unfold closePeer
  cases t.getPeer token with
  | none => exact h
  | some peer =>
    dsimp only
    split
    · by_cases hip : ip = peer.addr.ip
      · rw [hip]
        exact ignored_ignoreIp
      · show Function.update t.ignored peer.addr.ip (some now) ip ≠ none
        rw [Function.update_of_ne hip]
        exact h
    · exact h

/-- What is done to a connection before it is closed makes no difference to the others. -/
theorem filter_modify {f : Peer → Peer} :
    ((t.modify token f).peers.filter fun e => e.1 ≠ token) = t.peers.filter fun e => e.1 ≠ token := by
  show ((t.peers.map (change token f)).filter _) = _
  induction t.peers with
  | nil => rfl
  | cons e l ih =>
    rw [List.map_cons]
    by_cases htoken : e.1 = token
    · rw [change, if_pos htoken, List.filter_cons_of_neg (by simpa using htoken),
        List.filter_cons_of_neg (by simpa using htoken), ih]
    · rw [change, if_neg htoken, List.filter_cons_of_pos (by simpa using htoken),
        List.filter_cons_of_pos (by simpa using htoken), ih]

/-! ## Banning -/

/-- **The address is banned**: it is ignored, has no connection, and nobody else has lost one. -/
structure Banished (ip : IpAddr) (t t' : Peers) : Prop where
  ignored : t'.ignored ip ≠ none
  gone : ∀ e ∈ t'.peers, e.2.addr.ip ≠ ip
  others : ∀ e : ℕ × Peer, e.2.addr.ip ≠ ip → (e ∈ t'.peers ↔ e ∈ t.peers)

/-- The other connections of the address. -/
def further (t : Peers) (token : ℕ) (ip : IpAddr) : List (ℕ × Peer) :=
  (t.peers.filter fun e => e.1 ≠ token).filter fun e => e.2.addr.ip = ip

/-- After the named connection is closed, the address is ignored and only its further connections
are left. -/
theorem ignorePeer_cases (now : ℕ) (h : t.getPeer token = some peer) : ∃ closed : Peers,
    (closed.peers = t.peers.filter fun e => e.1 ≠ token) ∧ closed.ignored peer.addr.ip ≠ none
    ∧ (t.further token peer.addr.ip = [] ∧ t.ignorePeer now token = .ok closed
      ∨ ∃ e rest, t.further token peer.addr.ip = e :: rest
        ∧ t.ignorePeer now token = .ok (closed.closePeer now e.1)) := by
  unfold ignorePeer
  rw [h]
  dsimp only
  generalize hclosed : ((t.modify token _).closePeer now token).ignoreIp now peer.addr.ip = closed
  have hpeers : closed.peers = t.peers.filter fun e => e.1 ≠ token := by
    rw [← hclosed]
    show ((t.modify token _).closePeer now token).peers = _
    rw [peers_closePeer, filter_modify]
  have hfind : (closed.peers.find? fun e => e.2.addr.ip = peer.addr.ip)
      = (t.further token peer.addr.ip).head? := by
    rw [hpeers, further, List.head?_filter]
  refine ⟨closed, hpeers, ?_, ?_⟩
  · rw [← hclosed]
    exact ignored_ignoreIp
  · rw [hfind]
    cases hfurther : t.further token peer.addr.ip with
    | nil => exact Or.inl ⟨rfl, rfl⟩
    | cons e rest => exact Or.inr ⟨e, rest, rfl, rfl⟩

/-- **A ban leaves the address without a connection exactly if it had at most one further
connection.** -/
theorem ignorePeer_iff (now : ℕ) (h : t.getPeer token = some peer) :
    ∃ t', t.ignorePeer now token = .ok t' ∧
      (Banished peer.addr.ip t t' ↔ (t.further token peer.addr.ip).length ≤ 1) := by
  have hmem := mem_of_getPeer h
  have hother : ∀ e : ℕ × Peer, e.2.addr.ip ≠ peer.addr.ip → e ∈ t.peers → e.1 ≠ token := by
    rintro e hip he rfl
    exact hip (by rw [eq_of_mem he hmem rfl])
  obtain ⟨closed, hpeers, hignored, ⟨hnil, heq⟩ | ⟨e, rest, hcons, heq⟩⟩ := ignorePeer_cases now h
  · -- there is no further connection
    refine ⟨closed, heq, fun _ => by rw [hnil]; exact Nat.zero_le _, fun _ => ⟨hignored, ?_, ?_⟩⟩
    · intro e he hip
      have hfurther : e ∈ t.further token peer.addr.ip :=
        List.mem_filter.mpr ⟨hpeers ▸ he, decide_eq_true hip⟩
      rw [hnil] at hfurther
      cases hfurther
    · intro e hip
      rw [hpeers, List.mem_filter]
      exact ⟨fun he => he.1, fun he => ⟨he, decide_eq_true (hother e hip he)⟩⟩
  · -- one further connection is closed, too
    have hfurther : ∀ x, x ∈ e :: rest ↔ (x ∈ t.peers ∧ x.1 ≠ token) ∧ x.2.addr.ip = peer.addr.ip := by
      intro x
      rw [← hcons, further, List.mem_filter, List.mem_filter, decide_eq_true_iff, decide_eq_true_iff]
    have hclosed : ∀ x, x ∈ (closed.closePeer now e.1).peers
        ↔ (x ∈ t.peers ∧ x.1 ≠ token) ∧ x.1 ≠ e.1 := by
      intro x
      rw [peers_closePeer, hpeers, List.mem_filter, List.mem_filter, decide_eq_true_iff,
        decide_eq_true_iff]
    have hdistinct : ∀ x ∈ rest, x.1 ≠ e.1 := by
      have hnodup : ((t.further token peer.addr.ip).map Prod.fst).Nodup :=
        (t.nodup_remove token).sublist (List.filter_sublist.map Prod.fst)
      rw [hcons, List.map_cons, List.nodup_cons] at hnodup
      intro x hx heq
      exact hnodup.1 (List.mem_map.mpr ⟨x, hx, heq⟩)
    obtain ⟨⟨he, hetoken⟩, heip⟩ := (hfurther e).mp List.mem_cons_self
    refine ⟨closed.closePeer now e.1, heq, fun hbanished => ?_, fun hlength => ⟨?_, ?_, ?_⟩⟩
    · rw [hcons]
      cases rest with
      | nil => exact le_refl _
      | cons x rest =>
        have hx := (hfurther x).mp (by simp)
        exact absurd hx.2 (hbanished.gone x ((hclosed x).mpr ⟨hx.1, hdistinct x List.mem_cons_self⟩))
    · exact ignored_closePeer hignored
    · intro x hx hip
      rw [hcons, List.length_cons] at hlength
      have hrest : rest = [] := List.length_eq_zero_iff.mp (by omega)
      obtain ⟨hxt, hxe⟩ := (hclosed x).mp hx
      have hxmem := (hfurther x).mpr ⟨hxt, hip⟩
      rw [hrest, List.mem_singleton] at hxmem
      exact hxe (by rw [hxmem])
    · intro x hip
      rw [hclosed]
      refine ⟨fun hx => hx.1.1, fun hx => ⟨⟨hx, hother x hip hx⟩, fun heq => hip ?_⟩⟩
      rw [eq_of_mem hx he heq, heip]

/-! ### Connections of one address -/

/-- A connection from an address. -/
def crowdPeer (i : ℕ) : Peer := Peer.new 0 ⟨.v4 ⟨#v[192, 0, 2, 1]⟩, UInt16.ofNat i⟩ (.connected 0)

/-- So many connections of that address, and one of another. -/
def crowd (n : ℕ) : Peers :=
  (List.range n).foldl (fun t i => t.addPeer i (crowdPeer i))
    ((new "abcdef").addPeer 100 (Peer.new 0 ⟨.v4 ⟨#v[192, 0, 2, 2]⟩, 4442⟩ (.connected 0)))

/-- Both connections of the address are closed. -/
theorem banished_crowd_two : ∃ t', (crowd 2).ignorePeer 0 0 = .ok t' ∧
    Banished (crowdPeer 0).addr.ip (crowd 2) t' := by
  have hban : ∃ t', (crowd 2).ignorePeer 0 0 = .ok t' ∧ (Banished (crowdPeer 0).addr.ip (crowd 2) t'
      ↔ ((crowd 2).further 0 (crowdPeer 0).addr.ip).length ≤ 1) := ignorePeer_iff 0 (by decide)
  obtain ⟨t', heq, hiff⟩ := hban
  exact ⟨t', heq, hiff.mpr (by decide)⟩

/-- Of three connections one survives the ban. -/
theorem not_banished_crowd_three : ¬ ∀ (now : ℕ) (t : Peers) (token : ℕ) (peer : Peer),
    t.getPeer token = some peer →
    ∃ t', t.ignorePeer now token = .ok t' ∧ Banished peer.addr.ip t t' := by
  intro h
  obtain ⟨t', heq, hbanished⟩ := h 0 (crowd 3) 0 (crowdPeer 0) (by decide)
  have hleft : ∃ t', (crowd 3).ignorePeer 0 0 = .ok t' ∧ (1, crowdPeer 1) ∈ t'.peers :=
    ⟨_, rfl, by decide⟩
  obtain ⟨t'', heq', hmem⟩ := hleft
  rw [heq, Except.ok.injEq] at heq'
  rw [← heq'] at hmem
  exact hbanished.gone _ hmem rfl

end Peers

end P2p
