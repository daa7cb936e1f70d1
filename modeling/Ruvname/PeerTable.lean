/-
# The peer table and the addresses it exchanges

The rest of `p2p/peer.rs`, `p2p/state.rs` and `p2p/peers.rs`: which connections are stale, disabled
or offline, which addresses are passed on to other nodes, and which addresses of theirs are kept as
candidates for a connection.
-/
import Ruvname.BlockRequests

open Exec

/-- `to_ipv4` of the standard library: an address that maps to one of the older protocol, or is
compatible to it. -/
def Ipv6Addr.toIpv4 (addr : Ipv6Addr) : Option Ipv4Addr :=
  let segments := addr.segments.toList
  let mapped := segments.getD 5 0
  if segments.take 5 = [0, 0, 0, 0, 0] ∧ (mapped = 0 ∨ mapped = 0xffff) then
    let ab := segments.getD 6 0
    let cd := segments.getD 7 0
    some ⟨#v[(ab >>> 8).toUInt8, ab.toUInt8, (cd >>> 8).toUInt8, cd.toUInt8]⟩
  else none

/-- `is_loopback` of the standard library. -/
def IpAddr.isLoopback : IpAddr → Bool
  | .v4 addr => addr.octets.toList.head? = some 127
  | .v6 addr => addr.segments.toList = [0, 0, 0, 0, 0, 0, 0, 1]

/-- `is_private` of the standard library. -/
def Ipv4Addr.isPrivate (addr : Ipv4Addr) : Bool :=
  match addr.octets.toList with
  | a :: b :: _ => a = 10 ∨ a = 172 ∧ 16 ≤ b ∧ b ≤ 31 ∨ a = 192 ∧ b = 168
  | _ => false

/-- The order of addresses in the standard library, as numbers: those of the older protocol come
first, then the address counts and then the port. -/
def SocketAddr.rank (addr : SocketAddr) : ℕ :=
  match addr.ip with
  | .v4 ip => (ip.octets.toList.foldl (fun n x => 256 * n + x.toNat) 0) * 2 ^ 16 + addr.port.toNat
  | .v6 ip =>
    2 ^ 48 + (ip.segments.toList.foldl (fun n x => 65536 * n + x.toNat) 0) * 2 ^ 16 + addr.port.toNat

/-- `skip_private_addr`. -/
def SocketAddr.skipPrivate (addr : SocketAddr) : Bool :=
  if addr.ip.isLoopback then true
  else
    match addr.ip with
    | .v4 ip => ip.isPrivate
    | .v6 _ => false

namespace P2p

namespace Peer

/-! ## What the states mean -/

namespace State

/-- `is_timed_out`. -/
def isTimedOut (now : ℕ) : State → Bool
  | .error | .banned => true
  | .idle since => elapsedSecs now since > 60
  | .connected since => elapsedSecs now since > 10
  | _ => false

/-- `disabled`. -/
def disabled (now : ℕ) : State → Bool
  | .error | .banned => true
  | .offline since => elapsedSecs now since < 60
  | _ => false

/-- `need_reconnect`. -/
def needReconnect (now : ℕ) : State → Bool
  | .offline since => elapsedSecs now since > 60
  | _ => false

end State

/-- `is_lower`. -/
def isLower (height : UInt64) (p : Peer) : Bool := p.height < height

/-- `active_recently`. -/
def activeRecently (now : ℕ) (p : Peer) : Bool := p.active ∧ elapsedSecs now p.lastActive < 10

/-- `disabled`. -/
def disabledAt (now : ℕ) (p : Peer) : Bool := p.state.disabled now ∨ 2 < p.reconnects

/-- `equals`: of a loopback address the port counts, too. -/
def equals (addr : SocketAddr) (p : Peer) : Bool :=
  if p.addr.ip.isLoopback then p.addr = addr else p.addr.ip = addr.ip

end Peer

namespace Peers

/-- `MAX_RECONNECTS`. -/
def maxReconnects : UInt32 := 5

/-- `LISTEN_PORT`. -/
def listenPort : UInt16 := 6890

/-- `is_ignored`. -/
def isIgnored (t : Peers) (ip : IpAddr) : Bool := (t.ignored ip).isSome

/-- `is_our_own_connect`. -/
def isOurOwnConnect (t : Peers) (rand : String) : Bool := t.myId = rand

/-- `skip_peer_connection`. -/
def skipPeerConnection (now : ℕ) (t : Peers) (addr : SocketAddr) : Bool :=
  t.peers.any fun e => e.2.equals addr ∧ (¬ e.2.isPublic ∨ e.2.activeAt now ∨ e.2.disabledAt now)

/-- The loop of `get_peers_for_exchange`: at most ten public and active peers besides the one that
asks. -/
def exchangeLoop (now : ℕ) (addr : SocketAddr) : List (ℕ × Peer) → List SocketAddr → List SocketAddr
  | [], result => result
  | e :: peers, result =>
    if e.2.disabledAt now ∨ e.2.equals addr then exchangeLoop now addr peers result
    else
      let result := if e.2.isPublic ∧ e.2.activeAt now then result ++ [⟨e.2.addr.ip, listenPort⟩]
        else result
      if 10 ≤ result.length then result else exchangeLoop now addr peers result

/-- `get_peers_for_exchange`, before the addresses are printed. -/
def getPeersForExchange (now : ℕ) (t : Peers) (addr : SocketAddr) : List SocketAddr :=
  exchangeLoop now addr t.peers []

/-- `close_all_peers`. -/
def closeAllPeers (now : ℕ) (t : Peers) : Peers :=
  let t := (t.peers.map Prod.fst).foldl (closePeer now) t
  { t with peers := [], nodup := List.nodup_nil }

/-- An edit keeps the tokens. -/
theorem nodup_edit (t : Peers) (g : ℕ → Peer → Peer) :
    ((t.peers.map fun e => (e.1, g e.1 e.2)).map Prod.fst).Nodup := by
  rw [List.map_map]
  exact t.nodup

/-- Changes every peer in a loop over `iter_mut`. -/
def edit (t : Peers) (g : ℕ → Peer → Peer) : Peers :=
  { t with peers := t.peers.map fun e => (e.1, g e.1 e.2), nodup := t.nodup_edit g }

/-- What is retained has different tokens. -/
theorem nodup_retain (t : Peers) (p : Peer → Bool) :
    ((t.peers.filter fun e => p e.2).map Prod.fst).Nodup :=
  t.nodup.sublist (List.filter_sublist.map Prod.fst)

/-- Keeps some peers in a call of `retain`. -/
def retain (t : Peers) (p : Peer → Bool) : Peers :=
  { t with peers := t.peers.filter fun e => p e.2, nodup := t.nodup_retain p }

/-- Addresses that have been ignored for ten minutes are forgotten. -/
def purgeIgnored (now : ℕ) (t : Peers) : Peers :=
  { t with ignored := fun ip => (t.ignored ip).filter fun since => Peer.elapsedSecs now since < 600 }

/-! ## Connections -/

variable {now token : ℕ} {t t' : Peers} {f : Peer → Peer}

/-- A change of one peer is an edit. -/
theorem modify_eq_edit (t : Peers) (token : ℕ) (f : Peer → Peer) :
    t.modify token f = t.edit fun k p => if k = token then f p else p := by
  unfold modify edit
  congr 1
  refine List.map_congr_left fun e _ => ?_
  unfold change
  by_cases htoken : e.1 = token <;> simp [htoken]

/-- **Nobody is lost and nobody is added by changes**: the connections that are left are some of
those that there were, and an address is newly ignored at this moment only. -/
structure Dropped (now : ℕ) (t t' : Peers) : Prop where
  sublist : t'.peers.Sublist t.peers
  ignored : ∀ ip, t'.ignored ip = t.ignored ip ∨ t'.ignored ip = some now
  myId : t'.myId = t.myId

namespace Dropped

/-- Nothing dropped is a way to drop. -/
theorem refl (now : ℕ) (t : Peers) : Dropped now t t := ⟨List.Sublist.refl _, fun _ => Or.inl rfl, rfl⟩

/-- One loss after another. -/
theorem trans {t'' : Peers} (h : Dropped now t t') (h' : Dropped now t' t'') : Dropped now t t'' where
  sublist := h'.sublist.trans h.sublist
  ignored ip := by
    rcases h'.ignored ip with heq | heq
    · rw [heq]
      exact h.ignored ip
    · exact Or.inr heq
  myId := h'.myId.trans h.myId

/-- An address that is ignored drops nobody. -/
theorem ignoreIp (now : ℕ) (t : Peers) (ip : IpAddr) : Dropped now t (t.ignoreIp now ip) where
  sublist := List.Sublist.refl _
  ignored ip' := by
    by_cases hip : ip' = ip
    · rw [hip]
      exact Or.inr (Function.update_self _ _ _)
    · exact Or.inl (Function.update_of_ne hip _ _)
  myId := rfl

/-- A peer that is removed is dropped. -/
theorem remove (now : ℕ) (t : Peers) (token : ℕ) : Dropped now t (t.remove token) :=
  ⟨List.filter_sublist, fun _ => Or.inl rfl, rfl⟩

/-- `close_peer` drops at most the peer it closes. -/
theorem closePeer (now : ℕ) (t : Peers) (token : ℕ) : Dropped now t (t.closePeer now token) := by
  unfold Peers.closePeer
  cases t.getPeer token with
  | none => exact .refl now t
  | some peer =>
    dsimp only
    split
    · exact (remove now t token).trans (ignoreIp now _ _)
    · exact remove now t token

/-- A change of the connection that is closed makes no difference. -/
theorem closePeer_modify (now : ℕ) (t : Peers) (token : ℕ) (f : Peer → Peer) :
    Dropped now t ((t.modify token f).closePeer now token) where
  sublist := by
    rw [peers_closePeer, filter_modify]
    exact List.filter_sublist
  ignored := (closePeer now (t.modify token f) token).ignored
  myId := (closePeer now (t.modify token f) token).myId

/-- A ban drops connections, whatever is changed of the banned one before it is closed. -/
theorem ignorePeer_of {t₀ : Peers} (hclosed : ∀ g, Dropped now t₀ ((t.modify token g).closePeer now token))
    (h : t.ignorePeer now token = .ok t') : Dropped now t₀ t' := by
  unfold Peers.ignorePeer at h
  cases hpeer : t.getPeer token with
  | none =>
    rw [hpeer] at h
    cases h
  | some peer =>
    rw [hpeer] at h
    dsimp only at h
    split at h
    · exact Except.ok.inj h ▸ (hclosed _).trans (ignoreIp now _ _)
    · exact Except.ok.inj h ▸ ((hclosed _).trans (ignoreIp now _ _)).trans (closePeer now _ _)

/-- `ignore_peer` drops the peer, and ignores its address. -/
theorem ignorePeer (h : t.ignorePeer now token = .ok t') : Dropped now t t' :=
  ignorePeer_of (closePeer_modify now t token) h

/-- A change of a peer just before it is ignored does not matter. -/
theorem ignorePeer_modify (h : (t.modify token f).ignorePeer now token = .ok t') : Dropped now t t' := by
  apply ignorePeer_of (fun g => ?_) h
  refine ⟨?_, (closePeer now _ token).ignored, (closePeer now _ token).myId⟩
  rw [peers_closePeer, filter_modify, filter_modify]
  exact List.filter_sublist

/-- Connections are closed one after the other. -/
theorem foldl_closePeer (now : ℕ) (t : Peers) (tokens : List ℕ) :
    Dropped now t (tokens.foldl (Peers.closePeer now) t) := by
  induction tokens generalizing t with
  | nil => exact .refl now t
  | cons token tokens ih => exact (closePeer now t token).trans (ih _)

/-- Several addresses are ignored. -/
theorem foldl_ignoreIp (now : ℕ) (t : Peers) (ips : List IpAddr) :
    Dropped now t (ips.foldl (Peers.ignoreIp now) t) := by
  induction ips generalizing t with
  | nil => exact .refl now t
  | cons ip ips ih => exact (ignoreIp now t ip).trans (ih _)

/-- All peers are closed. -/
theorem closeAllPeers (now : ℕ) (t : Peers) : Dropped now t (t.closeAllPeers now) where
  sublist := List.nil_sublist _
  ignored := (foldl_closePeer now t (t.peers.map Prod.fst)).ignored
  myId := (foldl_closePeer now t (t.peers.map Prod.fst)).myId

/-- A sweep drops the peers it does not retain. -/
theorem retain (now : ℕ) (t : Peers) (p : Peer → Bool) : Dropped now t (t.retain p) :=
  ⟨List.filter_sublist, fun _ => Or.inl rfl, rfl⟩

end Dropped

/-! ## Addresses for exchange -/

section Exchange

variable {addr a : SocketAddr} {peers : List (ℕ × Peer)} {result : List SocketAddr}

/-- The peers that are passed on to the one that asks. -/
def offered (now : ℕ) (addr : SocketAddr) (p : Peer) : Bool :=
  ¬ p.disabledAt now ∧ ¬ p.equals addr ∧ p.isPublic ∧ p.activeAt now

/-- The loop passes on the first ones, by induction on the peers. -/
theorem exchangeLoop_eq (h : result.length < 10) : exchangeLoop now addr peers result
    = result ++ ((peers.filter fun e => offered now addr e.2).take (10 - result.length)).map
        fun e => ⟨e.2.addr.ip, listenPort⟩ := by
  induction peers generalizing result with
  | nil => simp [exchangeLoop]
  | cons e peers ih =>
    unfold exchangeLoop
    by_cases hskip : e.2.disabledAt now ∨ e.2.equals addr
    · have hnot : offered now addr e.2 = false := by
        unfold offered
        rcases hskip with h' | h' <;> simp [h']
      rw [if_pos hskip, ih h, List.filter_cons_of_neg (by simp [hnot])]
    · rw [if_neg hskip]
      by_cases hgood : e.2.isPublic ∧ e.2.activeAt now
      · have hoffered : offered now addr e.2 = true := by
          rw [not_or] at hskip
          unfold offered
          simp [hskip.1, hskip.2, hgood.1, hgood.2]
        rw [if_pos hgood, List.filter_cons_of_pos (by simpa using hoffered)]
        dsimp only
        obtain ⟨k, hk⟩ : ∃ k, 10 - result.length = k + 1 := ⟨9 - result.length, by omega⟩
        rw [hk, List.take_succ_cons, List.map_cons]
        by_cases hfull : 10 ≤ (result ++ [(⟨e.2.addr.ip, listenPort⟩ : SocketAddr)]).length
        · rw [if_pos hfull]
          rw [List.length_append, List.length_singleton] at hfull
          obtain rfl : k = 0 := by omega
          rw [List.take_zero, List.map_nil]
        · rw [if_neg hfull, ih (by omega), List.append_assoc, List.singleton_append,
            List.length_append, List.length_singleton]
          congr 4
          omega
      · have hnot : offered now addr e.2 = false := by
          unfold offered
          rw [decide_eq_false_iff_not]
          exact fun h' => hgood ⟨h'.2.2.1, h'.2.2.2⟩
        rw [if_neg hgood, List.filter_cons_of_neg (by simp [hnot])]
        dsimp only
        rw [if_neg (by omega), ih h]

/-- At most ten of the peers that may be offered, each under the port it listens on. -/
theorem getPeersForExchange_eq (now : ℕ) (t : Peers) (addr : SocketAddr) :
    t.getPeersForExchange now addr = ((t.peers.filter fun e => offered now addr e.2).take 10).map
      fun e => ⟨e.2.addr.ip, listenPort⟩ := by
  unfold getPeersForExchange
  rw [exchangeLoop_eq (by simp), List.nil_append, List.length_nil]

end Exchange

end Peers

end P2p
