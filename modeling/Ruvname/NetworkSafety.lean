/-
# What always holds of the network

Invariants over every run of the network, in any order of its steps, as long as the poll reports
what it was asked for.  A connection never rests in a state that waits for a second attempt, so that
nothing is ever reconnected.  No message is written or heard without the cipher of its connection.
A banned address gets no connection for ten minutes.  A token names one connection for good.
Candidates have distinct and public addresses.  And what the network makes of the node is what a
node makes of itself.
-/
import Ruvname.NetworkRuns

open Exec

namespace P2p

/-- The states between two events. -/
def Peer.State.Lives : State → Prop
  | .connecting | .connected _ | .serverHandshake _ | .handshakeFinished | .idle _ | .message _
  | .sendLoop => True
  | .error | .banned | .loop | .twin | .offline _ => False

/-- A connection is about to send a handshake and nothing else, or it waits for one. -/
def Shakes (state : Peer.State) (interest : Interest) : Prop :=
  match state with
  | .connecting => interest = .writes
  | .connected _ | .serverHandshake _ => interest = .reads
  | _ => False

/-- A connection has a cipher, or it shakes hands. -/
def Phase.Guarded (C : Config) (p : Phase) : Prop :=
  match p.chacha with
  | some chacha => ∃ key nonce, chacha = C.chacha key nonce
  | none => Shakes p.state p.interest

/-- **A sound connection.** -/
structure Sound (C : Config) (l : Link) (p : Peer) : Prop where
  lives : p.state.Lives
  reconnects : p.reconnects = 0
  guarded : Phase.Guarded C ⟨p.state, l.chacha, l.interest⟩

/-- A message is written and heard under the cipher of a handshake that is on record for its
connection before it. -/
def Traffic.Sealed (C : Config) (before : List Traffic) : Traffic → Prop
  | .handshake _ _ | .greeted _ _ _ _ => True
  | .wrote token chacha data bytes => ∃ key nonce taken encrypted,
      .greeted token key nonce taken ∈ before ∧ chacha = some (C.chacha key nonce)
      ∧ (C.chacha key nonce).cipher.encrypt data = some encrypted ∧ bytes <+: sendMessage encrypted
  | .heard token chacha frame message => ∃ key nonce taken data,
      .greeted token key nonce taken ∈ before ∧ chacha = some (C.chacha key nonce)
      ∧ (C.chacha key nonce).cipher.decrypt frame = some data
      ∧ Message.fromBytes C.platform.checks data = .ok (some message)

variable {C : Config}

/-! ## Sound connections -/

namespace Phase

variable {p p' : Phase}

/-- A peer that lives goes on to live. -/
theorem Edge.lives (h : Edge C p p') (hp : p.state.Lives) : p'.state.Lives := by
  cases h with
  | answered interest' hstate hread hanswer =>
    rename_i state state' chacha interest
    cases state' <;> trivial
  | reconnects since => exact hp.elim
  | rests hstate hwrite => exact hp
  | stay => exact hp
  | _ => trivial

/-- Once there is a cipher it stays. -/
theorem Guarded.of_not_shakes {state state' : Peer.State} {chacha : Option Chacha}
    {interest interest' : Interest} (hp : Guarded C ⟨state, chacha, interest⟩)
    (h : ¬ Shakes state interest) : Guarded C ⟨state', chacha, interest'⟩ := by
  cases chacha with
  | some c => exact hp
  | none => exact absurd hp h

/-- A peer with something to send is in no handshake. -/
theorem not_shakes_of_sends {state : Peer.State} {interest : Interest} (h : state.Sends) :
    ¬ Shakes state interest := by
  cases state <;> first | exact h.elim | exact id

/-- Nor is one at rest, if it is to be written to. -/
theorem not_shakes_of_rests {state : Peer.State} {interest : Interest} (h : state.Rests)
    (hwrite : interest.writable) : ¬ Shakes state interest := by
  cases state with
  | connected since =>
    rintro rfl
    cases hwrite
  | connecting => exact h.elim
  | serverHandshake since => exact h.elim
  | _ => exact id

/-- Nor is one that speaks, if it is to be read from. -/
theorem not_shakes_of_speaks {state : Peer.State} {interest : Interest} (h : state.Speaks)
    (hread : interest.readable) : ¬ Shakes state interest := by
  cases state with
  | connecting =>
    rintro rfl
    cases hread
  | connected since => exact h.elim
  | serverHandshake since => exact h.elim
  | _ => exact id

/-- The contract of the poll matters here: a server that has no cipher yet is not registered for
writing, and nobody reads a message before the handshakes are over. -/
theorem Edge.guarded (h : Edge C p p') (hp : p.Guarded C) (hlives : p.state.Lives) : p'.Guarded C := by
  cases h with
  | stay => exact hp
  | clientRead since now key nonce hread => exact ⟨key, nonce, rfl⟩
  | serverRead since key nonce hread => exact ⟨key, nonce, rfl⟩
  | reconnects since => exact hlives.elim
  | clientSent now hwrite =>
    rename_i chacha interest
    cases chacha with
    | some c => exact hp
    | none => rfl
  | serverSent since hwrite =>
    refine hp.of_not_shakes ?_
    rintro rfl
    cases hwrite
  | sent now hstate hwrite => exact hp.of_not_shakes (not_shakes_of_sends hstate)
  | rests hstate hwrite => exact hp.of_not_shakes (not_shakes_of_rests hstate hwrite)
  | answered interest' hstate hread hanswer =>
    exact hp.of_not_shakes (not_shakes_of_speaks hstate hread)
  | asked interest' since data => exact hp.of_not_shakes id
  | waits data => exact hp.of_not_shakes id

end Phase

/-- A step on a connection keeps it sound. -/
theorem Shift.sound {l l' : Link} {p p' : Peer} (h : Shift C l p l' p') (hp : Sound C l p) :
    Sound C l' p' where
  lives := h.edge.lives hp.lives
  reconnects := by
    rcases h.reconnects with heq | hzero | ⟨since, hoffline⟩
    · rw [heq, hp.reconnects]
    · exact hzero
    · have hlives := hp.lives
      rw [hoffline] at hlives
      exact hlives.elim
  guarded := h.edge.guarded hp.guarded hp.lives

/-- A connection is opened sound. -/
theorem Opens.sound {peer : Peer} {interest : Interest} (h : Opens peer interest) :
    Sound C ⟨none, interest, 0⟩ peer := by
  obtain ⟨hreconnects, ⟨hstate, rfl⟩ | ⟨since, hstate, rfl⟩⟩ := h
  · refine ⟨?_, hreconnects, ?_⟩
    · rw [hstate]
      trivial
    · rw [hstate]
      rfl
  · refine ⟨?_, hreconnects, ?_⟩
    · rw [hstate]
      trivial
    · rw [hstate]
      rfl

/-- A cut frame decodes to nothing, and nothing is no message. -/
theorem fromBytes_nil (checks : Bool) : Message.fromBytes checks [] = .ok none := by
  unfold Message.fromBytes
  rfl

/-- A sound connection that does not shake hands has a cipher. -/
theorem Sound.exists_chacha {l : Link} {p : Peer} (h : Sound C l p) (hp : ¬ Shakes p.state l.interest) :
    ∃ chacha, l.chacha = some chacha := by
  have hguarded := h.guarded
  unfold Phase.Guarded at hguarded
  cases hchacha : l.chacha with
  | none =>
    rw [hchacha] at hguarded
    exact absurd hguarded hp
  | some chacha => exact ⟨chacha, rfl⟩

/-- What is recorded of a sound connection is sealed. -/
theorem Traffic.Fits.sealed {n : Network} {x : Traffic} (h : x.Fits C n)
    (hsound : ∀ e ∈ n.table.peers, Sound C (n.links e.1) e.2)
    (hlearned : ∀ e ∈ n.table.peers, ∀ chacha, (n.links e.1).chacha = some chacha →
      Learned C n.traffic e.1 chacha) : x.Sealed C n.traffic := by
  cases x with
  | handshake token bytes => trivial
  | greeted token key nonce taken => trivial
  | wrote token chacha data bytes =>
    obtain ⟨peer, hpeer, rfl, hwrite, hserver, hconnects, encoded, hencoded, hbytes⟩ := h
    have hshakes : ¬ Shakes peer.state (n.links token).interest := by
      cases hstate : peer.state with
      | connecting => exact absurd hstate hconnects
      | serverHandshake since => exact absurd hstate (hserver since)
      | connected since =>
        intro hreads
        rw [show (n.links token).interest = .reads from hreads] at hwrite
        cases hwrite
      | _ => exact id
    have hmem := Peers.mem_of_getPeer hpeer
    obtain ⟨chacha, hchacha⟩ := (hsound _ hmem).exists_chacha hshakes
    obtain ⟨key, nonce, taken, hgreeted, rfl⟩ := hlearned _ hmem chacha hchacha
    dsimp only at hchacha
    rw [hchacha] at hencoded
    exact ⟨key, nonce, taken, encoded, hgreeted, hchacha, hencoded, hbytes⟩
  | heard token chacha frame message =>
    obtain ⟨peer, hpeer, rfl, hread, hspeaks, hmessage⟩ := h
    have hmem := Peers.mem_of_getPeer hpeer
    obtain ⟨chacha, hchacha⟩ := (hsound _ hmem).exists_chacha
      (Phase.not_shakes_of_speaks hspeaks hread)
    obtain ⟨key, nonce, taken, hgreeted, rfl⟩ := hlearned _ hmem chacha hchacha
    dsimp only at hchacha
    rw [hchacha] at hmessage
    cases hdata : (C.chacha key nonce).cipher.decrypt frame with
    | none =>
      -- nothing is no message
      have hnone : decodeMessage ((some (C.chacha key nonce)).map Chacha.cipher) frame = none := hdata
      rw [hnone, Option.getD_none, fromBytes_nil] at hmessage
      cases hmessage
    | some data =>
      have hsome : decodeMessage ((some (C.chacha key nonce)).map Chacha.cipher) frame = some data :=
        hdata
      rw [hsome, Option.getD_some] at hmessage
      exact ⟨key, nonce, taken, data, hgreeted, hchacha, hdata, hmessage⟩

namespace Network

variable {n n' : Network} {now : ℕ} {focus : Option ℕ} {a : Action}

/-! ## Invariants of the actions -/

/-- A peer of the new table is the one that was added or one that was there. -/
theorem mem_addPeer {t : Peers} {token : ℕ} {peer : Peer} {e : ℕ × Peer}
    (h : e ∈ (t.addPeer token peer).peers) : e = (token, peer) ∨ e ∈ t.peers ∧ e.1 ≠ token := by
  rcases List.mem_cons.mp h with heq | hmem
  · exact Or.inl heq
  · obtain ⟨hmem, hne⟩ := List.mem_filter.mp hmem
    exact Or.inr ⟨hmem, of_decide_eq_true hne⟩

/-- What an action does to the connections: one is opened, or each one that is left has gone on. -/
theorem Act.connections (h : n.Act C now focus a n') :
    (∃ peer interest next, Opens peer interest ∧ n.table.isIgnored peer.addr.ip = false
      ∧ addU64 C.platform.checks n.token 1 = .ok next ∧ n' = n.addConnection next peer interest)
    ∨ (n'.token = n.token ∧ n'.opened = n.opened) ∧ ∀ e' ∈ n'.table.peers, ∃ e ∈ n.table.peers,
        e.1 = e'.1 ∧ Proceeds C focus n e.1 e.2 (n'.links e'.1) e'.2 := by
  cases a with
  | opened peer interest =>
    obtain ⟨hopens, hignored, next, hnext, rfl⟩ := h
    exact Or.inl ⟨peer, interest, next, hopens, hignored, hnext, rfl⟩
  | shifted table links =>
    obtain ⟨rfl, g, rfl, hproceeds⟩ := h
    refine Or.inr ⟨⟨rfl, rfl⟩, fun e' he' => ?_⟩
    obtain ⟨e, he, rfl⟩ := List.mem_map.mp he'
    exact ⟨e, he, rfl, hproceeds e he⟩
  | dropped table =>
    obtain ⟨rfl, hdropped⟩ := h
    exact Or.inr ⟨⟨rfl, rfl⟩, fun e' he' =>
      ⟨e', hdropped.sublist.subset he', rfl, .refl C focus n e'.1 e'.2⟩⟩
  | reordered table =>
    obtain ⟨rfl, hperm, -⟩ := h
    exact Or.inr ⟨⟨rfl, rfl⟩, fun e' he' => ⟨e', hperm.subset he', rfl, .refl C focus n e'.1 e'.2⟩⟩
  | purged | pinged utc =>
    obtain rfl := h
    exact Or.inr ⟨⟨rfl, rfl⟩, fun e' he' => ⟨e', he', rfl, .refl C focus n e'.1 e'.2⟩⟩
  | candidate addr | taken candidates | stepped node | noted x =>
    obtain ⟨rfl, -⟩ := h
    exact Or.inr ⟨⟨rfl, rfl⟩, fun e' he' => ⟨e', he', rfl, .refl C focus n e'.1 e'.2⟩⟩

/-- **Sound connections.** -/
def AllSound (C : Config) (n : Network) : Prop := ∀ e ∈ n.table.peers, Sound C (n.links e.1) e.2

/-- Each action keeps all connections sound. -/
theorem AllSound.act (hn : AllSound C n) (h : n.Act C now focus a n') : AllSound C n' := by
  rcases Act.connections h with ⟨peer, interest, next, hopens, -, -, rfl⟩ | ⟨-, hproceeds⟩
  · intro e he
    rcases mem_addPeer he with rfl | ⟨hmem, hne⟩
    · show Sound C (Function.update n.links n.token.toNat _ n.token.toNat) peer
      rw [Function.update_self]
      exact hopens.sound
    · show Sound C (Function.update n.links n.token.toNat _ e.1) e.2
      rw [Function.update_of_ne hne]
      exact hn e hmem
  · intro e' he'
    obtain ⟨e, he, -, h'⟩ := hproceeds e' he'
    exact h'.shift.sound (hn e he)

/-- No action moves the clock. -/
theorem Act.now_eq (h : n.Act C now focus a n') : n'.now = n.now := by
  cases a with
  | opened peer interest =>
    obtain ⟨-, -, next, -, rfl⟩ := h
    rfl
  | purged | pinged utc =>
    obtain rfl := h
    rfl
  | _ =>
    obtain ⟨rfl, -⟩ := h
    rfl

/-- What every action keeps, and time does not matter to, every run keeps. -/
theorem run_keeps {I : Network → Prop} (h : Run (Step C) Admissible n n') (hn : I n)
    (htime : ∀ m now, m.now ≤ now → I m → I { m with now })
    (hact : ∀ m focus a m', I m → m.Act C m.now focus a m' → I m') : I n' := by
  have hact' : ∀ m focus a m' now, m.now = now ∧ I m → m.Act C now focus a m' →
      m'.now = now ∧ I m' := by
    rintro m focus a m' now ⟨rfl, hm⟩ ha
    refine ⟨?_, hact m focus a m' hm ha⟩
    exact Act.now_eq ha
  refine h.invariant hn fun m i m' hm hadmissible hstep => ?_
  exact ((Step.moves hadmissible hstep).invariant ⟨rfl, htime m i.1 hadmissible.1 hm⟩
    fun t a u ht _ ha => hact' t i.2.about a u i.1 ht ha).2

/-- The same for what does not depend on the time at all. -/
theorem run_keeps_timeless {I : Network → Prop} (h : Run (Step C) Admissible n n') (hn : I n)
    (htime : ∀ m now, I m → I { m with now })
    (hact : ∀ m now focus a m', I m → m.Act C now focus a m' → I m') : I n' :=
  run_keeps h hn (fun m now _ => htime m now) fun m focus a m' => hact m m.now focus a m'

/-- There are no connections to begin with. -/
theorem allSound_new (now : ℕ) (myId : String) (node : Node) : AllSound C (new now myId node) :=
  fun _ he => absurd he List.not_mem_nil

/-- **All connections are sound in every run.** -/
theorem run_allSound {myId : String} {node : Node}
    (h : Run (Step C) Admissible (new now myId node) n) : AllSound C n :=
  run_keeps_timeless h (allSound_new now myId node) (fun _ _ => id) fun _ _ _ _ _ hm ha => hm.act ha

/-! ### A connection from its handshake to its ban -/

/-- Events at their instants, as long as they are admissible. -/
def play (C : Config) : List (ℕ × Event) → Network → Exec Network
  | [], n => .ok n
  | i :: events, n =>
    if n.Admissible i then do
      let n ← { n with now := i.1 }.step C i.1 i.2
      play C events n
    else .error .unfinished

/-- A list of events that is played is a run. -/
theorem play_run {events : List (ℕ × Event)} (h : play C events n = .ok n') :
    Run (Step C) Admissible n n' := by
  induction events generalizing n with
  | nil => exact Except.ok.inj h ▸ .refl _
  | cons i events ih =>
    unfold play at h
    split at h
    · rename_i hadmissible
      obtain ⟨n₁, hstep, h⟩ := bind_eq_ok.mp h
      exact (Run.single hadmissible hstep).trans (ih h)
    · cases h

/-- A node whose ciphers do not depend on the keys. -/
def plainConfig : Config where
  platform := Sample.platform true
  machine := Peers.lastFirst
  origin := "origin"
  isPublic := true
  ruvchainOnly := false
  appVersion := "0.8.7"
  publicKey := Vector.replicate 32 1
  chacha _ nonce := ⟨Sample.lengthCipher, nonce⟩
  nonce_chacha _ _ := rfl
  parseAddr text := if text = "203.0.113.9:6890" then some ⟨.v4 ⟨#v[203, 0, 113, 9]⟩, 6890⟩ else none
  showAddr _ := ""

/-- A set may enumerate the texts in the order in which they came. -/
theorem perm_dedup (l : List String) : l.dedup.Perm l.dedup := .refl _

/-- What the poll reports when these bytes can be read. -/
def canRead (bytes : List UInt8) : Readiness :=
  ⟨false, false, true, false, ⟨false, Transport.bytewise bytes, Vector.replicate 12 2,
    fun _ => Sample.now, false, List.dedup, perm_dedup⟩, ⟨⟨List.replicate 64 0, by decide, by decide⟩, none⟩⟩

/-- What the poll reports when something can be written. -/
def canWrite : Readiness :=
  ⟨false, false, false, true, ⟨false, Transport.bytewise [], Vector.replicate 12 2,
    fun _ => Sample.now, false, List.dedup, perm_dedup⟩, ⟨⟨List.replicate 64 0, by decide, by decide⟩, none⟩⟩

/-- A frame with an encrypted message. -/
def frameOf (message : Message) : List UInt8 :=
  sendMessage ((Sample.lengthCipher.encrypt message.toVec).getD [])

def guestAddr : SocketAddr := ⟨.v4 ⟨#v[203, 0, 113, 7]⟩, 50000⟩

/-- The node mines the origin block.  A connection is accepted, shakes hands, asks for peers, is told
of none and tells of one. -/
def visit : List (ℕ × Event) :=
  [(0, .mined Sample.now Sample.genesis), (0, .accept guestAddr),
    (1, .ready 1 (canRead (10 :: List.replicate 32 9))), (2, .ready 1 canWrite),
    (3, .ready 1 (canRead (frameOf .getPeers))), (4, .ready 1 canWrite),
    (4, .ready 1 (canRead (frameOf (.peers ["203.0.113.9:6890"]))))]

/-- Another connection is accepted, and the first one says that it is a loop. -/
def leave : List (ℕ × Event) :=
  [(5, .accept ⟨.v4 ⟨#v[203, 0, 113, 8]⟩, 50000⟩), (6, .ready 1 (canRead (frameOf .loop)))]

/-- The visitor is banned for it, and is not accepted again. -/
theorem exists_visit : ∃ n₁ n₂ n₃,
    Run (Step plainConfig) Admissible (new 0 "abcdef" (Node.fresh Sample.genesis.hash)) n₁
    ∧ Run (Step plainConfig) Admissible n₁ n₂ ∧ Run (Step plainConfig) Admissible n₂ n₃
    ∧ n₁.traffic.length = 5 ∧ n₁.newPeers.length = 1
    ∧ n₁.node.chain.getHeight = 1 ∧ n₁.token = 2 ∧ n₁.table.peers.map Prod.fst = [1]
    ∧ n₂.table.ignored guestAddr.ip = some 6 ∧ n₂.table.peers.map Prod.fst = [2]
    ∧ Peer.elapsedSecs n₃.now 6 < 600 := by
  have hrun : ∃ n₁, play plainConfig visit (new 0 "abcdef" (Node.fresh Sample.genesis.hash)) = .ok n₁
      ∧ ∃ n₂, play plainConfig leave n₁ = .ok n₂
      ∧ ∃ n₃, play plainConfig [(7, .accept guestAddr)] n₂ = .ok n₃
      ∧ n₁.traffic.length = 5 ∧ n₁.newPeers.length = 1
      ∧ n₁.node.chain.getHeight = 1 ∧ n₁.token = 2 ∧ n₁.table.peers.map Prod.fst = [1]
      ∧ n₂.table.ignored guestAddr.ip = some 6 ∧ n₂.table.peers.map Prod.fst = [2]
      ∧ Peer.elapsedSecs n₃.now 6 < 600 := by
    decide +kernel
  obtain ⟨n₁, h₁, n₂, h₂, n₃, h₃, hfacts⟩ := hrun
  exact ⟨n₁, n₂, n₃, play_run h₁, play_run h₂, play_run h₃, hfacts⟩

/-! ## Nobody is ever offline -/

/-- A sound connection needs no reconnection. -/
theorem Sound.not_needReconnect {l : Link} {p : Peer} (h : Sound C l p) (now : ℕ) :
    p.state.needReconnect now = false := by
  have hlives := h.lives
  cases hstate : p.state with
  | offline since =>
    rw [hstate] at hlives
    exact hlives.elim
  | _ => rfl

/-- Among sound connections no peer is removed as offline. -/
theorem AllSound.dropOffline (h : AllSound C n) (now : ℕ) : n.dropOffline now = n := by
  have honline : ∀ e ∈ n.table.peers, isOffline now e.2 = false := by
    intro e he
    unfold isOffline
    rw [Sound.not_needReconnect (h e he) now]
    rfl
  have hnone : (n.table.peers.filter fun e => isOffline now e.2) = [] := by
    rw [List.filter_eq_nil_iff]
    intro e he
    rw [honline e he]
    exact Bool.false_ne_true
  have hall : n.table.retain (fun p => ¬ isOffline now p) = n.table := by
    refine peers_ext (List.filter_eq_self.mpr fun e he => ?_) rfl rfl
    dsimp only
    rw [honline e he]
    rfl
  unfold Network.dropOffline
  dsimp only
  rw [hnone, List.map_nil, List.foldl_nil, hall]

/-- And none is reconnected. -/
theorem AllSound.reconnect (h : AllSound C n) (now : ℕ) (connects : SocketAddr → Bool) :
    n.reconnect C now connects = .ok n := by
  have hnone : (n.table.peers.find? fun e => e.2.state.needReconnect now) = none := by
    rw [List.find?_eq_none]
    intro e he
    rw [Sound.not_needReconnect (h e he) now]
    exact Bool.false_ne_true
  unfold Network.reconnect
  rw [hnone]

/-- Moves keep all connections sound. -/
theorem AllSound.moves {now : ℕ} (hn : AllSound C n) (h : Moves C now focus n n') : AllSound C n' :=
  h.invariant hn fun _ _ _ hm _ ha => hm.act ha

/-- **No peer is ever offline, nor are failed attempts ever counted**: between two events every
connection is on its way to a session or in one, and the parts of the update that ban or reconnect
peers that are offline do nothing. -/
theorem run_online {start : ℕ} {myId : String} {node : Node}
    (h : Run (Step C) Admissible (new start myId node) n) :
    (∀ e ∈ n.table.peers, e.2.state.Lives ∧ e.2.reconnects = 0)
      ∧ ∀ now u hash height maxHeight haveBlocks, n.update C now u hash height maxHeight haveBlocks
        = n.updateOnline C now u hash height maxHeight haveBlocks := by
  have hsound := run_allSound h
  refine ⟨fun e he => ⟨(hsound e he).lives, (hsound e he).reconnects⟩, ?_⟩
  intro now u hash height maxHeight haveBlocks
  unfold update
  cases honline : n.updateOnline C now u hash height maxHeight haveBlocks with
  | error fault => rfl
  | ok n₁ =>
    have hmoves : Moves C now none n n₁ := updateOnline_moves honline
    have hsound₁ : AllSound C n₁ := hsound.moves hmoves
    rw [ok_bind, hsound₁.dropOffline, hsound₁.reconnect]

/-- A visit of one peer, in which the periodic update does nothing. -/
theorem run_online_visit : ∃ n,
    Run (Step plainConfig) Admissible (new 0 "abcdef" (Node.fresh Sample.genesis.hash)) n
    ∧ n.table.peers.map Prod.fst = [2]
    ∧ (∀ e ∈ n.table.peers, e.2.state.Lives ∧ e.2.reconnects = 0)
    ∧ ∀ now u hash height maxHeight haveBlocks,
      n.update plainConfig now u hash height maxHeight haveBlocks
        = n.updateOnline plainConfig now u hash height maxHeight haveBlocks := by
  obtain ⟨n₁, n₂, n₃, h₁, h₂, -, -, -, -, -, -, -, hpeers, -⟩ := exists_visit
  exact ⟨n₂, h₁.trans h₂, hpeers, run_online (h₁.trans h₂)⟩

/-! ## Nothing is said in the clear -/

/-- What is on record stays there, and what is added happened. -/
theorem Act.records (h : n.Act C now focus a n') :
    n'.traffic = n.traffic ∨ ∃ x : Traffic, x.Fits C n ∧ n'.traffic = n.traffic ++ [x] := by
  cases a with
  | noted x =>
    obtain ⟨rfl, hfits, -⟩ := h
    exact Or.inr ⟨x, hfits, rfl⟩
  | opened peer interest =>
    obtain ⟨-, -, next, -, rfl⟩ := h
    exact Or.inl rfl
  | purged | pinged utc =>
    obtain rfl := h
    exact Or.inl rfl
  | _ =>
    obtain ⟨rfl, -⟩ := h
    exact Or.inl rfl

/-- No action takes back what has been sent. -/
theorem Act.traffic_prefix (h : n.Act C now focus a n') : n.traffic <+: n'.traffic := by
  rcases Act.records h with heq | ⟨x, -, heq⟩
  · rw [heq]
  · rw [heq]
    exact List.prefix_append _ _

/-- **Every cipher comes from a handshake** of its connection that is on record. -/
def AllLearned (C : Config) (n : Network) : Prop := ∀ e ∈ n.table.peers, ∀ chacha,
  (n.links e.1).chacha = some chacha → Learned C n.traffic e.1 chacha

/-- Each action learns its keys from a handshake. -/
theorem AllLearned.act (hn : AllLearned C n) (h : n.Act C now focus a n') : AllLearned C n' := by
  have hrecords := Act.traffic_prefix h
  rcases Act.connections h with ⟨peer, interest, next, -, -, -, rfl⟩ | ⟨-, hproceeds⟩
  · intro e he chacha hchacha
    rcases mem_addPeer he with rfl | ⟨hmem, hne⟩
    · -- a new connection has no cipher
      rw [show (n.addConnection next peer interest).links n.token.toNat = ⟨none, interest, 0⟩ from
        Function.update_self _ _ _] at hchacha
      cases hchacha
    · rw [show (n.addConnection next peer interest).links e.1 = n.links e.1 from
        Function.update_of_ne hne _ _] at hchacha
      exact (hn e hmem chacha hchacha).mono hrecords
  · intro e' he' chacha hchacha
    obtain ⟨e, he, heq, h'⟩ := hproceeds e' he'
    rw [← heq]
    rcases h'.chacha with hsame | ⟨learned, hlearned, hrecord⟩
    · rw [hsame] at hchacha
      exact (hn e he chacha hchacha).mono hrecords
    · rw [hlearned, Option.some.injEq] at hchacha
      subst hchacha
      exact hrecord.mono hrecords

/-- The connections are sound, their ciphers come from handshakes, and what is recorded is sealed. -/
structure AllSealed (C : Config) (n : Network) : Prop where
  sound : AllSound C n
  learned : AllLearned C n
  sealed : ∀ before x, before ++ [x] <+: n.traffic → x.Sealed C before

/-- Each action that sends seals what it sends. -/
theorem AllSealed.act (hn : AllSealed C n) (h : n.Act C now focus a n') : AllSealed C n' := by
  refine ⟨hn.sound.act h, hn.learned.act h, fun before y hy => ?_⟩
  rcases Act.records h with heq | ⟨x, hfits, heq⟩
  · rw [heq] at hy
    exact hn.sealed before y hy
  · rw [heq, List.prefix_concat_iff] at hy
    rcases hy with hlast | hearlier
    · obtain ⟨rfl, hsame⟩ := List.append_inj' hlast rfl
      rw [List.singleton_inj.mp hsame]
      exact hfits.sealed hn.sound hn.learned
    · exact hn.sealed before y hearlier

/-- **No message is written or heard in the clear**: every message that was written went out as the
encryption under the cipher of a handshake that its connection had had before, and every message that
was heard had been decrypted with such a cipher. -/
theorem run_sealed {start : ℕ} {myId : String} {node : Node}
    (h : Run (Step C) Admissible (new start myId node) n) :
    ∀ before x, before ++ [x] <+: n.traffic → x.Sealed C before :=
  (run_keeps_timeless (I := AllSealed C) h
    ⟨allSound_new start myId node, fun _ he => absurd he List.not_mem_nil,
      fun before x hx => absurd (List.prefix_nil.mp hx) (by simp)⟩ (fun _ _ hm => ⟨hm.1, hm.2, hm.3⟩)
    fun _ _ _ _ _ hm ha => hm.act ha).sealed

/-- The five messages of a visit. -/
theorem run_sealed_visit : ∃ n,
    Run (Step plainConfig) Admissible (new 0 "abcdef" (Node.fresh Sample.genesis.hash)) n
    ∧ n.traffic.length = 5 ∧ ∀ before x, before ++ [x] <+: n.traffic → x.Sealed plainConfig before := by
  obtain ⟨n₁, n₂, n₃, h₁, -, -, htraffic, -⟩ := exists_visit
  exact ⟨n₁, h₁, htraffic, run_sealed h₁⟩

/-! ## A token names one connection

The counter of the tokens is a machine word, and a build without overflow checks lets it come round.
-/

/-- The counter of the tokens has not come round. -/
def Unwrapped (C : Config) (n : Network) : Prop := C.platform.checks = true ∨ n.opened + 1 < 2 ^ 64

/-- Connections are counted upwards. -/
theorem Act.opened_le (h : n.Act C now focus a n') : n.opened ≤ n'.opened := by
  rcases Act.connections h with ⟨peer, interest, next, -, -, -, rfl⟩ | ⟨⟨-, hopened⟩, -⟩
  · exact Nat.le_succ _
  · exact hopened.ge

/-- If the counter has not wrapped by now, it had not before. -/
theorem Unwrapped.of_le (h : Unwrapped C n') (hle : n.opened ≤ n'.opened) : Unwrapped C n :=
  h.imp_right fun hlt => by omega

/-- As long as it has not, it counts the connections that there have been. -/
def Counted (C : Config) (n : Network) : Prop := Unwrapped C n → n.token.toNat = n.opened + 1

/-- No connection has been opened to begin with. -/
theorem counted_new (start : ℕ) (myId : String) (node : Node) : Counted C (new start myId node) :=
  fun _ => rfl

/-- Each action that opens a connection counts it. -/
theorem Counted.act (hn : Counted C n) (h : n.Act C now focus a n') : Counted C n' := by
  intro hunwrapped
  have htoken := hn (hunwrapped.of_le (Act.opened_le h))
  rcases Act.connections h with ⟨peer, interest, next, -, -, hnext, rfl⟩ | ⟨⟨hsame, hopened⟩, -⟩
  · have hopened : (n.addConnection next peer interest).opened = n.opened + 1 := rfl
    obtain ⟨hchecked, rfl⟩ := guarded_eq_ok_iff.mp hnext
    have hlt : n.token.toNat + 1 < 2 ^ 64 := by
      rcases hunwrapped with hchecks | hfew
      · exact not_le.mp (of_decide_eq_false (hchecked hchecks))
      · omega
    show (n.token + 1).toNat = _
    rw [toNat_add_one hlt, htoken, hopened]
  · rw [hsame, hopened, htoken]

/-- A connection that was there is told from one that is there by its token and its address. -/
def Kept (n : Network) (e' : ℕ × Peer) : Prop :=
  ∃ e ∈ n.table.peers, e.1 = e'.1 ∧ e.2.addr = e'.2.addr

/-- The tokens of the connections have been handed out, and none is the one of the server socket. -/
def TokensBelow (n : Network) : Prop := ∀ e ∈ n.table.peers, server < e.1 ∧ e.1 < n.token.toNat

/-- They are handed out in order. -/
theorem TokensBelow.act (hcounted : Counted C n) (hunwrapped : Unwrapped C n') (hn : TokensBelow n)
    (h : n.Act C now focus a n') : TokensBelow n' := by
  have htoken := hcounted (hunwrapped.of_le (Act.opened_le h))
  have htoken' := hcounted.act h hunwrapped
  rcases Act.connections h with ⟨peer, interest, next, -, -, -, rfl⟩ | ⟨⟨hsame, -⟩, hproceeds⟩
  · have hopened : (n.addConnection next peer interest).opened = n.opened + 1 := rfl
    intro e he
    rw [htoken', hopened]
    rcases mem_addPeer he with rfl | ⟨hmem, -⟩
    · unfold server
      dsimp only
      omega
    · have hold := hn e hmem
      omega
  · intro e' he'
    obtain ⟨e, he, heq, -⟩ := hproceeds e' he'
    rw [hsame, ← heq]
    exact hn e he

/-- **The counter is right in every run**, and while it has not wrapped all tokens are below it. -/
theorem run_counted {start : ℕ} {myId : String} {node : Node}
    (h : Run (Step C) Admissible (new start myId node) n) :
    Counted C n ∧ (Unwrapped C n → TokensBelow n) :=
  run_keeps_timeless (I := fun m => Counted C m ∧ (Unwrapped C m → TokensBelow m)) h
    ⟨counted_new start myId node, fun _ _ he => absurd he List.not_mem_nil⟩ (fun _ _ => id)
    fun _ _ _ _ _ hm ha => ⟨hm.1.act ha, fun hunwrapped =>
      (hm.2 (hunwrapped.of_le (Act.opened_le ha))).act hm.1 hunwrapped ha⟩

/-- Connections with tokens that had been handed out before were there before. -/
structure Keeps (C : Config) (n m : Network) : Prop where
  counted : Counted C m
  opened_le : n.opened ≤ m.opened
  kept : Unwrapped C m → ∀ e' ∈ m.table.peers, e'.1 < n.token.toNat → Kept n e'

/-- Each action keeps the peers that were there, or drops them. -/
theorem Keeps.act {m m' : Network} (hn : Counted C n) (hm : Keeps C n m) (h : m.Act C now focus a m') :
    Keeps C n m' := by
  have hle := Act.opened_le h
  refine ⟨hm.counted.act h, hm.opened_le.trans hle, fun hunwrapped e' he' hlt => ?_⟩
  have hearlier := hunwrapped.of_le hle
  rcases Act.connections h with ⟨peer, interest, next, -, -, -, rfl⟩ | ⟨-, hproceeds⟩
  · rcases mem_addPeer he' with rfl | ⟨hmem, -⟩
    · -- a new connection has a later token
      have htoken := hn (hearlier.of_le hm.opened_le)
      have htoken' := hm.counted hearlier
      have hopened := hm.opened_le
      dsimp only at hlt
      omega
    · exact hm.kept hearlier e' hmem hlt
  · obtain ⟨e, he, heq, h'⟩ := hproceeds e' he'
    obtain ⟨e₀, he₀, heq₀, haddr⟩ := hm.kept hearlier e he (heq ▸ hlt)
    exact ⟨e₀, he₀, heq₀.trans heq, haddr.trans h'.shift.addr.symm⟩

/-- **A token names one connection for good**, as long as the counter has not come round: every
connection has a token that was handed out, so that a new one never takes the place of another nor
the token of the server socket, and a connection with a token that had been handed out before was
there before, with the same address. -/
theorem run_keepsTokens {start : ℕ} {myId : String} {node : Node}
    (h : Run (Step C) Admissible (new start myId node) n) (h' : Run (Step C) Admissible n n')
    (hunwrapped : Unwrapped C n') :
    TokensBelow n' ∧ ∀ e' ∈ n'.table.peers, e'.1 < n.token.toNat → Kept n e' := by
  have hcounted := (run_counted h).1
  have hkeeps : Keeps C n n' := run_keeps_timeless (I := Keeps C n) h'
    ⟨hcounted, le_refl _, fun _ e' he' _ => ⟨e', he', rfl, rfl⟩⟩ (fun _ _ hm => ⟨hm.1, hm.2, hm.3⟩)
    fun _ _ _ _ _ hm ha => hm.act hcounted ha
  exact ⟨(run_counted (h.trans h')).2 hunwrapped, hkeeps.kept hunwrapped⟩

/-- The connection of a visit, after a first one that has been dropped. -/
theorem run_keepsTokens_visit : ∃ n n', n.token = 2 ∧ n'.table.peers.map Prod.fst = [2]
    ∧ TokensBelow n' ∧ ∀ e' ∈ n'.table.peers, e'.1 < n.token.toNat → Kept n e' := by
  obtain ⟨n₁, n₂, n₃, h₁, h₂, -, -, -, -, htoken, -, -, hpeers, -⟩ := exists_visit
  exact ⟨n₁, n₂, htoken, hpeers, run_keepsTokens h₁ h₂ (Or.inl rfl)⟩

/-! ## A ban lasts ten minutes -/

variable {ip : IpAddr} {since : ℕ}

/-- What an action does to a banned address. -/
theorem Act.ignored (h : n.Act C now focus a n') (ip : IpAddr) :
    n'.table.ignored ip = n.table.ignored ip ∨ n'.table.ignored ip = some now
      ∨ n'.table.ignored ip
        = (n.table.ignored ip).filter fun since => Peer.elapsedSecs now since < 600 := by
  cases a with
  | opened peer interest =>
    obtain ⟨-, -, next, -, rfl⟩ := h
    exact Or.inl rfl
  | shifted table links =>
    obtain ⟨rfl, g, rfl, -⟩ := h
    exact Or.inl rfl
  | dropped table =>
    obtain ⟨rfl, hdropped⟩ := h
    exact (hdropped.ignored ip).imp_right Or.inl
  | purged =>
    obtain rfl := h
    exact Or.inr (Or.inr rfl)
  | reordered table =>
    obtain ⟨rfl, -, hignored⟩ := h
    exact Or.inl (congrFun hignored ip)
  | pinged utc =>
    obtain rfl := h
    exact Or.inl rfl
  | _ =>
    obtain ⟨rfl, -⟩ := h
    exact Or.inl rfl

/-- More time has passed since an earlier moment, at a later one. -/
theorem elapsedSecs_le {now now' since since' : ℕ} (hnow : now ≤ now') (hsince : since ≤ since') :
    Peer.elapsedSecs now since' ≤ Peer.elapsedSecs now' since :=
  Nat.div_le_div_right (by omega)

/-- Nobody is banned in the future. -/
def BansPast (n : Network) : Prop := ∀ ip since, n.table.ignored ip = some since → since ≤ n.now

/-- Each action bans now, if it bans. -/
theorem BansPast.act (hn : BansPast n) (h : n.Act C n.now focus a n') : BansPast n' := by
  intro ip since hsince
  rw [Act.now_eq h]
  rcases Act.ignored h ip with heq | heq | heq
  · exact hn ip since (heq ▸ hsince)
  · rw [heq] at hsince
    exact (Option.some.inj hsince).ge
  · rw [heq, Option.filter_eq_some_iff] at hsince
    exact hn ip since hsince.1

/-- While the ban lasts the address is ignored, and has only connections that it had. -/
def Bars (n : Network) (ip : IpAddr) (since : ℕ) (m : Network) : Prop :=
  since ≤ m.now ∧ (Peer.elapsedSecs m.now since < 600 →
    (∃ since', m.table.ignored ip = some since' ∧ since ≤ since')
    ∧ ∀ e' ∈ m.table.peers, e'.2.addr.ip = ip → Kept n e')

/-- Each action keeps a ban, or renews it. -/
theorem Bars.act {m m' : Network} (hm : Bars n ip since m) (h : m.Act C m.now focus a m') :
    Bars n ip since m' := by
  unfold Bars
  rw [Act.now_eq h]
  refine ⟨hm.1, fun hlasts => ?_⟩
  obtain ⟨⟨since', hignored, hle⟩, hkept⟩ := hm.2 hlasts
  constructor
  · rcases Act.ignored h ip with heq | heq | heq
    · exact ⟨since', heq.trans hignored, hle⟩
    · exact ⟨m.now, heq, hm.1⟩
    · refine ⟨since', ?_, hle⟩
      rw [heq, hignored, Option.filter_some, if_pos]
      exact decide_eq_true (lt_of_le_of_lt (elapsedSecs_le (le_refl _) hle) hlasts)
  · intro e' he' hip
    rcases Act.connections h with ⟨peer, interest, next, -, hfree, -, rfl⟩ | ⟨-, hproceeds⟩
    · rcases mem_addPeer he' with rfl | ⟨hmem, -⟩
      · -- a connection is opened to addresses only that are not ignored
        unfold Peers.isIgnored at hfree
        dsimp only at hip
        rw [hip, hignored] at hfree
        cases hfree
      · exact hkept e' hmem hip
    · obtain ⟨e, he, heq, h'⟩ := hproceeds e' he'
      obtain ⟨e₀, he₀, heq₀, haddr⟩ := hkept e he (h'.shift.addr ▸ hip)
      exact ⟨e₀, he₀, heq₀.trans heq, haddr.trans h'.shift.addr.symm⟩

/-- **A ban lasts ten minutes**: until then the address stays ignored, and gets no new connection,
neither an accepted one nor one that the node makes. -/
theorem run_bars {start : ℕ} {myId : String} {node : Node}
    (h : Run (Step C) Admissible (new start myId node) n) (h' : Run (Step C) Admissible n n')
    (hban : n.table.ignored ip = some since) (hlasts : Peer.elapsedSecs n'.now since < 600) :
    n'.table.isIgnored ip ∧ ∀ e' ∈ n'.table.peers, e'.2.addr.ip = ip → Kept n e' := by
  have hpast : BansPast n := run_keeps h
    (fun _ _ hnone => by cases hnone) (fun m now hle hm ip since hs => (hm ip since hs).trans hle)
    fun _ _ _ _ hm ha => hm.act ha
  have hbars : Bars n ip since n' := by
    refine run_keeps (I := Bars n ip since) h' ⟨hpast ip since hban, fun _ => ⟨⟨since, hban, le_refl _⟩,
      fun e' he' _ => ⟨e', he', rfl, rfl⟩⟩⟩ (fun m now hle hm => ?_) fun _ _ _ _ hm ha => hm.act ha
    exact ⟨hm.1.trans hle, fun hlasts =>
      hm.2 (lt_of_le_of_lt (elapsedSecs_le hle (le_refl _)) hlasts)⟩
  obtain ⟨⟨since', hignored, -⟩, hkept⟩ := hbars.2 hlasts
  refine ⟨?_, hkept⟩
  unfold Peers.isIgnored
  rw [hignored]
  rfl

/-- A visitor that is banned for what it sends, and stays banned. -/
theorem run_bars_visit : ∃ n n', Run (Step plainConfig) Admissible n n'
    ∧ n.table.ignored guestAddr.ip = some 6 ∧ n'.table.isIgnored guestAddr.ip
    ∧ ∀ e' ∈ n'.table.peers, e'.2.addr.ip = guestAddr.ip → Kept n e' := by
  obtain ⟨n₁, n₂, n₃, h₁, h₂, h₃, -, -, -, -, -, hban, -, hlasts⟩ := exists_visit
  exact ⟨n₂, n₃, h₃, hban, run_bars (h₁.trans h₂) h₃ hban hlasts⟩

/-! ## Candidates -/

/-- Candidates have distinct addresses, and no private ones. -/
structure GoodCandidates (n : Network) : Prop where
  distinct : (n.newPeers.map SocketAddr.ip).Nodup
  isPublic : ∀ addr ∈ n.newPeers, addr.skipPrivate = false

/-- Each action takes good candidates only. -/
theorem GoodCandidates.act (hn : GoodCandidates n) (h : n.Act C now focus a n') : GoodCandidates n' := by
  cases a with
  | candidate addr =>
    obtain ⟨rfl, hnew, hpublic⟩ := h
    constructor
    · show ((n.newPeers ++ [addr]).map SocketAddr.ip).Nodup
      rw [List.map_append, List.map_singleton]
      refine hn.distinct.append (List.nodup_singleton _) ?_
      intro ip hmem hsingle
      obtain ⟨x, hx, rfl⟩ := List.mem_map.mp hmem
      exact hnew x hx (List.mem_singleton.mp hsingle)
    · intro x hx
      rcases List.mem_append.mp hx with hx | hx
      · exact hn.isPublic x hx
      · rw [List.mem_singleton.mp hx]
        exact hpublic
  | taken candidates =>
    obtain ⟨rfl, l, hperm, hsub⟩ := h
    constructor
    · exact ((hperm.map SocketAddr.ip).nodup_iff).mp (hn.distinct.sublist (hsub.map _))
    · exact fun x hx => hn.isPublic x (hsub.subset (hperm.symm.subset hx))
  | opened peer interest =>
    obtain ⟨-, -, next, -, rfl⟩ := h
    exact ⟨hn.distinct, hn.isPublic⟩
  | purged =>
    obtain rfl := h
    exact ⟨hn.distinct, hn.isPublic⟩
  | pinged utc =>
    obtain rfl := h
    exact ⟨hn.distinct, hn.isPublic⟩
  | _ =>
    obtain ⟨rfl, -⟩ := h
    exact ⟨hn.distinct, hn.isPublic⟩

/-- **Candidates are distinct and public**, whatever the exchanges bring: no two have the same
address, and none is a loopback address or a private one of the older protocol.  The configured
peers leave nothing among them. -/
theorem run_goodCandidates {start : ℕ} {myId : String} {node : Node}
    (h : Run (Step C) Admissible (new start myId node) n) : GoodCandidates n :=
  run_keeps_timeless h ⟨List.nodup_nil, fun _ hx => absurd hx List.not_mem_nil⟩
    (fun _ _ hm => ⟨hm.distinct, hm.isPublic⟩) fun _ _ _ _ _ hm ha => hm.act ha

/-- A visitor that names a candidate. -/
theorem run_goodCandidates_visit : ∃ n,
    Run (Step plainConfig) Admissible (new 0 "abcdef" (Node.fresh Sample.genesis.hash)) n
    ∧ n.newPeers.length = 1 ∧ GoodCandidates n := by
  obtain ⟨n₁, n₂, n₃, h₁, -, -, -, hcandidates, -⟩ := exists_visit
  exact ⟨n₁, h₁, hcandidates, run_goodCandidates h₁⟩

/-! ## The node behind the network -/

/-- Each action follows the node. -/
theorem Act.follows (h : n.Act C now focus a n') : n.node.Follows C.platform n'.node := by
  cases a with
  | stepped node =>
    obtain ⟨rfl, hfollows⟩ := h
    exact hfollows
  | opened peer interest =>
    obtain ⟨-, -, next, -, rfl⟩ := h
    exact .refl _ _
  | purged =>
    obtain rfl := h
    exact .refl _ _
  | pinged utc =>
    obtain rfl := h
    exact .refl _ _
  | _ =>
    obtain ⟨rfl, -⟩ := h
    exact .refl _ _

/-- **The network refines the node**: in every run the chain and the waiting blocks are those of a
node that is reachable by its own steps.  What holds of every reachable node holds behind the
network. -/
theorem run_reachable {start : ℕ} {myId : String} {node : Node} (hnode : node.Reachable C.platform)
    (h : Run (Step C) Admissible (new start myId node) n) :
    ∃ m : Node, m.Reachable C.platform ∧ m.chain = n.node.chain
      ∧ m.futureBlocks = n.node.futureBlocks := by
  have hfollows : node.Follows C.platform n.node :=
    run_keeps_timeless (I := fun m => node.Follows C.platform m.node) h (.refl _ _) (fun _ _ => id)
      fun _ _ _ _ _ hm ha => hm.trans (Act.follows ha)
  obtain ⟨origin, hrun⟩ := hnode
  obtain ⟨seen, hrun'⟩ := hfollows node.seenBlocks
  exact ⟨{ n.node with seenBlocks := seen }, ⟨origin, hrun.trans hrun'⟩, rfl, rfl⟩

/-- A visit of a node that has mined the origin block. -/
theorem run_reachable_visit : ∃ (n : Network) (m : Node),
    Run (Step plainConfig) Admissible (new 0 "abcdef" (Node.fresh Sample.genesis.hash)) n
    ∧ n.node.chain.getHeight = 1 ∧ Node.Reachable (Sample.platform true) m ∧ m.chain = n.node.chain
    ∧ m.futureBlocks = n.node.futureBlocks := by
  obtain ⟨n₁, n₂, n₃, h₁, -, -, -, -, hheight, -⟩ := exists_visit
  obtain ⟨m, hm⟩ := run_reachable ⟨Sample.genesis.hash, .refl _⟩ h₁
  exact ⟨n₁, m, h₁, hheight, hm⟩

end Network

end P2p
