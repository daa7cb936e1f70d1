/-
# What a step of the network can do

Every step of the network is a run of a few simple actions: a connection is opened with a fresh
token, connections move along the edges of their life, some are dropped, candidates come and go, the
node makes a step of its own.  What an event does is worked out here once (`Network.Step.run`); the
invariants of the network are then invariants of the actions.
-/
import Ruvname.NetworkLoop

open Exec

/-! ## The node behind the network -/

namespace Node

variable {P : Platform} {n n' n'' : Node} {clock : ℕ → UtcTime} {b : Block}

/-- What the hashes that have been seen are does not matter to `handle_block`. -/
theorem handleBlock_seen (P : Platform) (clock : ℕ → UtcTime) (n : Node) (b : Block) (seen : List Bytes) :
    handleBlock P clock { n with seenBlocks := seen } b
      = (n.handleBlock P clock b).map fun r => ({ r.1 with seenBlocks := b.hash :: seen }, r.2) := by
  unfold handleBlock
  dsimp only
  cases n.chain.checkNewBlock P (clock 0) b with
  | error fault => rfl
  | ok r =>
    obtain ⟨quality, cache⟩ := r
    cases quality with
    | good =>
      simp only [ok_bind]
      cases addU64 P.checks b.index 1 with
      | error fault => rfl
      | ok next =>
        simp only [ok_bind]
        cases Chain.addBlock { n.chain with signers := cache } b with
        | error fault => rfl
        | ok c =>
          simp only [ok_bind]
          cases drainFuture P n.futureBlocks.length (fun i => clock (i + 1)) c n.futureBlocks next with
          | error fault => rfl
          | ok r => rfl
    | twin => rfl
    | future => rfl
    | bad =>
      simp only [ok_bind]
      cases addU64 P.checks (Chain.getHeight { n.chain with signers := cache }) 1 with
      | error fault => rfl
      | ok next => rfl
    | rewind =>
      simp only [ok_bind]
      cases subU64 P.checks b.index 1 with
      | error fault => rfl
      | ok parent => rfl
    | fork =>
      simp only [ok_bind]
      cases Chain.getBlock { n.chain with signers := cache } b.index with
      | none => rfl
      | some our =>
        dsimp only
        cases forkWins P { n.chain with signers := cache } b our with
        | error fault => rfl
        | ok wins =>
          cases wins with
          | false => rfl
          | true =>
            simp only [ok_bind, if_true]
            cases Chain.replaceBlock { n.chain with signers := cache } b with
            | error fault => rfl
            | ok c => rfl

/-- **One node follows another**: steps of a node lead from one to the other, up to the hashes that
have been seen. -/
def Follows (P : Platform) (n n' : Node) : Prop :=
  ∀ seen, ∃ seen', Run (Step P) (fun _ _ => True) { n with seenBlocks := seen }
    { n' with seenBlocks := seen' }

namespace Follows

/-- A node that does nothing follows itself. -/
theorem refl (P : Platform) (n : Node) : Follows P n n := fun seen => ⟨seen, .refl _⟩

/-- One change of the node after another. -/
theorem trans (h : Follows P n n') (h' : Follows P n' n'') : Follows P n n'' := by
  intro seen
  obtain ⟨seen', hrun⟩ := h seen
  obtain ⟨seen'', hrun'⟩ := h' seen'
  exact ⟨seen'', hrun.trans hrun'⟩

/-- A block from the network is an input of the node. -/
theorem handleBlock {state : State} (h : n.handleBlock P clock b = .ok (n', state)) : Follows P n n' := by
  intro seen
  refine ⟨b.hash :: seen, Run.single (a := .block clock b) trivial ⟨state, ?_⟩⟩
  rw [handleBlock_seen, h]
  rfl

/-- An announced height is nothing that a run of the node tells apart. -/
theorem noteHeight (P : Platform) (n : Node) (height : UInt64) : Follows P n (n.noteHeight height) := by
  intro seen
  refine ⟨seen, ?_⟩
  unfold Node.noteHeight
  split
  · exact Run.single (a := .height height) trivial rfl
  · exact .refl _

/-- So is a block that the node has mined. -/
theorem addMined {now : UtcTime} (h : n.addMined P now b = .ok n') : Follows P n n' := by
  intro seen
  refine ⟨seen, Run.single (a := .mined now b) trivial ?_⟩
  obtain ⟨⟨quality, cache⟩, hcheck, h⟩ := bind_eq_ok.mp h
  show Node.addMined P now _ b = _
  unfold Node.addMined
  rw [hcheck, ok_bind]
  dsimp only at h ⊢
  by_cases hgood : quality = .good
  · rw [if_pos hgood] at h ⊢
    obtain ⟨c, hadd, h⟩ := bind_eq_ok.mp h
    cases h
    rw [hadd]
    rfl
  · rw [if_neg hgood] at h ⊢
    cases h
    rfl

/-- An announcement changes at most the announced height. -/
theorem handleHeight {height : UInt64} {hash : Bytes} {otherwise state : P2p.State}
    (h : n.handleHeight P height hash otherwise = .ok (n', state)) : Follows P n n' := by
  unfold Node.handleHeight at h
  split_ifs at h
  · obtain ⟨next, -, h⟩ := bind_eq_ok.mp h
    cases h
    exact noteHeight P n height
  · cases h
    exact refl P n
  · cases h
    exact refl P n

/-- What a message does to the node is some steps of the node. -/
theorem handleMessage {session : P2p.Session} {message : P2p.Message} {state : P2p.State}
    (h : n.handleMessage P session clock message = .ok (n', state)) : Follows P n n' := by
  cases message with
  | shake appVersion origin version isPublic randId height =>
    have hshake : n.handleShake session appVersion origin version randId height = (n', state) :=
      Except.ok.inj h
    unfold Node.handleShake at hshake
    split_ifs at hshake
    all_goals
      cases hshake
      first
        | exact refl P n
        | exact noteHeight P n height
  | ping height hash =>
    unfold Node.handleMessage at h
    dsimp only at h
    split_ifs at h
    · cases h
      exact refl P n
    · exact handleHeight h
  | pong height hash =>
    unfold Node.handleMessage at h
    dsimp only at h
    by_cases hseen : hash ∈ n.seenBlocks
    · rw [if_pos hseen] at h
      cases h
      exact refl P n
    · rw [if_neg hseen] at h
      exact handleHeight h
  | getBlock index =>
    unfold Node.handleMessage at h
    dsimp only at h
    split at h <;>
    · cases h
      exact refl P n
  | block index data =>
    obtain ⟨received, -, h⟩ := bind_eq_ok.mp h
    cases received with
    | none =>
      cases h
      exact refl P n
    | some b =>
      dsimp only [Node.hearBlock] at h
      split_ifs at h
      · cases h
        exact refl P n
      · obtain ⟨⟨n₁, state₁⟩, hblock, h⟩ := bind_eq_ok.mp h
        cases h
        exact handleBlock hblock
  | _ =>
    cases h
    exact refl P n

end Follows

end Node

namespace P2p

/-- What is written is the front of what there is to write. -/
theorem Writing.written_prefix (w : Writing) (bytes : List UInt8) : w.written bytes <+: bytes := by
  unfold written
  split
  · exact List.prefix_refl _
  · exact List.take_prefix _ _

/-! ## The life of a connection -/

namespace Peer.State

/-- Messages are read in these states; in the other two a handshake is. -/
def Speaks : State → Prop
  | .connected _ | .serverHandshake _ => False
  | _ => True

/-- A message is written in these states. -/
def Sends : State → Prop
  | .handshakeFinished | .message _ | .sendLoop | .twin => True
  | _ => False

/-- A connection in one of these states waits for the other side. -/
def Rests : State → Prop
  | .connecting | .serverHandshake _ => False
  | s => ¬ s.Sends

/-- The connection has not come further than its handshakes. -/
def Greets : State → Prop
  | .connecting | .connected _ | .serverHandshake _ => True
  | _ => False

/-- The states that an answer leaves. -/
def Answers : State → Prop
  | .idle _ | .message _ | .sendLoop => True
  | _ => False

end Peer.State

/-- What decides how a connection goes on. -/
structure Phase where
  state : Peer.State
  chacha : Option Chacha
  interest : Interest

/-- **How a connection goes on**: what it reads and writes, and what the periodic update makes
of it. -/
inductive Phase.Edge (C : Config) : Phase → Phase → Prop
  | stay (p : Phase) : Edge C p p
  | clientSent {chacha : Option Chacha} {interest : Interest} (now : ℕ) (h : interest.writable) :
      Edge C ⟨.connecting, chacha, interest⟩ ⟨.serverHandshake now, chacha, .reads⟩
  | clientRead {chacha : Option Chacha} {interest : Interest} (since now : ℕ)
      (key : Vector UInt8 32) (nonce : Vector UInt8 12) (h : interest.readable) :
      Edge C ⟨.connected since, chacha, interest⟩
        ⟨.serverHandshake now, some (C.chacha key nonce), .writes⟩
  | serverSent {chacha : Option Chacha} {interest : Interest} (since : ℕ) (h : interest.writable) :
      Edge C ⟨.serverHandshake since, chacha, interest⟩ ⟨.handshakeFinished, chacha, .reads⟩
  | serverRead {chacha : Option Chacha} {interest : Interest} (since : ℕ) (key : Vector UInt8 32)
      (nonce : Vector UInt8 12) (h : interest.readable) :
      Edge C ⟨.serverHandshake since, chacha, interest⟩
        ⟨.handshakeFinished, some (C.chacha key nonce), .writes⟩
  | sent {state : Peer.State} {chacha : Option Chacha} {interest : Interest} (now : ℕ)
      (hstate : state.Sends) (h : interest.writable) :
      Edge C ⟨state, chacha, interest⟩ ⟨.idle now, chacha, .reads⟩
  | rests {state : Peer.State} {chacha : Option Chacha} {interest : Interest} (hstate : state.Rests)
      (h : interest.writable) : Edge C ⟨state, chacha, interest⟩ ⟨state, chacha, .reads⟩
  | answered {state state' : Peer.State} {chacha : Option Chacha} {interest : Interest}
      (interest' : Interest) (hstate : state.Speaks) (h : interest.readable)
      (hanswer : state'.Answers) : Edge C ⟨state, chacha, interest⟩ ⟨state', chacha, interest'⟩
  | asked {chacha : Option Chacha} {interest : Interest} (interest' : Interest) (since : ℕ)
      (data : List UInt8) : Edge C ⟨.idle since, chacha, interest⟩ ⟨.message data, chacha, interest'⟩
  | waits {chacha : Option Chacha} {interest : Interest} (data : List UInt8) :
      Edge C ⟨.message data, chacha, interest⟩ ⟨.message data, chacha, .writes⟩
  | reconnects {chacha : Option Chacha} {interest : Interest} (since : ℕ) :
      Edge C ⟨.offline since, chacha, interest⟩ ⟨.connecting, chacha, .writes⟩

/-- What a connection was and what it becomes. -/
structure Shift (C : Config) (l : Link) (p : Peer) (l' : Link) (p' : Peer) : Prop where
  addr : p'.addr = p.addr
  reconnects : p'.reconnects = p.reconnects ∨ p'.reconnects = 0 ∨ ∃ since, p.state = .offline since
  edge : Phase.Edge C ⟨p.state, l.chacha, l.interest⟩ ⟨p'.state, l'.chacha, l'.interest⟩

/-- Nothing happens on the connection. -/
theorem Shift.refl (C : Config) (l : Link) (p : Peer) : Shift C l p l p := ⟨rfl, Or.inl rfl, .stay _⟩

/-- What is noted about a peer does not change its state. -/
theorem Shift.of_note {C : Config} {l : Link} {p p' : Peer} (haddr : p'.addr = p.addr) (hstate : p'.state = p.state)
    (hreconnects : p'.reconnects = p.reconnects ∨ p'.reconnects = 0) : Shift C l p l p' where
  addr := haddr
  reconnects := hreconnects.imp_right Or.inl
  edge := hstate ▸ .stay _

/-! ## Actions -/

/-- What happens to the network, piece by piece. -/
inductive Action where
  | opened (peer : Peer) (interest : Interest)
  | shifted (table : Peers) (links : ℕ → Link)
  | dropped (table : Peers)
  | purged
  | reordered (table : Peers)
  | candidate (addr : SocketAddr)
  | taken (candidates : List SocketAddr)
  | pinged (utc : ℤ)
  | stepped (node : Node)
  | noted (x : Traffic)

/-- A new connection: one that was accepted, or one that the node makes. -/
def Opens (peer : Peer) (interest : Interest) : Prop :=
  peer.reconnects = 0 ∧ (peer.state = .connecting ∧ interest = .writes
    ∨ ∃ since, peer.state = .connected since ∧ interest = .reads)

/-- The connection of a record. -/
def Traffic.token : Traffic → ℕ
  | .handshake token _ | .greeted token _ _ _ | .wrote token _ _ _ | .heard token _ _ _ => token

/-- **A record tells what happened**: a message was written or heard on a connection that was
registered for it and did not wait for a handshake, under the cipher of the connection. -/
def Traffic.Fits (C : Config) (n : Network) : Traffic → Prop
  | .handshake _ _ | .greeted _ _ _ _ => True
  | .wrote token chacha data bytes => ∃ peer, n.table.getPeer token = some peer
      ∧ (n.links token).chacha = chacha ∧ (n.links token).interest.writable
      ∧ (∀ since, peer.state ≠ .serverHandshake since) ∧ peer.state ≠ .connecting
      ∧ ∃ encoded, encodeBytes (chacha.map Chacha.cipher) data = some encoded
        ∧ bytes <+: sendMessage encoded
  | .heard token chacha frame message => ∃ peer, n.table.getPeer token = some peer
      ∧ (n.links token).chacha = chacha ∧ (n.links token).interest.readable ∧ peer.state.Speaks
      ∧ Message.fromBytes C.platform.checks
        ((decodeMessage (chacha.map Chacha.cipher) frame).getD []) = .ok (some message)

/-- A handshake of the connection is on record that leads to this cipher. -/
def Learned (C : Config) (records : List Traffic) (token : ℕ) (chacha : Chacha) : Prop :=
  ∃ key nonce taken, .greeted token key nonce taken ∈ records ∧ chacha = C.chacha key nonce

/-- What was learned stays learned as more is sent. -/
theorem Learned.mono {C : Config} {records records' : List Traffic} {token : ℕ} {chacha : Chacha}
    (h : Learned C records token chacha) (hrecords : records <+: records') :
    Learned C records' token chacha := by
  obtain ⟨key, nonce, taken, hmem, rfl⟩ := h
  exact ⟨key, nonce, taken, hrecords.subset hmem, rfl⟩

/-- **A connection goes on**: in an event of another one it stays as it is until its handshakes are
over, and it gets no cipher but by a handshake. -/
structure Proceeds (C : Config) (focus : Option ℕ) (n : Network) (token : ℕ) (p : Peer) (l' : Link)
    (p' : Peer) : Prop where
  shift : Shift C (n.links token) p l' p'
  greets : p.state.Greets → focus = some token ∨ l' = n.links token ∧ p' = p
  chacha : l'.chacha = (n.links token).chacha
    ∨ ∃ chacha, l'.chacha = some chacha ∧ Learned C n.traffic token chacha

/-- A peer that is left alone proceeds. -/
theorem Proceeds.refl (C : Config) (focus : Option ℕ) (n : Network) (token : ℕ) (p : Peer) :
    Proceeds C focus n token p (n.links token) p :=
  ⟨.refl _ _ _, fun _ => Or.inr ⟨rfl, rfl⟩, Or.inl rfl⟩

/-- The handshakes are over: the cipher stays. -/
theorem Proceeds.of_not_greets {C : Config} {focus : Option ℕ} {n : Network} {token : ℕ} {p p' : Peer}
    {l' : Link} (h : Shift C (n.links token) p l' p') (hgreets : ¬ p.state.Greets)
    (hchacha : l'.chacha = (n.links token).chacha) : Proceeds C focus n token p l' p' :=
  ⟨h, fun hp => absurd hp hgreets, Or.inl hchacha⟩

namespace Network

variable (C : Config) (now : ℕ) (focus : Option ℕ)

/-- An action of the network at an instant.  In an event of one connection there are no records of
the others. -/
def Act (n : Network) (a : Action) (n' : Network) : Prop :=
  match a with
  | .opened peer interest => Opens peer interest ∧ n.table.isIgnored peer.addr.ip = false
      ∧ ∃ next, addU64 C.platform.checks n.token 1 = .ok next
        ∧ n' = n.addConnection next peer interest
  | .shifted table links => n' = { n with table, links } ∧ ∃ g, table = n.table.edit g
      ∧ ∀ e ∈ n.table.peers, Proceeds C focus n e.1 e.2 (links e.1) (g e.1 e.2)
  | .dropped table => n' = { n with table } ∧ Peers.Dropped now n.table table
  | .purged => n' = { n with table := n.table.purgeIgnored now }
  | .reordered table => n' = { n with table } ∧ table.peers.Perm n.table.peers
      ∧ table.ignored = n.table.ignored
  | .candidate addr => n' = { n with newPeers := n.newPeers ++ [addr] }
      ∧ (∀ a ∈ n.newPeers, a.ip ≠ addr.ip) ∧ addr.skipPrivate = false
  | .taken candidates => n' = { n with newPeers := candidates } ∧ candidates.Subperm n.newPeers
  | .pinged utc => n' = { n with behindPingSentTime := utc }
  | .stepped node => n' = { n with node } ∧ n.node.Follows C.platform node
  | .noted x => n' = n.note x ∧ x.Fits C n ∧ focus = some x.token

/-- Some actions lead from one network to the other. -/
abbrev Moves (n n' : Network) : Prop := Run (Act C now focus) (fun _ _ => True) n n'

/-- What is left of a connection whose event was handled, or not. -/
def Leads (token : ℕ) (n : Network) (r : Network × Bool) : Prop :=
  Moves C now (some token) n (if r.2 then r.1 else r.1.closePeer now token)

variable {C now focus} {n n' n'' : Network} {token : ℕ} {peer : Peer} {f : Peer → Peer}

/-! ## Single actions -/

/-- A single action is a move. -/
theorem Moves.of {a : Action} (h : n.Act C now focus a n') : Moves C now focus n n' := Run.single trivial h

/-- A peer that has been changed is found as changed. -/
theorem getPeer_modify {t : Peers} (h : t.getPeer token = some peer) :
    (t.modify token f).getPeer token = some (f peer) := by
  have hmem : (token, f peer) ∈ (t.modify token f).peers := by
    refine List.mem_map.mpr ⟨(token, peer), Peers.mem_of_getPeer h, ?_⟩
    rw [Peers.change, if_pos rfl]
  exact Peers.getPeer_of_mem hmem

/-- A connection goes on, and the others stay. -/
theorem Moves.shift (hpeer : n.table.getPeer token = some peer) (k : Link → Link)
    (h : Proceeds C focus n token peer (k (n.links token)) (f peer)) :
    Moves C now focus n ((n.relink token k).modify token f) := by
  apply Moves.of (a := .shifted _ _)
  refine ⟨rfl, _, Peers.modify_eq_edit n.table token f, ?_⟩
  rintro ⟨token', p⟩ he
  by_cases htoken : token' = token
  · have hp : p = peer := by
      have hget : n.table.getPeer token' = some p := Peers.getPeer_of_mem he
      rw [htoken, hpeer] at hget
      exact (Option.some.inj hget).symm
    rw [htoken, hp]
    show Proceeds C focus n token peer (Function.update n.links token _ token)
      (if token = token then f peer else peer)
    rw [Function.update_self, if_pos rfl]
    exact h
  · have hlink : (n.relink token k).links token' = n.links token' := Function.update_of_ne htoken _ _
    have hsame : (if token' = token then f p else p) = p := if_neg htoken
    dsimp only
    rw [hlink, hsame]
    exact .refl C focus n token' p

theorem relink_id (n : Network) (token : ℕ) : n.relink token id = n := by
  unfold relink
  rw [id, Function.update_eq_self]

/-- Two changes of a connection are one. -/
theorem relink_relink (n : Network) (token : ℕ) (k k' : Link → Link) :
    (n.relink token k).relink token k' = n.relink token (k' ∘ k) := by
  unfold relink
  dsimp only
  rw [Function.update_self, Function.update_idem]
  rfl

/-- What is noted about a peer. -/
theorem Moves.change (hpeer : n.table.getPeer token = some peer)
    (hfocus : peer.state.Greets → focus = some token)
    (h : Shift C (n.links token) peer (n.links token) (f peer)) :
    Moves C now focus n (n.modify token f) := by
  have hshift : Moves C now focus n ((n.relink token id).modify token f) :=
    .shift hpeer id ⟨h, fun hgreets => Or.inl (hfocus hgreets), Or.inl rfl⟩
  rwa [relink_id] at hshift

/-- A loss of peers is a move. -/
theorem Moves.drop {table : Peers} (h : Peers.Dropped now n.table table) :
    Moves C now focus n { n with table } := .of (a := .dropped table) ⟨rfl, h⟩

/-- So is closing a peer. -/
theorem Moves.close (n : Network) (token : ℕ) : Moves C now focus n (n.closePeer now token) :=
  .drop (.closePeer now n.table token)

/-- What is done to a connection before it is closed makes no difference. -/
theorem Moves.closeModified (n : Network) (token : ℕ) (f : Peer → Peer) :
    Moves C now focus n ((n.modify token f).closePeer now token) :=
  .drop (.closePeer_modify now n.table token f)

/-- Registering again changes the interest only. -/
theorem reregister_eq_ok {interest : Interest} (h : n.reregister C token interest = .ok n') :
    n' = n.relink token fun l => { l with interest } := by
  unfold reregister at h
  split at h
  · exact (Except.ok.inj h).symm
  · cases h

/-! ## Connections -/

/-- A connection is opened in the state that its direction asks for. -/
theorem register_moves {interest : Interest} {error : String} (hopens : Opens peer interest)
    (hignored : n.table.isIgnored peer.addr.ip = false)
    (h : n.register C peer interest error = .ok n') : Moves C now focus n n' := by
  obtain ⟨next, hnext, h⟩ := bind_eq_ok.mp h
  split at h
  · exact .of (a := .opened peer interest) ⟨hopens, hignored, next, hnext, (Except.ok.inj h).symm⟩
  · cases h

/-- An incoming connection. -/
theorem accept_moves {address : SocketAddr} (h : n.accept C now address = .ok n') :
    Moves C now focus n n' := by
  unfold accept at h
  dsimp only at h
  split_ifs at h with hignored hoverlay
  · exact Except.ok.inj h ▸ .refl _
  · exact Except.ok.inj h ▸ .refl _
  · exact register_moves ⟨rfl, Or.inr ⟨now, rfl, rfl⟩⟩ (Bool.eq_false_iff.mpr hignored) h

/-- An outgoing connection. -/
theorem connectPeer_moves {connects : SocketAddr → Bool} {addr : SocketAddr} {ok : Bool}
    (h : n.connectPeer C now connects addr = .ok (n', ok)) : Moves C now focus n n' := by
  unfold connectPeer at h
  split_ifs at h with hignored hoverlay hconnects
  · cases h
    exact .refl _
  · cases h
    exact .refl _
  · obtain ⟨n₁, hregister, h⟩ := bind_eq_ok.mp h
    cases h
    exact register_moves ⟨rfl, Or.inl ⟨rfl, rfl⟩⟩ (Bool.eq_false_iff.mpr hignored) hregister
  · cases h
    exact .refl _

/-- Connections to the candidates, one after another. -/
theorem connectNewPeers_moves {connects : SocketAddr → Bool}
    (h : n.connectNewPeers C now connects = .ok n') : Moves C now focus n n' := by
  unfold connectNewPeers at h
  split at h
  · exact Except.ok.inj h ▸ .refl _
  · rename_i addr rest hsorted
    obtain ⟨⟨n₁, ok⟩, hconnect, h⟩ := bind_eq_ok.mp h
    cases h
    have hsub : rest.Subperm n.newPeers := by
      have hsublist : (addr :: rest).Sublist
          (n.newPeers.insertionSort fun a b => a.rank ≤ b.rank) := by
        rw [← hsorted]
        exact List.destutter_sublist _ _
      exact ((List.sublist_cons_self addr rest).trans hsublist).subperm.trans
        (List.perm_insertionSort _ _).subperm
    exact (Moves.of (a := .taken rest) ⟨rfl, hsub⟩).trans (connectPeer_moves hconnect)

/-- By induction on the addresses of the peer. -/
theorem connectAddresses_moves {connects : SocketAddr → Bool} {addresses : List SocketAddr}
    {set set' : Finset ℕ} (h : connectAddresses C now connects addresses set n = .ok (n', set')) :
    Moves C now focus n n' := by
  induction addresses generalizing set n with
  | nil =>
    cases h
    exact .refl _
  | cons addr addresses ih =>
    unfold connectAddresses at h
    split at h
    · exact ih h
    · obtain ⟨⟨n₁, ok⟩, hconnect, h⟩ := bind_eq_ok.mp h
      exact (connectPeer_moves hconnect).trans (ih h)

/-- By induction on the configured peers. -/
theorem connectPeers_moves {connects : SocketAddr → Bool} {peersAddrs : List (List SocketAddr)}
    {set : Finset ℕ} (h : connectPeers C now connects peersAddrs set n = .ok n') :
    Moves C now focus n n' := by
  induction peersAddrs generalizing set n with
  | nil => exact Except.ok.inj h ▸ .refl _
  | cons addresses peersAddrs ih =>
    unfold connectPeers at h
    split at h
    · exact Except.ok.inj h ▸ .refl _
    · obtain ⟨⟨n₁, set₁⟩, hconnect, h⟩ := bind_eq_ok.mp h
      exact (connectAddresses_moves hconnect).trans (ih h)

/-! ## Messages -/

/-- An address from a peer becomes a candidate, or nothing happens. -/
theorem addCandidate_moves (n : Network) (text : String) : Moves C now focus n (n.addCandidate C text) := by
  unfold addCandidate
  split
  · exact .refl _
  · rename_i addr haddr
    split_ifs with hpeers hcandidates hignored hprivate
    · exact .refl _
    · exact .refl _
    · exact .refl _
    · exact .refl _
    · refine .of (a := .candidate addr) ⟨rfl, fun a ha hip => hcandidates ?_, ?_⟩
      · exact List.any_eq_true.mpr ⟨a, ha, decide_eq_true hip⟩
      · exact Bool.eq_false_iff.mpr hprivate

/-- The same for a list of addresses. -/
theorem addPeersFromExchange_moves (n : Network) (texts : List String) :
    Moves C now focus n (n.addPeersFromExchange C texts) := by
  unfold addPeersFromExchange
  induction texts generalizing n with
  | nil => exact .refl _
  | cons text texts ih => exact (addCandidate_moves n text).trans (ih _)

/-- What is noted when a message is handled: the peer keeps its state, and the rest stays but for
the candidates. -/
structure Noting (C : Config) (now token : ℕ) (peer : Peer) (n n' : Network) : Prop where
  moves : Moves C now (some token) n n'
  links : n'.links = n.links
  node : n'.node = n.node
  peer : ∃ peer', n'.table.getPeer token = some peer' ∧ peer'.state = peer.state

/-- Peers, connections and the node are left as they are. -/
theorem addPeersFromExchange_frame (n : Network) (texts : List String) :
    (n.addPeersFromExchange C texts).table = n.table ∧ (n.addPeersFromExchange C texts).links = n.links
      ∧ (n.addPeersFromExchange C texts).node = n.node := by
  unfold addPeersFromExchange
  induction texts generalizing n with
  | nil => exact ⟨rfl, rfl, rfl⟩
  | cons text texts ih =>
    have hone : (n.addCandidate C text).table = n.table ∧ (n.addCandidate C text).links = n.links
        ∧ (n.addCandidate C text).node = n.node := by
      unfold addCandidate
      split
      · exact ⟨rfl, rfl, rfl⟩
      · split_ifs <;> exact ⟨rfl, rfl, rfl⟩
    rw [List.foldl_cons, (ih _).1, (ih _).2.1, (ih _).2.2]
    exact hone

/-- What is noted about a peer on a message leaves its connection alone. -/
theorem noted_noting {r : Reading} {h : Hearing} (htoken : h.token = token)
    (hpeer : n.table.getPeer token = some peer) :
    Noting C now token peer n (n.noted C now token r h) := by
  have hnote : ∀ f : Peer → Peer, (∀ p, (f p).addr = p.addr) → (∀ p, (f p).state = p.state) →
      (∀ p, (f p).reconnects = p.reconnects ∨ (f p).reconnects = 0) →
      Noting C now token peer n (n.modify token f) := fun f haddr hstate hreconnects =>
    ⟨.change hpeer (fun _ => rfl) (.of_note (haddr peer) (hstate peer) (hreconnects peer)), rfl, rfl, _,
      getPeer_modify hpeer, hstate peer⟩
  have hkeeps : ∀ f : Peer → Peer, (∀ p, (f p).addr = p.addr) → (∀ p, (f p).state = p.state) →
      (∀ p, (f p).reconnects = p.reconnects) → Noting C now token peer n (n.modify token f) :=
    fun f haddr hstate hreconnects => hnote f haddr hstate fun p => Or.inl (hreconnects p)
  have hnothing : Noting C now token peer n n := ⟨.refl _, rfl, rfl, _, hpeer, rfl⟩
  unfold noted
  split
  · -- `Hand`
    rename_i hmessage
    unfold Peers.noted
    rw [hmessage]
    dsimp only
    split_ifs
    · rw [htoken]
      exact hkeeps _ (fun _ => rfl) (fun _ => rfl) fun _ => rfl
    · exact hnothing
  · -- `Shake`
    rename_i hmessage
    unfold Peers.noted
    rw [hmessage]
    dsimp only
    split_ifs
    · rw [htoken]
      exact hnote _ (fun _ => rfl) (fun _ => rfl) fun _ => Or.inr rfl
    · exact hnothing
  · exact hkeeps _ (fun _ => rfl) (fun _ => rfl) fun _ => rfl
  · exact hkeeps _ (fun _ => rfl) (fun _ => rfl) fun _ => rfl
  · exact hkeeps _ (fun _ => rfl) (fun _ => rfl) fun _ => rfl
  · exact hkeeps _ (fun _ => rfl) (fun _ => rfl) fun _ => rfl
  · -- the addresses of an exchange
    rename_i texts hmessage
    have hactive := hkeeps (Peer.setActive now true) (fun _ => rfl) (fun _ => rfl) fun _ => rfl
    obtain ⟨htable, hlinks, hnode⟩ :=
      addPeersFromExchange_frame (C := C) (n.modify token (Peer.setActive now true))
        (r.hashSet texts)
    refine ⟨hactive.moves.trans (addPeersFromExchange_moves _ _), hlinks.trans hactive.links,
      hnode.trans hactive.node, ?_⟩
    rw [htable]
    exact hactive.peer
  · split
    · split_ifs
      · exact hkeeps _ (fun _ => rfl) (fun _ => rfl) fun _ => rfl
      · exact hkeeps _ (fun _ => rfl) (fun _ => rfl) fun _ => rfl
    · exact hkeeps _ (fun _ => rfl) (fun _ => rfl) fun _ => rfl
  · exact hnothing
  · exact hnothing
  · exact hnothing

/-- A connection that has been answered, and is still registered for writing if it was. -/
def Answered (token : ℕ) (n : Network) (r : Network × Bool) : Prop :=
  (n.links token).interest.writable → (r.1.links token).interest.writable

theorem writable_relink {interest : Interest} (h : interest.writable) :
    ((n.relink token fun l => { l with interest }).links token).interest.writable := by
  show (Function.update n.links token _ token).interest.writable = true
  rwa [Function.update_self]

/-- The state that a message is answered with is entered, or the peer is closed. -/
theorem settle_leads {state : State} {r : Network × Bool} (hpeer : n.table.getPeer token = some peer)
    (hspeaks : peer.state.Speaks) (hread : (n.links token).interest.readable)
    (h : n.settle C now token state = .ok r) : Leads C now token n r ∧ Answered token n r := by
  have hanswer : ∀ (state' : Peer.State) (l' : Link), state'.Answers →
      l'.chacha = (n.links token).chacha →
      Shift C (n.links token) peer l' (peer.setState state') := by
    intro state' l' hstate' hchacha
    refine ⟨rfl, Or.inl rfl, ?_⟩
    rw [hchacha]
    exact .answered _ hspeaks hread hstate'
  cases state with
  | message m =>
    obtain ⟨n₁, hreg, h⟩ := bind_eq_ok.mp h
    cases h
    rw [reregister_eq_ok hreg]
    exact ⟨.shift hpeer _ ⟨hanswer (.message m.toVec) _ trivial rfl, fun _ => Or.inl rfl, Or.inl rfl⟩,
      fun _ => writable_relink rfl⟩
  | idle =>
    cases h
    refine ⟨.change hpeer (fun _ => rfl) ?_, id⟩
    exact ⟨rfl, Or.inl rfl, .answered _ hspeaks hread trivial⟩
  | error =>
    cases h
    exact ⟨.refl _, id⟩
  | banned =>
    obtain ⟨table, hignore, h⟩ := bind_eq_ok.mp h
    cases h
    exact ⟨.drop (.ignorePeer hignore), id⟩
  | loop =>
    obtain ⟨table, hignore, h⟩ := bind_eq_ok.mp h
    cases h
    exact ⟨.drop (.ignorePeer_modify hignore), id⟩
  | sendLoop =>
    obtain ⟨n₁, hreg, h⟩ := bind_eq_ok.mp h
    cases h
    rw [reregister_eq_ok hreg]
    exact ⟨.shift hpeer _ ⟨hanswer .sendLoop _ trivial rfl, fun _ => Or.inl rfl, Or.inl rfl⟩,
      fun _ => writable_relink rfl⟩
  | twin =>
    cases h
    exact ⟨.closeModified n token _, id⟩

/-- Moves before a step that leads somewhere. -/
theorem Leads.of_moves {n₁ : Network} {r : Network × Bool} (h₁ : Moves C now (some token) n n₁)
    (h : Leads C now token n₁ r) : Leads C now token n r := Run.trans h₁ h

/-- A message is heard on a connection that waits for no handshake. -/
theorem hear_leads {reading : Reading} {frame : List UInt8} {message : Message} {r : Network × Bool}
    (hpeer : n.table.getPeer token = some peer) (hspeaks : peer.state.Speaks)
    (hread : (n.links token).interest.readable)
    (hmessage : Message.fromBytes C.platform.checks
      ((decodeMessage ((n.links token).chacha.map Chacha.cipher) frame).getD []) = .ok (some message))
    (h : n.hear C now token reading frame peer message = .ok r) :
    Leads C now token n r ∧ Answered token n r := by
  obtain ⟨⟨node, state⟩, hanswer, h⟩ := bind_eq_ok.mp h
  dsimp only at h
  have hrecord : Moves C now (some token) n (n.note (.heard token (n.links token).chacha frame message)) :=
    .of (a := .noted _) ⟨rfl, ⟨peer, hpeer, rfl, hread, hspeaks, hmessage⟩, rfl⟩
  obtain ⟨hnoted, hlinks, hnode, peer', hpeer', hstate⟩ : Noting C now token peer _ _ :=
    noted_noting (C := C) (r := reading) (h := n.hearing C now token reading peer message) rfl hpeer
      (n := n.note (.heard token (n.links token).chacha frame message))
  generalize (n.note _).noted C now token _ _ = n₁ at h hnoted hlinks hnode hpeer'
  have hstepped : Moves C now (some token) n₁ { n₁ with node } := by
    refine .of (a := .stepped node) ⟨rfl, ?_⟩
    rw [hnode]
    exact .handleMessage hanswer
  have hread₁ : (n₁.links token).interest.readable := by
    rw [hlinks]
    exact hread
  obtain ⟨hleads, hanswered⟩ := settle_leads (n := { n₁ with node }) hpeer' (hstate ▸ hspeaks) hread₁ h
  refine ⟨.of_moves ((hrecord.trans hnoted).trans hstepped) hleads, fun hwritable => hanswered ?_⟩
  show (n₁.links token).interest.writable = true
  rw [hlinks]
  exact hwritable

/-! ## Reading -/

/-- What cannot be handled is closed. -/
theorem leads_close (n : Network) (token : ℕ) : Leads C now token n (n, false) := .close n token

/-- A handshake was read: the connection has a cipher and is registered for writing. -/
theorem shook_leads {key : Vector UInt8 32} {nonce : Vector UInt8 12} {state : Peer.State} {taken : ℕ}
    (hpeer : n.table.getPeer token = some peer)
    (hedge : Phase.Edge C ⟨peer.state, (n.links token).chacha, (n.links token).interest⟩
      ⟨state, some (C.chacha key nonce), .writes⟩) :
    Leads C now token n ((((n.relink token fun l => { l with interest := .writes }).note
        (.greeted token key nonce taken)).setChacha token (C.chacha key nonce)).modify token
          (Peer.setState state), true)
      ∧ (true → Answered token n ((((n.relink token fun l => { l with interest := .writes }).note
        (.greeted token key nonce taken)).setChacha token (C.chacha key nonce)).modify token
          (Peer.setState state), true)) := by
  have hrecord : Moves C now (some token) n (n.note (.greeted token key nonce taken)) :=
    .of (a := .noted _) ⟨rfl, trivial, rfl⟩
  have hlearned : Learned C (n.note (.greeted token key nonce taken)).traffic token (C.chacha key nonce) :=
    ⟨key, nonce, taken, List.mem_append_right _ (List.mem_singleton_self _), rfl⟩
  have hshift : Moves C now (some token) (n.note (.greeted token key nonce taken))
      (((n.note (.greeted token key nonce taken)).relink token
        ((fun l => { l with chacha := some (C.chacha key nonce) })
          ∘ fun l => { l with interest := .writes })).modify token (Peer.setState state)) :=
    .shift (n := n.note (.greeted token key nonce taken)) hpeer _
      ⟨⟨rfl, Or.inl rfl, hedge⟩, fun _ => Or.inl rfl, Or.inr ⟨_, rfl, hlearned⟩⟩
  rw [← relink_relink] at hshift
  refine ⟨hrecord.trans hshift, fun _ _ => ?_⟩
  show (Function.update (Function.update n.links token _) token _ token).interest.writable = true
  rw [Function.update_self]
  show (Function.update n.links token _ token).interest.writable = true
  rw [Function.update_self]
  rfl

/-- **Reading** leads a peer along its life, or closes it. -/
theorem processReadable_leads {reading : Reading} {r : Network × Bool}
    (hread : (n.links token).interest.readable) (h : n.processReadable C now token reading = .ok r) :
    Leads C now token n r ∧ (r.2 → Answered token n r) := by
  have hclose : Leads C now token n (n, false) ∧ (false → Answered token n (n, false)) :=
    ⟨leads_close n token, fun h => by cases h⟩
  unfold processReadable at h
  cases hpeer : n.table.getPeer token with
  | none =>
    rw [hpeer] at h
    exact Except.ok.inj h ▸ hclose
  | some peer =>
    rw [hpeer] at h
    dsimp only at h
    by_cases hclosed : reading.readClosed
    · rw [if_pos hclosed] at h
      exact Except.ok.inj h ▸ hclose
    rw [if_neg hclosed] at h
    split at h
    · -- the handshake of a client
      rename_i since hstate
      split at h
      · exact Except.ok.inj h ▸ hclose
      · rename_i key hkey
        obtain ⟨n₁, hreg, h⟩ := bind_eq_ok.mp h
        obtain rfl := reregister_eq_ok hreg
        cases h
        apply shook_leads hpeer
        rw [hstate]
        exact .clientRead since now (toKey key) reading.nonce hread
    · -- the handshake of a server
      rename_i since hstate
      split at h
      · exact Except.ok.inj h ▸ hclose
      · rename_i data hdata
        split at h
        · exact Except.ok.inj h ▸ hclose
        obtain ⟨n₁, hreg, h⟩ := bind_eq_ok.mp h
        obtain rfl := reregister_eq_ok hreg
        cases h
        apply shook_leads hpeer
        rw [hstate]
        exact .serverRead since (toKey (data.take 32)) (toNonce (data.drop 32)) hread
    · -- a message
      rename_i hconnected hserver
      have hspeaks : peer.state.Speaks := by
        cases hstate : peer.state with
        | connected since => exact absurd hstate (hconnected since)
        | serverHandshake since => exact absurd hstate (hserver since)
        | _ => trivial
      split at h
      · exact Except.ok.inj h ▸ hclose
      · obtain ⟨message, hmessage, h⟩ := bind_eq_ok.mp h
        cases message with
        | none => exact Except.ok.inj h ▸ hclose
        | some message =>
          obtain ⟨hleads, hanswered⟩ := hear_leads hpeer hspeaks hread hmessage h
          exact ⟨hleads, fun _ => hanswered⟩

/-! ## Writing -/

theorem modify_id (n : Network) (token : ℕ) : n.modify token id = n := by
  have hchange : Peers.change token id = id := by
    funext e
    unfold Peers.change
    split <;> rfl
  unfold modify Peers.modify
  simp only [hchange, List.map_id_fun, id]

/-- A message that is written is recorded as it is written. -/
theorem sendFrame_fits {w : Writing} {data : List UInt8} (hpeer : n.table.getPeer token = some peer)
    (hwrite : (n.links token).interest.writable) (hspeaks : ∀ since, peer.state ≠ .serverHandshake since)
    (hconnects : peer.state ≠ .connecting) (h : n.sendFrame w token data = some n') :
    ∃ x : Traffic, x.Fits C n ∧ x.token = token ∧ n' = n.note x := by
  obtain ⟨encoded, hencoded, hn'⟩ := Option.map_eq_some_iff.mp h
  exact ⟨.wrote token (n.links token).chacha data (w.written (sendMessage encoded)),
    ⟨peer, hpeer, rfl, hwrite, hspeaks, hconnects, encoded, hencoded, w.written_prefix _⟩, rfl,
    hn'.symm⟩

/-- Something was written, the peer changes, and the connection waits for an answer. -/
theorem note_moves {x : Traffic} (hx : x.Fits C n) (htoken : x.token = token)
    (hpeer : n.table.getPeer token = some peer)
    (h : Shift C (n.links token) peer { n.links token with interest := .reads } (f peer)) :
    Moves C now (some token) n
      (((n.note x).modify token f).relink token fun l => { l with interest := .reads }) := by
  have hshift : Moves C now (some token) (n.note x)
      (((n.note x).relink token fun l => { l with interest := .reads }).modify token f) :=
    .shift (n := n.note x) hpeer _ ⟨h, fun _ => Or.inl rfl, Or.inl rfl⟩
  exact (Moves.of (a := .noted x) ⟨rfl, hx, congrArg some htoken.symm⟩).trans hshift

/-- The same for a message that must be encoded. -/
theorem sendFrameUnwrap_moves {w : Writing} {message : Message} (hpeer : n.table.getPeer token = some peer)
    (hwrite : (n.links token).interest.writable) (hspeaks : ∀ since, peer.state ≠ .serverHandshake since)
    (hconnects : peer.state ≠ .connecting) (hsent : n.sendFrameUnwrap w token message = .ok n')
    (h : Shift C (n.links token) peer { n.links token with interest := .reads } (f peer)) :
    Moves C now (some token) n ((n'.modify token f).relink token fun l => { l with interest := .reads }) := by
  unfold sendFrameUnwrap at hsent
  split at hsent
  · rename_i n₁ hframe
    obtain ⟨x, hx, htoken, hn₁⟩ := sendFrame_fits (C := C) hpeer hwrite hspeaks hconnects hframe
    rw [← Except.ok.inj hsent, hn₁]
    exact note_moves hx htoken hpeer h
  · cases hsent

/-- Nothing is written. -/
theorem rests_moves (hpeer : n.table.getPeer token = some peer)
    (hwrite : (n.links token).interest.writable) (hrests : peer.state.Rests) :
    Moves C now (some token) n (n.relink token fun l => { l with interest := .reads }) := by
  have hshift : Moves C now (some token) n
      ((n.relink token fun l => { l with interest := .reads }).modify token id) :=
    .shift hpeer _ ⟨⟨rfl, Or.inl rfl, .rests hrests hwrite⟩, fun _ => Or.inl rfl, Or.inl rfl⟩
  rwa [modify_id] at hshift

/-- What the connection becomes when the message of its state has been written. -/
theorem shift_sent (hwrite : (n.links token).interest.writable) (hsends : peer.state.Sends)
    (hstate : (f peer).state = .idle now) (haddr : (f peer).addr = peer.addr)
    (hreconnects : (f peer).reconnects = peer.reconnects) :
    Shift C (n.links token) peer { n.links token with interest := .reads } (f peer) := by
  refine ⟨haddr, Or.inl hreconnects, ?_⟩
  rw [hstate]
  exact .sent now hsends hwrite

/-- No handshake is under way where messages are sent. -/
theorem not_handshakes_of_sends {state : Peer.State} (h : state.Sends) :
    (∀ since, state ≠ .serverHandshake since) ∧ state ≠ .connecting := by
  constructor
  · rintro since rfl
    exact h
  · rintro rfl
    exact h

/-- A message of the node's own is written. -/
theorem sent_moves {w : Writing} {message : Message} (hpeer : n.table.getPeer token = some peer)
    (hwrite : (n.links token).interest.writable) (hsends : peer.state.Sends)
    (hsent : n.sendFrameUnwrap w token message = .ok n') (hstate : (f peer).state = .idle now)
    (haddr : (f peer).addr = peer.addr) (hreconnects : (f peer).reconnects = peer.reconnects) :
    Moves C now (some token) n ((n'.modify token f).relink token fun l => { l with interest := .reads }) :=
  sendFrameUnwrap_moves hpeer hwrite (not_handshakes_of_sends hsends).1 (not_handshakes_of_sends hsends).2
    hsent (shift_sent hwrite hsends hstate haddr hreconnects)

/-- The message that waits is written, unless it cannot be encrypted. -/
theorem waiting_moves {w : Writing} {data : List UInt8} (hpeer : n.table.getPeer token = some peer)
    (hwrite : (n.links token).interest.writable) (hstate : peer.state = .message data) :
    Moves C now (some token) n ((((n.sendFrame w token data).getD n).modify token
      (Peer.setState (.idle now))).relink token fun l => { l with interest := .reads }) := by
  have hsends : peer.state.Sends := by
    rw [hstate]
    trivial
  have hshift : Shift C (n.links token) peer { n.links token with interest := .reads }
      (peer.setState (.idle now)) := shift_sent hwrite hsends rfl rfl rfl
  cases hframe : n.sendFrame w token data with
  | none =>
    have hmoves : Moves C now (some token) n ((n.relink token fun l => { l with interest := .reads }).modify
        token (Peer.setState (.idle now))) := .shift hpeer _ ⟨hshift, fun _ => Or.inl rfl, Or.inl rfl⟩
    exact hmoves
  | some n₁ =>
    obtain ⟨hserver, hconnects⟩ := not_handshakes_of_sends hsends
    obtain ⟨x, hx, htoken, hn₁⟩ := sendFrame_fits (C := C) hpeer hwrite hserver hconnects hframe
    rw [hn₁]
    exact note_moves hx htoken hpeer hshift

/-- An idle peer that has been silent for long is pinged. -/
theorem ping_moves {w : Writing} {message : Message} {since : ℕ}
    (hpeer : n.table.getPeer token = some peer) (hwrite : (n.links token).interest.writable)
    (hstate : peer.state = .idle since) (hsent : n.sendFrameUnwrap w token message = .ok n') :
    Moves C now (some token) n (n'.relink token fun l => { l with interest := .reads }) := by
  have hidle : peer.state.Rests := by
    rw [hstate]
    exact id
  have hmoves : Moves C now (some token) n
      ((n'.modify token id).relink token fun l => { l with interest := .reads }) :=
    sendFrameUnwrap_moves hpeer hwrite (by simp [hstate]) (by simp [hstate]) hsent
      ⟨rfl, Or.inl rfl, .rests hidle hwrite⟩
  rwa [modify_id] at hmoves

/-- **Writing**, by cases on the state of the peer. -/
theorem writeState_moves {writing : Writing} (hpeer : n.table.getPeer token = some peer)
    (hwrite : (n.links token).interest.writable)
    (h : n.writeState C now token writing peer = .ok (some n')) :
    Moves C now (some token) n (n'.relink token fun l => { l with interest := .reads }) := by
  unfold writeState at h
  cases hstate : peer.state with
  | connecting =>
    rw [hstate] at h
    dsimp only at h
    split at h
    · cases h
    · cases h
      refine note_moves trivial rfl hpeer ⟨rfl, Or.inl rfl, ?_⟩
      rw [hstate]
      exact .clientSent now hwrite
  | serverHandshake since =>
    rw [hstate] at h
    dsimp only at h
    split at h
    · cases h
    · cases h
      refine note_moves trivial rfl hpeer ⟨rfl, Or.inl rfl, ?_⟩
      rw [hstate]
      exact .serverSent since hwrite
  | message data =>
    rw [hstate] at h
    cases h
    exact waiting_moves hpeer hwrite hstate
  | idle since =>
    rw [hstate] at h
    dsimp only at h
    split at h
    · obtain ⟨n₁, hsent, h⟩ := bind_eq_ok.mp h
      cases h
      exact ping_moves hpeer hwrite hstate hsent
    · cases h
      exact rests_moves hpeer hwrite (by rw [hstate]; exact id)
  | handshakeFinished | sendLoop | twin =>
    rw [hstate] at h
    obtain ⟨n₁, hsent, h⟩ := bind_eq_ok.mp h
    cases h
    exact sent_moves hpeer hwrite (by rw [hstate]; trivial) hsent rfl rfl rfl
  | _ =>
    rw [hstate] at h
    cases h
    exact rests_moves hpeer hwrite (by rw [hstate]; exact id)

/-- **Writing** leads a peer along its life, or closes it. -/
theorem processWritable_leads {writing : Writing} {r : Network × Bool}
    (hwrite : (n.links token).interest.writable) (h : n.processWritable C now token writing = .ok r) :
    Leads C now token n r := by
  unfold processWritable at h
  cases hpeer : n.table.getPeer token with
  | none =>
    rw [hpeer] at h
    exact Except.ok.inj h ▸ .refl _
  | some peer =>
    rw [hpeer] at h
    obtain ⟨written, hstate, h⟩ := bind_eq_ok.mp h
    cases written with
    | none => exact Except.ok.inj h ▸ leads_close n token
    | some n₁ =>
      obtain ⟨n₂, hreg, h⟩ := bind_eq_ok.mp h
      obtain rfl := reregister_eq_ok hreg
      cases h
      exact writeState_moves hpeer hwrite hstate

/-- **An event of a connection.** -/
theorem ready_moves {e : Readiness} (hadmissible : (e.readable → (n.links token).interest.readable)
      ∧ (e.writable → (n.links token).interest.writable)) (h : n.ready C now token e = .ok n') :
    Moves C now (some token) n n' := by
  obtain ⟨r, hevent, h⟩ := bind_eq_ok.mp h
  have hn' : n' = if r.2 then r.1 else r.1.closePeer now token := (Except.ok.inj h).symm
  rw [hn']
  show Leads C now token n r
  unfold handleConnectionEvent at hevent
  split at hevent
  · exact Except.ok.inj hevent ▸ leads_close n token
  · obtain ⟨⟨n₁, ok⟩, hread, hevent⟩ := bind_eq_ok.mp hevent
    have hfirst : Leads C now token n (n₁, ok)
        ∧ (ok → (n.links token).interest.writable → (n₁.links token).interest.writable) := by
      by_cases hreadable : e.readable
      · rw [if_pos hreadable] at hread
        exact processReadable_leads (hadmissible.1 hreadable) hread
      · rw [if_neg hreadable] at hread
        cases hread
        exact ⟨.refl _, fun _ => id⟩
    dsimp only at hevent
    cases ok with
    | false => exact Except.ok.inj hevent ▸ hfirst.1
    | true =>
      rw [if_neg (by simp)] at hevent
      split at hevent
      · rename_i hwritable
        exact .of_moves hfirst.1 (processWritable_leads (hfirst.2 rfl (hadmissible.2 hwritable)) hevent)
      · exact Except.ok.inj hevent ▸ hfirst.1

/-! ## The periodic update -/

/-- A peer that is due is idle. -/
theorem state_of_isDue {randomTime : ℕ} (h : isDue now randomTime peer) :
    ∃ since, peer.state = .idle since := by
  unfold isDue at h
  split at h
  · rename_i since hstate
    exact ⟨since, hstate⟩
  · cases h

/-- A peer that is kept waiting has a message to send. -/
theorem state_of_isWaiting (h : isWaiting now peer) : ∃ data, peer.state = .message data := by
  unfold isWaiting at h
  split at h
  · rename_i data hstate
    exact ⟨data, hstate⟩
  · cases h

/-- Idle peers are asked something, those with a message are registered again. -/
theorem keepAlive_moves {randomTime nodes : ℕ} {coin : ℕ → Bool} {height : UInt64} {hash : Bytes}
    (h : n.keepAlive C now randomTime nodes coin height hash = .ok n') : Moves C now focus n n' := by
  unfold keepAlive at h
  dsimp only at h
  split at h
  · rw [← Except.ok.inj h]
    refine .of (a := .shifted _ _) ⟨rfl, _, rfl, fun e he => ?_⟩
    rw [Peers.getPeer_of_mem he]
    dsimp only
    by_cases hdue : isDue now randomTime e.2
    · obtain ⟨since, hstate⟩ := state_of_isDue hdue
      rw [if_pos hdue, if_pos hdue]
      refine .of_not_greets ⟨rfl, Or.inl rfl, ?_⟩ (by rw [hstate]; exact id) rfl
      rw [hstate]
      exact .asked .both since _
    · rw [if_neg hdue, if_neg hdue]
      by_cases hwaits : isWaiting now e.2
      · obtain ⟨data, hstate⟩ := state_of_isWaiting hwaits
        rw [if_pos hwaits]
        refine .of_not_greets ⟨rfl, Or.inl rfl, ?_⟩ (by rw [hstate]; exact id) rfl
        rw [hstate]
        exact .waits data
      · rw [if_neg hwaits]
        exact .refl _ _ _ _ _
  · cases h

/-- The requests change the connections only. -/
theorem askLoop_frame {M : Machine} {maxHeight index : UInt64} {haveBlocks : Finset UInt64}
    {peers : List (ℕ × Peer)} {a : Peers.Asking} :
    (Peers.askLoop M maxHeight haveBlocks peers index a).1.table.ignored = a.table.ignored
      ∧ (Peers.askLoop M maxHeight haveBlocks peers index a).1.table.myId = a.table.myId := by
  induction peers generalizing index a with
  | nil => exact ⟨rfl, rfl⟩
  | cons e peers ih =>
    obtain ⟨token, peer⟩ := e
    unfold Peers.askLoop
    split
    · split
      · exact ⟨rfl, rfl⟩
      · exact ih
    · split
      · exact ⟨rfl, rfl⟩
      · split
        · exact ⟨rfl, rfl⟩
        · split
          · exact ⟨rfl, rfl⟩
          · exact ih

/-- The choice of peers to ask for blocks leaves bans and the own name as they are. -/
theorem updateSync_frame {M : Machine} {t : Peers} {height maxHeight : UInt64}
    {haveBlocks : Finset UInt64} {nodes : ℕ} {coin : Bool} :
    (t.updateSync M height maxHeight haveBlocks nodes coin).1.table.ignored = t.ignored
      ∧ (t.updateSync M height maxHeight haveBlocks nodes coin).1.table.myId = t.myId := by
  unfold Peers.updateSync
  split_ifs
  · split
    · exact ⟨rfl, rfl⟩
    · split
      · exact ⟨rfl, rfl⟩
      · unfold Peers.askBlocksFromPeers
        split
        · exact ⟨rfl, rfl⟩
        · exact ⟨rfl, rfl⟩
        · exact askLoop_frame
  · exact ⟨rfl, rfl⟩
  · exact ⟨rfl, rfl⟩

/-- Tables with the same peers, bans and name are the same. -/
theorem peers_ext {t t' : Peers} (hpeers : t.peers = t'.peers) (hignored : t.ignored = t'.ignored)
    (hmyId : t.myId = t'.myId) : t = t' := by
  cases t
  cases t'
  cases hpeers
  cases hignored
  cases hmyId
  rfl

/-- Blocks are asked of idle peers. -/
theorem askBlocks_moves {nodes : ℕ} {coin : Bool} {height maxHeight : UInt64}
    {haveBlocks : Finset UInt64} (h : n.askBlocks C nodes coin height maxHeight haveBlocks = .ok n') :
    Moves C now focus n n' := by
  have hdistinct := Peers.updateSync_distinct C.machine n.table height maxHeight haveBlocks nodes coin
  have hframe : (n.table.updateSync C.machine height maxHeight haveBlocks nodes coin).1.table.ignored
      = n.table.ignored
    ∧ (n.table.updateSync C.machine height maxHeight haveBlocks nodes coin).1.table.myId
      = n.table.myId := updateSync_frame
  unfold askBlocks at h
  split at h
  · rename_i a ha
    rw [ha] at hdistinct hframe
    obtain ⟨hrequests, -⟩ := hdistinct
    rw [← Except.ok.inj h]
    refine .of (a := .shifted _ _) ⟨rfl, fun token p => (Peers.answered a.requests (token, p)).2, ?_, ?_⟩
    · refine peers_ext ?_ hframe.1 hframe.2
      rw [hrequests.table]
      refine List.map_congr_left fun e _ => Prod.ext ?_ rfl
      unfold Peers.answered
      split <;> rfl
    · intro e he
      dsimp only
      cases hfind : a.requests.find? fun r => r.1 = e.1 with
      | none =>
        have hnot : e.1 ∉ a.requests.map Prod.fst := by
          intro hmem
          obtain ⟨r, hr, heq⟩ := List.mem_map.mp hmem
          exact List.find?_eq_none.mp hfind r hr (decide_eq_true heq)
        rw [if_neg hnot]
        have hsame : (Peers.answered a.requests (e.1, e.2)).2 = e.2 := by
          unfold Peers.answered
          rw [hfind]
        rw [hsame]
        exact .refl _ _ _ _ _
      | some r =>
        have hr : r ∈ a.requests := List.mem_of_find?_eq_some hfind
        have htoken : r.1 = e.1 := by simpa using List.find?_some hfind
        obtain ⟨peer, since, hpeer, hstate, -⟩ := hrequests.waiting r hr
        have heq : peer = e.2 := by
          rw [htoken, Peers.getPeer_of_mem he] at hpeer
          exact (Option.some.inj hpeer).symm
        rw [if_pos (List.mem_map.mpr ⟨r, hr, htoken⟩)]
        have hasked : (Peers.answered a.requests (e.1, e.2)).2
            = e.2.setState (.message (Message.getBlock r.2).toVec) := by
          unfold Peers.answered
          rw [hfind]
        rw [hasked]
        refine .of_not_greets ⟨rfl, Or.inl rfl, ?_⟩ (by rw [← heq, hstate]; exact id) rfl
        rw [← heq, hstate]
        exact .asked .writes since _
  · cases h

/-- One idle peer is told the own height. -/
theorem pingBehind_moves {utc : UtcTime} {pick : ℕ} {height : UInt64} {hash : Bytes}
    (h : n.pingBehind C now utc pick height hash = .ok n') : Moves C now focus n n' := by
  unfold pingBehind at h
  split at h
  · dsimp only at h
    split at h
    · exact Except.ok.inj h ▸ .refl _
    · rename_i e he
      obtain ⟨n₁, hreg, h⟩ := bind_eq_ok.mp h
      obtain rfl := reregister_eq_ok hreg
      rw [← Except.ok.inj h]
      obtain ⟨hmem, hbehind⟩ := List.mem_filter.mp (List.mem_of_getElem? he)
      have hidle : ∃ since, e.2.state = .idle since := by
        have hisIdle : e.2.state.isIdle = true := (of_decide_eq_true hbehind).2.1
        unfold Peer.State.isIdle at hisIdle
        split at hisIdle
        · rename_i since hstate
          exact ⟨since, hstate⟩
        · cases hisIdle
      obtain ⟨since, hstate⟩ := hidle
      have hshift : Moves C now focus n ((n.relink e.1 ((fun l => { l with sentHeight := height })
          ∘ fun l => { l with interest := .writes })).modify e.1
            (Peer.setState (.message (Message.ping height hash).toVec))) := by
        refine .shift (Peers.getPeer_of_mem hmem) _ (.of_not_greets ⟨rfl, Or.inl rfl, ?_⟩ ?_ rfl)
        · rw [hstate]
          exact .asked .writes since _
        · rw [hstate]
          exact id
      rw [← relink_relink] at hshift
      exact hshift.trans (Moves.of (a := .pinged utc.secs.toInt) rfl)
  · exact Except.ok.inj h ▸ .refl _

/-- The peers that are offline are dropped. -/
theorem dropOffline_moves (n : Network) : Moves C now focus n (n.dropOffline now) :=
  .drop ((Peers.Dropped.retain now n.table _).trans (.foldl_ignoreIp now _ _))

/-- A peer that has to be reconnected is connected again. -/
theorem reconnect_moves {connects : SocketAddr → Bool} (h : n.reconnect C now connects = .ok n') :
    Moves C now focus n n' := by
  unfold reconnect at h
  split at h
  · exact Except.ok.inj h ▸ .refl _
  · rename_i e he
    split at h
    · exact Except.ok.inj h ▸ .refl _
    · obtain ⟨n₁, hreg, h⟩ := bind_eq_ok.mp h
      obtain rfl := reregister_eq_ok hreg
      rw [← Except.ok.inj h]
      have hneeds : e.2.state.needReconnect now = true := by simpa using List.find?_some he
      have hoffline : ∃ since, e.2.state = .offline since := by
        unfold Peer.State.needReconnect at hneeds
        split at hneeds
        · rename_i since hstate
          exact ⟨since, hstate⟩
        · cases hneeds
      obtain ⟨since, hstate⟩ := hoffline
      refine .shift (Peers.getPeer_of_mem (List.mem_of_find?_eq_some he)) _
        (.of_not_greets ⟨rfl, Or.inr (Or.inr ⟨since, hstate⟩), ?_⟩ ?_ rfl)
      · rw [hstate]
        exact .reconnects since
      · rw [hstate]
        exact id

/-- The update of the peers that are online. -/
theorem updateOnline_moves {u : Refreshing} {hash : Bytes} {height maxHeight : UInt64}
    {haveBlocks : Finset UInt64} (h : n.updateOnline C now u hash height maxHeight haveBlocks = .ok n') :
    Moves C now focus n n' := by
  obtain ⟨n₁, hkeep, h⟩ := bind_eq_ok.mp h
  dsimp only at h
  generalize hpurged : ({ n₁ with table := _ } : Network) = n₂ at h
  obtain ⟨n₃, hask, hping⟩ := bind_eq_ok.mp h
  have hclosed : Moves C now focus n₁ n₂ := by
    rw [← hpurged]
    exact (Moves.drop (.foldl_closePeer now n₁.table (staleTokens now n.table))).trans
      (Moves.of (a := .purged) rfl)
  exact (((keepAlive_moves hkeep).trans hclosed).trans (askBlocks_moves hask)).trans
    (pingBehind_moves hping)

/-- **The periodic update** is made of moves. -/
theorem update_moves {u : Refreshing} {hash : Bytes} {height maxHeight : UInt64}
    {haveBlocks : Finset UInt64} (h : n.update C now u hash height maxHeight haveBlocks = .ok n') :
    Moves C now focus n n' := by
  obtain ⟨n₁, honline, h⟩ := bind_eq_ok.mp h
  exact ((updateOnline_moves honline).trans (dropOffline_moves n₁)).trans (reconnect_moves h)

/-! ## Steps -/

/-- The connection that an event is about. -/
def Event.about : Event → Option ℕ
  | .ready token _ => some token
  | _ => none

/-- **A step of the network is a run of actions at its instant.** -/
theorem Step.moves {i : ℕ × Event} (hadmissible : n.Admissible i) (h : n.Step C i n') :
    Moves C i.1 i.2.about { n with now := i.1 } n' := by
  obtain ⟨now, event⟩ := i
  cases event with
  | accept address => exact accept_moves h
  | ready token e =>
    unfold Step step at h
    dsimp only at h
    split at h
    · exact Except.ok.inj h ▸ .refl _
    · exact ready_moves (n := { n with now }) (of_decide_eq_true hadmissible.2) h
  | closeAll => exact Except.ok.inj h ▸ .drop (.closeAllPeers now n.table)
  | connectNew connects => exact connectNewPeers_moves h
  | connectPeers peersAddrs connects => exact connectPeers_moves h
  | update u => exact update_moves h
  | clearSeen =>
    refine Except.ok.inj h ▸ .of (a := .stepped _) ⟨rfl, fun seen => ⟨seen, .refl _⟩⟩
  | mined utc b =>
    obtain ⟨node, hmined, h⟩ := bind_eq_ok.mp h
    exact Except.ok.inj h ▸ .of (a := .stepped node) ⟨rfl, .addMined hmined⟩
  | reorder peers =>
    unfold Step step at h
    dsimp only at h
    split at h
    · rename_i hperm
      exact Except.ok.inj h ▸ .of (a := .reordered _) ⟨rfl, hperm, rfl⟩
    · exact Except.ok.inj h ▸ .refl _

end Network

end P2p
