/-
# Connections to the same node

A node sends a random text with its handshakes, so that others can tell a second connection to it,
a twin.  `is_tween_connect` compares the text of a `Shake` with the ids of the active peers, but
nothing records the text as the id of a peer: a `Shake` with a text that is not empty is never
answered as a twin.
-/
import Ruvname.Peers
import Ruvname.Reachable

open Exec

namespace P2p

/-- The setters of `Peer` that are called elsewhere. -/
inductive Peer.Change where
  | state (state : Peer.State)
  | height (height : UInt64)
  | isPublic (isPublic : Bool)
  | active (now : ℕ) (active : Bool)
  | incReconnects
  | resetReconnects
  | receivedBlock (index : UInt64)

def Peer.Change.apply : Peer.Change → Peer → Peer
  | state s => Peer.setState s
  | height h => Peer.setHeight h
  | isPublic b => Peer.setPublic b
  | active now b => Peer.setActive now b
  | incReconnects => Peer.incReconnects
  | resetReconnects => Peer.resetReconnects
  | receivedBlock i => Peer.setReceivedBlock i

/-- No setter sets an id. -/
theorem Peer.Change.id_apply (c : Peer.Change) (peer : Peer) : (c.apply peer).id = peer.id := by
  cases c <;> rfl

/-- A message that arrives on a connection, and what `handle_message` finds besides the peer table. -/
structure Hearing where
  token : ℕ
  message : Message
  session : Session
  node : Node
  clock : ℕ → UtcTime
  now : ℕ
  /-- `random::<bool>()`. -/
  coin : Bool

namespace Peers

variable (P : Platform)

/-- `MAX_NODES`. -/
def maxNodes : ℕ := 15

/-- What `handle_message` finds, the peer table included. -/
def sessionOf (t : Peers) (h : Hearing) : Session :=
  { h.session with
    myId := t.myId
    isTweenConnect := t.isTweenConnect h.now
    wantsPeers := t.getPeersActiveCount h.now < maxNodes ∧ h.coin }

/-- The answer of `handle_message`. -/
def answer (t : Peers) (h : Hearing) : Exec (Node × State) :=
  h.node.handleMessage P (t.sessionOf h) h.clock h.message

/-- What `handle_message` notes about the peer on `Hand` and `Shake`. -/
def noted (t : Peers) (h : Hearing) : Peers :=
  match h.message with
  | .hand appVersion origin version isPublic randId =>
    if h.session.versionCompatible appVersion ∧ t.myId ≠ randId ∧ origin = h.session.origin
        ∧ version = chainVersion then
      t.modify h.token fun peer => (peer.setPublic isPublic).setActive h.now true
    else t
  | .shake appVersion origin version isPublic randId height =>
    if origin = h.session.origin ∧ version = chainVersion ∧ ¬ t.isTweenConnect h.now randId
        ∧ h.session.versionCompatible appVersion then
      t.modify h.token fun peer =>
        (((peer.setHeight height).setActive h.now true).setPublic isPublic).resetReconnects
    else t
  | _ => t

/-- What `process_readable` does with the answer.  A twin is closed by its caller. -/
def settle (t : Peers) (now token : ℕ) : State → Exec Peers
  | .message m => .ok (t.modify token (Peer.setState (.message m.toVec)))
  | .idle => .ok (t.modify token (Peer.setState (.idle now)))
  | .error => .ok t
  | .banned => t.ignorePeer now token
  | .loop => (t.modify token (Peer.setState .loop)).ignorePeer now token
  | .sendLoop => .ok (t.modify token (Peer.setState .sendLoop))
  | .twin => .ok ((t.modify token (Peer.setState .twin)).closePeer now token)

/-- A message is handled; one on an unknown connection is dropped. -/
def hear (t : Peers) (h : Hearing) : Exec Peers :=
  match t.getPeer h.token with
  | none => .ok t
  | some _ => do
    let (_, state) ← t.answer P h
    (t.noted h).settle h.now h.token state

/-- What happens to the peer table. -/
inductive Event where
  /-- The server socket accepts a connection. -/
  | accept (now token : ℕ) (addr : SocketAddr)
  /-- `connect_peer`. -/
  | connect (now token : ℕ) (addr : SocketAddr)
  | close (now token : ℕ)
  | touch (token : ℕ) (change : Peer.Change)
  | hear (h : Hearing)

def step (t : Peers) : Event → Exec Peers
  | .accept now token addr => .ok (t.addPeer token (Peer.new now addr (.connected now)))
  | .connect now token addr => .ok (t.addPeer token ((Peer.new now addr .connecting).setPublic true))
  | .close now token => .ok (t.closePeer now token)
  | .touch token change => .ok (t.modify token change.apply)
  | .hear h => t.hear P h

/-- The peer table after some events. -/
def after : List Event → Peers → Exec Peers
  | [], t => .ok t
  | e :: events, t => do
    let t ← t.step P e
    after events t

/-! ## What is to be detected -/

/-- A `Shake` with this text. -/
def Shakes (h : Hearing) (r : String) : Prop :=
  ∃ appVersion origin version isPublic height,
    h.message = .shake appVersion origin version isPublic r height

/-- A `Shake` with this text from the same chain, with the same chain version and a compatible
version of the program. -/
def Valid (h : Hearing) (r : String) : Prop :=
  ∃ appVersion isPublic height, h.session.versionCompatible appVersion ∧
    h.message = .shake appVersion h.session.origin chainVersion isPublic r height

/-- The connection is in the table, and active. -/
def ActiveAt (now token : ℕ) (t : Peers) : Prop :=
  ∃ peer, t.getPeer token = some peer ∧ peer.activeAt now

/-- A `Shake` with this text was accepted on another connection that is still active. -/
def AcceptedElsewhere (myId : String) (before : List Event) (t : Peers) (h : Hearing) (r : String) :
    Prop :=
  ∃ b₁ h₁ b₂ t₁ n state, before = b₁ ++ .hear h₁ :: b₂ ∧ after P b₁ (new myId) = .ok t₁
    ∧ t₁.getPeer h₁.token ≠ none ∧ Shakes h₁ r ∧ t₁.answer P h₁ = .ok (n, state)
    ∧ state ≠ .twin ∧ state ≠ .banned ∧ h₁.token ≠ h.token ∧ ActiveAt h.now h₁.token t

/-- **Twins are detected**: a valid `Shake` with the text of one that was accepted on another
connection, still active, is answered as a twin. -/
def TwinsDetected (myId : String) (events : List Event) : Prop :=
  ∀ before h later t r, events = before ++ .hear h :: later → after P before (new myId) = .ok t →
    t.getPeer h.token ≠ none → Valid h r → r ≠ "" → AcceptedElsewhere P myId before t h r →
    ∃ n, t.answer P h = .ok (n, .twin)

/-- **No text is repeated**: no valid `Shake` has the text of a valid one on another connection
that is still active. -/
def NoneRepeated (myId : String) (events : List Event) : Prop :=
  ∀ before h later t r, events = before ++ .hear h :: later → after P before (new myId) = .ok t →
    t.getPeer h.token ≠ none → Valid h r → r ≠ "" →
    ¬ ∃ b₁ h₁ b₂ t₁, before = b₁ ++ .hear h₁ :: b₂ ∧ after P b₁ (new myId) = .ok t₁
      ∧ t₁.getPeer h₁.token ≠ none ∧ Valid h₁ r ∧ h₁.token ≠ h.token ∧ ActiveAt h.now h₁.token t

/-! ## No peer has an id -/

variable {P} {t t' : Peers} {now token : ℕ} {h : Hearing} {r : String}

/-- No peer has an id. -/
def Anonymous (t : Peers) : Prop := ∀ e ∈ t.peers, e.2.id = ""

/-- There are no peers to begin with. -/
theorem anonymous_new (myId : String) : Anonymous (new myId) := fun _ he => absurd he List.not_mem_nil

/-- No change of a peer gives it an id. -/
theorem Anonymous.modify {f : Peer → Peer} (ht : Anonymous t) (hf : ∀ peer, (f peer).id = peer.id) :
    Anonymous (t.modify token f) := by
  intro e he
  obtain ⟨e', he', rfl⟩ := List.mem_map.mp he
  unfold change
  split
  · rw [hf]
    exact ht e' he'
  · exact ht e' he'

/-- A new peer has none. -/
theorem Anonymous.addPeer {peer : Peer} (ht : Anonymous t) (hpeer : peer.id = "") :
    Anonymous (t.addPeer token peer) := by
  intro e he
  rcases List.mem_cons.mp he with rfl | he
  · exact hpeer
  · exact ht e (List.mem_of_mem_filter he)

/-- Nor does anything else in the table give one. -/
theorem Anonymous.closePeer (ht : Anonymous t) : Anonymous (t.closePeer now token) := by
  intro e he
  rw [peers_closePeer] at he
  exact ht e (List.mem_of_mem_filter he)

theorem Anonymous.ignorePeer (ht : Anonymous t) (h : t.ignorePeer now token = .ok t') :
    Anonymous t' := by
  cases hpeer : t.getPeer token with
  | none =>
    unfold Peers.ignorePeer at h
    rw [hpeer] at h
    cases h
  | some peer =>
    obtain ⟨closed, hpeers, -, hcases⟩ := ignorePeer_cases now hpeer
    have hclosed : Anonymous closed := by
      intro e he
      rw [hpeers] at he
      exact ht e (List.mem_of_mem_filter he)
    rcases hcases with ⟨-, heq⟩ | ⟨e, rest, -, heq⟩
    · rw [heq, Except.ok.injEq] at h
      exact h ▸ hclosed
    · rw [heq, Except.ok.injEq] at h
      exact h ▸ hclosed.closePeer

/-- A message gives no id, not even one that tells it. -/
theorem Anonymous.noted (ht : Anonymous t) (h : Hearing) : Anonymous (t.noted h) := by
  unfold Peers.noted
  split
  · split
    · exact ht.modify fun _ => rfl
    · exact ht
  · split
    · exact ht.modify fun _ => rfl
    · exact ht
  · exact ht

/-- Nor does the answer. -/
theorem Anonymous.settle {state : State} (ht : Anonymous t) (h : t.settle now token state = .ok t') :
    Anonymous t' := by
  have hset : ∀ s, Anonymous (t.modify token (Peer.setState s)) := fun s => ht.modify fun _ => rfl
  cases state with
  | message m => exact Except.ok.inj h ▸ hset _
  | idle => exact Except.ok.inj h ▸ hset _
  | error => exact Except.ok.inj h ▸ ht
  | banned => exact ht.ignorePeer h
  | loop => exact (hset _).ignorePeer h
  | sendLoop => exact Except.ok.inj h ▸ hset _
  | twin => exact Except.ok.inj h ▸ (hset _).closePeer

/-- **No event gives a peer an id.** -/
theorem Anonymous.step {e : Event} (ht : Anonymous t) (h : t.step P e = .ok t') : Anonymous t' := by
  cases e with
  | accept now token addr => exact Except.ok.inj h ▸ ht.addPeer rfl
  | connect now token addr => exact Except.ok.inj h ▸ ht.addPeer rfl
  | close now token => exact Except.ok.inj h ▸ ht.closePeer
  | touch token change => exact Except.ok.inj h ▸ ht.modify change.id_apply
  | hear heard =>
    have hhear : t.hear P heard = .ok t' := h
    unfold Peers.hear at hhear
    cases hpeer : t.getPeer heard.token with
    | none =>
      rw [hpeer] at hhear
      exact Except.ok.inj hhear ▸ ht
    | some peer =>
      rw [hpeer] at hhear
      obtain ⟨⟨n, state⟩, -, hsettle⟩ := bind_eq_ok.mp hhear
      exact (ht.noted heard).settle hsettle

/-- After all events no peer has an id, by induction on them. -/
theorem Anonymous.after {events : List Event} (ht : Anonymous t) (h : Peers.after P events t = .ok t') :
    Anonymous t' := by
  induction events generalizing t with
  | nil => exact Except.ok.inj h ▸ ht
  | cons e events ih =>
    obtain ⟨t₁, hstep, hafter⟩ := bind_eq_ok.mp h
    exact ih (ht.step hstep) hafter

/-- A text that is not empty is nobody's id. -/
theorem Anonymous.not_isTweenConnect (ht : Anonymous t) (hr : r ≠ "") :
    t.isTweenConnect now r = false := by
  rw [isTweenConnect, List.any_eq_false]
  intro e he
  simp [ht e he, hr.symm]

/-! ## Answers -/

/-- A `Shake` is answered as the node answers it. -/
theorem answer_shake {appVersion origin : String} {version : UInt32} {isPublic : Bool} {height : UInt64}
    (h : Hearing) (hmessage : h.message = .shake appVersion origin version isPublic r height) :
    t.answer P h = .ok (h.node.handleShake (t.sessionOf h) appVersion origin version r height) := by
  unfold answer
  rw [hmessage]
  rfl

/-- A `Shake` that is neither banned nor a twin is valid. -/
theorem valid_of_accepted {n : Node} {state : State} (hshakes : Shakes h r)
    (hanswer : t.answer P h = .ok (n, state)) (htwin : state ≠ .twin) (hbanned : state ≠ .banned) :
    Valid h r := by
  obtain ⟨appVersion, origin, version, isPublic, height, hmessage⟩ := hshakes
  rw [answer_shake h hmessage, Except.ok.injEq] at hanswer
  -- every test that fails gives one of the two answers
  unfold Node.handleShake at hanswer
  by_cases horigin : origin ≠ (t.sessionOf h).origin
  · rw [if_pos horigin] at hanswer
    exact absurd (congrArg Prod.snd hanswer).symm hbanned
  rw [if_neg horigin] at hanswer
  by_cases hversion : version ≠ chainVersion
  · rw [if_pos hversion] at hanswer
    exact absurd (congrArg Prod.snd hanswer).symm hbanned
  rw [if_neg hversion] at hanswer
  by_cases hmet : (t.sessionOf h).isTweenConnect r
  · rw [if_pos hmet] at hanswer
    exact absurd (congrArg Prod.snd hanswer).symm htwin
  rw [if_neg hmet] at hanswer
  by_cases hcompatible : ¬ (t.sessionOf h).versionCompatible appVersion
  · rw [if_pos hcompatible] at hanswer
    exact absurd (congrArg Prod.snd hanswer).symm hbanned
  refine ⟨appVersion, isPublic, height, not_not.mp hcompatible, ?_⟩
  rw [hmessage, not_not.mp horigin, not_not.mp hversion]
  rfl

/-- Without ids a valid `Shake` is accepted. -/
theorem accepted_of_valid (ht : Anonymous t) (hr : r ≠ "") (hvalid : Valid h r) :
    ∃ n state, t.answer P h = .ok (n, state) ∧ state ≠ .twin ∧ state ≠ .banned := by
  obtain ⟨appVersion, isPublic, height, hcompatible, hmessage⟩ := hvalid
  have hno : (t.sessionOf h).isTweenConnect r = false := ht.not_isTweenConnect hr
  have hshake : h.node.handleShake (t.sessionOf h) appVersion h.session.origin chainVersion r height
      = (h.node.noteHeight height, if (t.sessionOf h).wantsPeers then .message .getPeers else .idle) := by
    have horigin : (t.sessionOf h).origin = h.session.origin := rfl
    have hcompatible : (t.sessionOf h).versionCompatible appVersion := hcompatible
    unfold Node.handleShake
    rw [horigin, if_neg (not_not_intro rfl), if_neg (not_not_intro rfl), hno, if_neg Bool.false_ne_true,
      if_neg (not_not_intro hcompatible)]
  refine ⟨_, _, (answer_shake h hmessage).trans (congrArg _ hshake), ?_⟩
  split
  · exact ⟨by simp, by simp⟩
  · exact ⟨by simp, by simp⟩

/-- **Twins are detected in a run exactly if it has none**: a valid `Shake` whose text was accepted
on another active connection is accepted again. -/
theorem twinsDetected_iff (P : Platform) (myId : String) (events : List Event) :
    TwinsDetected P myId events ↔ NoneRepeated P myId events := by
  constructor
  · rintro hdetected before h later t r hevents hafter htoken hvalid hr
      ⟨b₁, h₁, b₂, t₁, hbefore, hafter₁, htoken₁, hvalid₁, hne, hactive⟩
    obtain ⟨n₁, state₁, hanswer₁, htwin₁, hbanned₁⟩ :=
      accepted_of_valid ((anonymous_new myId).after hafter₁) hr hvalid₁
    have hshakes₁ : Shakes h₁ r := by
      obtain ⟨appVersion, isPublic, height, -, hmessage⟩ := hvalid₁
      exact ⟨_, _, _, _, _, hmessage⟩
    obtain ⟨n, hanswer⟩ := hdetected before h later t r hevents hafter htoken hvalid hr
      ⟨b₁, h₁, b₂, t₁, n₁, state₁, hbefore, hafter₁, htoken₁, hshakes₁, hanswer₁, htwin₁, hbanned₁,
        hne, hactive⟩
    -- but it is accepted once more
    obtain ⟨n', state, haccepted, htwin, -⟩ :=
      accepted_of_valid ((anonymous_new myId).after hafter) hr hvalid
    rw [hanswer, Except.ok.injEq, Prod.mk.injEq] at haccepted
    exact absurd haccepted.2.symm htwin
  · rintro hnone before h later t r hevents hafter htoken hvalid hr
      ⟨b₁, h₁, b₂, t₁, n₁, state₁, hbefore, hafter₁, htoken₁, hshakes₁, hanswer₁, htwin₁, hbanned₁,
        hne, hactive⟩
    exact absurd ⟨b₁, h₁, b₂, t₁, hbefore, hafter₁, htoken₁,
      valid_of_accepted hshakes₁ hanswer₁ htwin₁ hbanned₁, hne, hactive⟩
      (hnone before h later t r hevents hafter htoken hvalid hr)

/-! ### Two connections to one node -/

/-- A handshake with the text `abcdef` on a connection. -/
def twinShake (token : ℕ) : Hearing where
  token := token
  message := .shake "0.8.5" "origin" chainVersion true "abcdef" 1
  session := ⟨"origin", true, "0.8.5", "", fun _ => true, fun _ => false, false, []⟩
  node := Node.fresh Bytes.default
  clock := fun _ => Sample.now
  now := 0
  coin := false

def twinAddr : SocketAddr := ⟨.v4 ⟨#v[198, 51, 100, 1]⟩, 4442⟩

/-- Both of two connections to one node are accepted. -/
theorem not_twinsDetected : ¬ ∀ P myId events, TwinsDetected P myId events := by
  intro h
  have hrun : ∃ t₁ t n n', after (Sample.platform true) [.connect 0 1 twinAddr, .connect 0 2 twinAddr]
        (new "me") = .ok t₁ ∧ t₁.getPeer 1 ≠ none
      ∧ t₁.answer (Sample.platform true) (twinShake 1) = .ok (n, .idle)
      ∧ after (Sample.platform true) [.connect 0 1 twinAddr, .connect 0 2 twinAddr, .hear (twinShake 1)]
        (new "me") = .ok t ∧ t.getPeer 2 ≠ none ∧ ActiveAt 0 1 t
      ∧ t.answer (Sample.platform true) (twinShake 2) = .ok (n', .idle) :=
    ⟨_, _, _, _, rfl, by decide, rfl, rfl, by decide, ⟨_, rfl, by decide⟩, rfl⟩
  obtain ⟨t₁, t, n, n', hafter₁, htoken₁, hanswer₁, hafter, htoken, hactive, hanswer⟩ := hrun
  obtain ⟨n'', htwin⟩ := h (Sample.platform true) "me" [.connect 0 1 twinAddr, .connect 0 2 twinAddr,
    .hear (twinShake 1), .hear (twinShake 2)] _ (twinShake 2) [] t "abcdef" rfl hafter htoken
    ⟨_, _, _, rfl, rfl⟩ (by decide)
    ⟨_, twinShake 1, [], t₁, n, .idle, rfl, hafter₁, htoken₁, ⟨_, _, _, _, _, rfl⟩, hanswer₁,
      by simp, by simp, by decide, hactive⟩
  rw [hanswer, Except.ok.injEq, Prod.mk.injEq] at htwin
  cases htwin.2

end Peers

end P2p
