/-
# Two nodes and their connection

What a node does with one of its connections is what an end of a connection does: every step of the
network, seen from one token, reads at most once and then writes or closes.  Two networks that are
connected therefore form a connection of two ends, whatever else they do in between, and hear what
the other one has said.
-/
import Ruvname.NetworkSafety
import Ruvname.Connection

open Exec

namespace P2p

/-! ## One token of a network -/

/-- A connection between two events: it is registered for the part of the handshakes that is next, and
has a cipher when they are over. -/
def Phase.Tidy (p : Phase) : Prop :=
  match p.state with
  | .connecting => p.chacha = none ∧ p.interest = .writes
  | .connected _ => p.chacha = none ∧ p.interest = .reads
  | .serverHandshake _ =>
    (p.chacha = none ∧ p.interest = .reads) ∨ (p.chacha.isSome ∧ p.interest = .writes)
  | state => state.Lives ∧ p.chacha.isSome

/-- How far the end is. -/
def Phase.stage (p : Phase) : Option Stage :=
  match p.state with
  | .connecting => some .connecting
  | .connected _ => some .connected
  | .serverHandshake _ =>
    match p.chacha with
    | none => some .waiting
    | some chacha => some (.answering chacha)
  | _ => p.chacha.map .talking

namespace Traffic

variable (token : ℕ)

/-- The bytes that were written to the connection. -/
def sent : Traffic → List UInt8
  | .handshake t bytes => if t = token then bytes else []
  | .wrote t _ _ bytes => if t = token then bytes else []
  | .greeted _ _ _ _ | .heard _ _ _ _ => []

/-- The message that was written, before it was encrypted. -/
def said : Traffic → List (List UInt8)
  | .wrote t _ data _ => if t = token then [data] else []
  | .handshake _ _ | .greeted _ _ _ _ | .heard _ _ _ _ => []

/-- The message that was read, after it was decrypted. -/
def hears : Traffic → List (List UInt8)
  | .heard t chacha frame _ =>
    if t = token then [(decodeMessage (chacha.map Chacha.cipher) frame).getD []] else []
  | .handshake _ _ | .greeted _ _ _ _ | .wrote _ _ _ _ => []

/-- How many bytes were read. -/
def taken : Traffic → ℕ
  | .greeted t _ _ k => if t = token then k else 0
  | .heard t _ frame _ => if t = token then 2 + frame.length else 0
  | .handshake _ _ | .wrote _ _ _ _ => 0

end Traffic

namespace Network

variable {C : Config} {n n' : Network} {now t : ℕ} {focus : Option ℕ} {a : Action} {peer : Peer}

def phase (n : Network) (t : ℕ) (p : Peer) : Phase := ⟨p.state, (n.links t).chacha, (n.links t).interest⟩

/-- **The end that a network has at a token.** -/
def endAt (n : Network) (t : ℕ) : End where
  stage := (n.table.getPeer t).bind fun p => (n.phase t p).stage
  sent := n.traffic.flatMap (Traffic.sent t)
  said := n.traffic.flatMap (Traffic.said t)
  heard := n.traffic.flatMap (Traffic.hears t)
  taken := (n.traffic.map (Traffic.taken t)).sum

/-- Every connection is tidy. -/
def AllTidy (n : Network) : Prop := ∀ e ∈ n.table.peers, (n.phase e.1 e.2).Tidy

/-! ### Tidy connections -/

/-- A peer stays tidy on its way. -/
theorem tidy_edge {p p' : Phase} (h : Phase.Edge C p p') (hp : p.Tidy) : p'.Tidy := by
  cases h with
  | stay => exact hp
  | clientSent now hwrite =>
    exact Or.inl ⟨hp.1, rfl⟩
  | clientRead since now key nonce hread => exact Or.inr ⟨rfl, rfl⟩
  | serverSent since hwrite =>
    rcases hp with ⟨-, hinterest⟩ | ⟨hchacha, -⟩
    · dsimp only at hinterest
      rw [hinterest] at hwrite
      cases hwrite
    · exact ⟨trivial, hchacha⟩
  | serverRead since key nonce hread => exact ⟨trivial, rfl⟩
  | sent now hstate hwrite =>
    rename_i state chacha interest
    cases state with
    | handshakeFinished => exact ⟨trivial, hp.2⟩
    | message data => exact ⟨trivial, hp.2⟩
    | sendLoop => exact ⟨trivial, hp.2⟩
    | twin => exact ⟨trivial, hp.2⟩
    | _ => exact hstate.elim
  | rests hstate hwrite =>
    rename_i state chacha interest
    cases state with
    | connecting => exact hstate.elim
    | serverHandshake since => exact hstate.elim
    | connected since =>
      have hinterest : interest = .reads := hp.2
      rw [hinterest] at hwrite
      cases hwrite
    | _ => exact hp
  | answered interest' hstate hread hanswer =>
    rename_i state state' chacha interest
    have hchacha : chacha.isSome := by
      cases state with
      | connecting =>
        have hinterest : interest = .writes := hp.2
        rw [hinterest] at hread
        cases hread
      | connected since => exact hstate.elim
      | serverHandshake since => exact hstate.elim
      | _ => exact hp.2
    cases state' with
    | idle since => exact ⟨trivial, hchacha⟩
    | message data => exact ⟨trivial, hchacha⟩
    | sendLoop => exact ⟨trivial, hchacha⟩
    | _ => exact hanswer.elim
  | asked interest' since data => exact ⟨trivial, hp.2⟩
  | waits data => exact hp
  | reconnects since => exact hp.1.elim

/-- Each action keeps all peers tidy. -/
theorem AllTidy.act (hn : AllTidy n) (h : n.Act C now focus a n') : AllTidy n' := by
  rcases Act.connections h with ⟨peer, interest, next, ⟨-, hopens⟩, -, -, rfl⟩ | ⟨-, hproceeds⟩
  · intro e he
    rcases mem_addPeer he with rfl | ⟨hmem, hne⟩
    · have hlink : (n.addConnection next peer interest).links n.token.toNat = ⟨none, interest, 0⟩ :=
        Function.update_self _ _ _
      unfold phase
      dsimp only
      rw [hlink]
      rcases hopens with ⟨hstate, rfl⟩ | ⟨since, hstate, rfl⟩
      · rw [hstate]
        exact ⟨rfl, rfl⟩
      · rw [hstate]
        exact ⟨rfl, rfl⟩
    · have hlink : (n.addConnection next peer interest).links e.1 = n.links e.1 :=
        Function.update_of_ne hne _ _
      unfold phase
      rw [hlink]
      exact hn e hmem
  · intro e' he'
    obtain ⟨e, he, -, h'⟩ := hproceeds e' he'
    exact tidy_edge h'.shift.edge (hn e he)

/-- **All peers are tidy in every run.** -/
theorem run_allTidy {start : ℕ} {myId : String} {node : Node}
    (h : Run (Step C) Admissible (new start myId node) n) : AllTidy n :=
  run_keeps_timeless h (fun _ he => absurd he List.not_mem_nil) (fun _ _ => id)
    fun _ _ _ _ _ hm ha => hm.act ha

/-! ### The other connections -/

/-- An end that has stayed as it was, or is gone. -/
def Left (e e' : End) : Prop := e' = e ∨ e' = { e with stage := none }

/-- What is left twice is left. -/
theorem Left.trans {e e' e'' : End} (h : Left e e') (h' : Left e' e'') : Left e e'' := by
  rcases h with rfl | rfl
  · exact h'
  · rcases h' with rfl | rfl
    · exact Or.inr rfl
    · exact Or.inr rfl

/-- The connection is as it was, or it is gone. -/
theorem left_of_getPeer (htraffic : n'.traffic = n.traffic) (hlinks : n'.links t = n.links t)
    (hpeer : ∀ p, n'.table.getPeer t = some p → n.table.getPeer t = some p) :
    Left (n.endAt t) (n'.endAt t) := by
  unfold endAt phase
  rw [htraffic, hlinks]
  cases hget : n'.table.getPeer t with
  | none => exact Or.inr rfl
  | some p =>
    rw [hpeer p hget]
    exact Or.inl rfl

/-- What is noted under another token is nothing to this end. -/
theorem endAt_note_of_ne {x : Traffic} (h : x.token ≠ t) : (n.note x).endAt t = n.endAt t := by
  have hsent : Traffic.sent t x = [] := by
    cases x with
    | handshake token bytes => exact if_neg h
    | wrote token chacha data bytes => exact if_neg h
    | _ => rfl
  have hsaid : Traffic.said t x = [] := by
    cases x with
    | wrote token chacha data bytes => exact if_neg h
    | _ => rfl
  have hhears : Traffic.hears t x = [] := by
    cases x with
    | heard token chacha frame message => exact if_neg h
    | _ => rfl
  have htaken : Traffic.taken t x = 0 := by
    cases x with
    | greeted token key nonce k => exact if_neg h
    | heard token chacha frame message => exact if_neg h
    | _ => rfl
  unfold endAt note
  simp only [List.flatMap_append, List.flatMap_singleton, List.map_append, List.map_singleton,
    List.sum_append, List.sum_singleton, hsent, hsaid, hhears, htaken, List.append_nil,
    Nat.add_zero]
  rfl

/-- After the handshakes a connection has a cipher, and keeps it. -/
theorem stage_of_tidy {p : Phase} (hp : p.Tidy) (hgreets : ¬ p.state.Greets) :
    ∃ chacha, p.chacha = some chacha ∧ p.stage = some (.talking chacha) := by
  obtain ⟨state, chacha, interest⟩ := p
  have htalks : ∀ {state : Peer.State}, state.Lives ∧ chacha.isSome → ¬ state.Greets →
      (∃ c, chacha = some c) := fun h _ => Option.isSome_iff_exists.mp h.2
  cases state with
  | connecting => exact absurd trivial hgreets
  | connected since => exact absurd trivial hgreets
  | serverHandshake since => exact absurd trivial hgreets
  | _ =>
    obtain ⟨c, rfl⟩ := htalks hp hgreets
    exact ⟨c, rfl, rfl⟩

/-- A tidy peer that greets nobody stays at its stage. -/
theorem stage_edge {p p' : Phase} (h : Phase.Edge C p p') (hp : p.Tidy) (hgreets : ¬ p.state.Greets) :
    p'.stage = p.stage := by
  have hp' := tidy_edge h hp
  have hkeeps : ¬ p'.state.Greets ∧ p'.chacha = p.chacha := by
    cases h with
    | stay => exact ⟨hgreets, rfl⟩
    | clientSent now hwrite => exact absurd trivial hgreets
    | clientRead since now key nonce hread => exact absurd trivial hgreets
    | serverSent since hwrite => exact absurd trivial hgreets
    | serverRead since key nonce hread => exact absurd trivial hgreets
    | sent now hstate hwrite => exact ⟨id, rfl⟩
    | rests hstate hwrite => exact ⟨hgreets, rfl⟩
    | answered interest' hstate hread hanswer =>
      rename_i state state' chacha interest
      refine ⟨?_, rfl⟩
      cases state' with
      | idle since => exact id
      | message data => exact id
      | sendLoop => exact id
      | _ => exact hanswer.elim
    | asked interest' since data => exact ⟨id, rfl⟩
    | waits data => exact ⟨id, rfl⟩
    | reconnects since => exact hp.1.elim
  obtain ⟨c, hc, hstage⟩ := stage_of_tidy hp hgreets
  obtain ⟨c', hc', hstage'⟩ := stage_of_tidy hp' hkeeps.1
  rw [hkeeps.2, hc] at hc'
  rw [hstage, hstage', Option.some.inj hc']

/-- What an edit makes of a peer. -/
theorem getPeer_edit (table : Peers) (f : ℕ → Peer → Peer) (t : ℕ) :
    (table.edit f).getPeer t = (table.getPeer t).map (f t) := by
  cases hget : table.getPeer t with
  | none =>
    cases hget' : (table.edit f).getPeer t with
    | none => rfl
    | some p =>
      obtain ⟨e, he, heq⟩ := List.mem_map.mp (Peers.mem_of_getPeer hget')
      have htoken : e.1 = t := congrArg Prod.fst heq
      have hsome : table.getPeer e.1 = some e.2 := Peers.getPeer_of_mem he
      rw [htoken, hget] at hsome
      cases hsome
  | some p =>
    have hmem : (t, f t p) ∈ (table.edit f).peers :=
      List.mem_map.mpr ⟨(t, p), Peers.mem_of_getPeer hget, rfl⟩
    exact Peers.getPeer_of_mem hmem

/-- A stage is the same, so the end is. -/
theorem endAt_congr (htraffic : n'.traffic = n.traffic)
    (hstage : ((n'.table.getPeer t).bind fun p => (n'.phase t p).stage)
      = (n.table.getPeer t).bind fun p => (n.phase t p).stage) : n'.endAt t = n.endAt t := by
  unfold endAt
  rw [htraffic, hstage]

/-- What the actions do to a connection that they are not about. -/
theorem Act.left (hn : AllTidy n) (ht : t < n.token.toNat) (hfocus : focus ≠ some t)
    (h : n.Act C now focus a n') : Left (n.endAt t) (n'.endAt t) := by
  cases a with
  | opened peer interest =>
    obtain ⟨-, -, next, -, rfl⟩ := h
    refine left_of_getPeer rfl (Function.update_of_ne ht.ne _ _) fun p hp => ?_
    rcases mem_addPeer (Peers.mem_of_getPeer hp) with heq | ⟨hmem, -⟩
    · have htoken : t = n.token.toNat := congrArg Prod.fst heq
      omega
    · exact Peers.getPeer_of_mem hmem
  | shifted table links =>
    obtain ⟨rfl, f, rfl, hproceeds⟩ := h
    refine Or.inl (endAt_congr rfl ?_)
    show (((n.table.edit f).getPeer t).bind _) = _
    rw [getPeer_edit]
    cases hget : n.table.getPeer t with
    | none => rfl
    | some p =>
      have hmem := Peers.mem_of_getPeer hget
      obtain ⟨hshift, hsame, -⟩ := hproceeds _ hmem
      show (Phase.mk (f t p).state (links t).chacha (links t).interest).stage = _
      by_cases hgreets : p.state.Greets
      · rcases hsame hgreets with hfocus' | ⟨hlink, hpeer⟩
        · exact absurd hfocus' hfocus
        · dsimp only at hlink hpeer
          rw [hlink, hpeer]
          rfl
      · exact stage_edge hshift.edge (hn _ hmem) hgreets
  | dropped table =>
    obtain ⟨rfl, hdropped⟩ := h
    exact left_of_getPeer rfl rfl fun p hp =>
      Peers.getPeer_of_mem (hdropped.sublist.subset (Peers.mem_of_getPeer hp))
  | reordered table =>
    obtain ⟨rfl, hperm, -⟩ := h
    exact left_of_getPeer rfl rfl fun p hp =>
      Peers.getPeer_of_mem (hperm.subset (Peers.mem_of_getPeer hp))
  | noted x =>
    obtain ⟨rfl, -, hx⟩ := h
    refine Or.inl (endAt_note_of_ne fun htoken => hfocus ?_)
    rw [hx, htoken]
  | purged =>
    obtain rfl := h
    exact Or.inl rfl
  | pinged utc =>
    obtain rfl := h
    exact Or.inl rfl
  | _ =>
    obtain ⟨rfl, -⟩ := h
    exact Or.inl rfl

/-- A token of a network whose counter tells the tokens that were handed out. -/
structure Given (C : Config) (t : ℕ) (n : Network) : Prop where
  tidy : AllTidy n
  counted : Counted C n
  given : t ≤ n.opened

/-- Each action keeps a token as given as it is. -/
theorem Given.act (hn : Given C t n) (h : n.Act C now focus a n') : Given C t n' :=
  ⟨hn.tidy.act h, hn.counted.act h, hn.given.trans (Act.opened_le h)⟩

/-- So do moves. -/
theorem Given.moves (hn : Given C t n) (h : Moves C now focus n n') : Given C t n' :=
  h.invariant hn fun _ _ _ hm _ ha => hm.act ha

/-- A token that has been given is below the counter, while this has not wrapped. -/
theorem Given.token (hn : Given C t n) (hunwrapped : Unwrapped C n) : t < n.token.toNat := by
  rw [hn.counted hunwrapped]
  exact Nat.lt_succ_of_le hn.given

/-- **The other connections stay as they are**, or are gone, as long as no token is handed out
twice. -/
theorem Moves.left (hn : Given C t n) (hfocus : focus ≠ some t) (h : Moves C now focus n n')
    (hunwrapped : Unwrapped C n') : Left (n.endAt t) (n'.endAt t) := by
  have hinv : Given C t n' ∧ (Unwrapped C n' → Left (n.endAt t) (n'.endAt t)) := by
    refine h.invariant (I := fun m => Given C t m ∧ (Unwrapped C m → Left (n.endAt t) (m.endAt t)))
      ⟨hn, fun _ => Or.inl rfl⟩ ?_
    rintro m a m' ⟨hm, hleft⟩ - hact
    refine ⟨hm.act hact, fun hunwrapped' => ?_⟩
    have hearlier := hunwrapped'.of_le (Act.opened_le hact)
    exact (hleft hearlier).trans (Act.left hm.tidy (hm.token hearlier) hfocus hact)
  exact hinv.2 hunwrapped

/-! ### The connection of an event -/

variable {token : ℕ} {f : Peer → Peer} {k : Link → Link}

/-- A record is put at the end of its list. -/
theorem endAt_note (n : Network) (t : ℕ) (x : Traffic) : (n.note x).endAt t =
    ⟨(n.endAt t).stage, (n.endAt t).sent ++ x.sent t, (n.endAt t).said ++ x.said t,
      (n.endAt t).heard ++ x.hears t, (n.endAt t).taken + x.taken t⟩ := by
  unfold endAt note
  simp only [List.flatMap_append, List.flatMap_singleton, List.map_append, List.map_singleton,
    List.sum_append, List.sum_singleton]
  rfl

/-- The stage of an end is that of its peer. -/
theorem stage_endAt (hpeer : n.table.getPeer t = some peer) :
    (n.endAt t).stage = (n.phase t peer).stage := by
  unfold endAt
  rw [hpeer]
  rfl

/-- What a connection is changed to. -/
theorem endAt_shift (hpeer : n.table.getPeer t = some peer) :
    ((n.relink t k).modify t f).endAt t =
      { n.endAt t with
        stage := (Phase.mk (f peer).state (k (n.links t)).chacha (k (n.links t)).interest).stage } := by
  have hget : ((n.relink t k).modify t f).table.getPeer t = some (f peer) :=
    getPeer_modify (t := n.table) hpeer
  have hlink : ((n.relink t k).modify t f).links t = k (n.links t) := Function.update_self _ _ _
  unfold endAt phase
  rw [hget, hlink]
  rfl

/-- A change of the peer changes the stage at most. -/
theorem endAt_modify (hpeer : n.table.getPeer t = some peer) :
    (n.modify t f).endAt t = { n.endAt t with
      stage := (Phase.mk (f peer).state (n.links t).chacha (n.links t).interest).stage } := by
  have hshift := endAt_shift (f := f) (k := id) hpeer
  rwa [relink_id] at hshift

/-- The registration makes no difference to the end. -/
theorem endAt_register (n : Network) (t : ℕ) (interest : Interest) :
    (n.relink t fun l => { l with interest }).endAt t = n.endAt t := by
  refine endAt_congr rfl ?_
  have hlink : (n.relink t fun l => { l with interest }).links t = { n.links t with interest } :=
    Function.update_self _ _ _
  unfold phase
  rw [hlink]
  rfl

/-- A peer that is closed is gone. -/
theorem getPeer_closePeer (table : Peers) (now t : ℕ) : (table.closePeer now t).getPeer t = none := by
  have hremove : (table.remove t).getPeer t = none := by
    cases hget : (table.remove t).getPeer t with
    | none => rfl
    | some p =>
      have hne := (List.mem_filter.mp (Peers.mem_of_getPeer hget)).2
      simp at hne
  unfold Peers.closePeer
  cases hget : table.getPeer t with
  | none => exact hget
  | some p =>
    dsimp only
    split
    · exact hremove
    · exact hremove

/-- Its end has no stage, and keeps its lists. -/
theorem endAt_closePeer (n : Network) (now t : ℕ) :
    (n.closePeer now t).endAt t = { n.endAt t with stage := none } := by
  have hnone : (n.closePeer now t).table.getPeer t = none := getPeer_closePeer n.table now t
  unfold endAt
  rw [hnone]
  rfl

/-- What is left of the connection of an event. -/
def settled (now t : ℕ) (r : Network × Bool) : Network := if r.2 then r.1 else r.1.closePeer now t

theorem settled_true (m : Network) : settled now t (m, true) = m := rfl

/-- An end that is closed is left. -/
theorem left_closed (n : Network) (now t : ℕ) : Left (n.endAt t) ((settled now t (n, false)).endAt t) :=
  Or.inr (endAt_closePeer n now t)

/-! ### Writing -/

/-- A peer past its greeting talks with the key it has. -/
theorem stage_talking {state : Peer.State} {chacha : Chacha} {interest : Interest}
    (h : ¬ state.Greets) : (Phase.mk state (some chacha) interest).stage = some (.talking chacha) := by
  cases state with
  | connecting => exact absurd trivial h
  | connected since => exact absurd trivial h
  | serverHandshake since => exact absurd trivial h
  | _ => rfl

/-- A handshake is written. -/
theorem endAt_handshake {bytes : List UInt8} (hpeer : n.table.getPeer t = some peer) :
    ((n.note (.handshake t bytes)).modify t f).endAt t = { n.endAt t with
      stage := (Phase.mk (f peer).state (n.links t).chacha (n.links t).interest).stage
      sent := (n.endAt t).sent ++ bytes } := by
  have hmodify := endAt_modify (f := f) (n := n.note (.handshake t bytes)) hpeer
  rw [hmodify, endAt_note]
  simp only [Traffic.sent, Traffic.said, Traffic.hears, Traffic.taken, if_true, List.append_nil,
    Nat.add_zero]
  rfl

/-- A message is written. -/
theorem step_wrote {chacha : Chacha} {data encrypted : List UInt8}
    (hpeer : n.table.getPeer t = some peer) (hchacha : (n.links t).chacha = some chacha)
    (hgreets : ¬ peer.state.Greets) (hgreets' : ¬ (f peer).state.Greets)
    (hencrypt : chacha.cipher.encrypt data = some encrypted) :
    (n.endAt t).Step C none
      (((n.note (.wrote t (some chacha) data (sendMessage encrypted))).modify t f).endAt t) := by
  have hstage : (n.endAt t).stage = some (.talking chacha) := by
    rw [stage_endAt hpeer, phase, hchacha, stage_talking hgreets]
  have hend : ((n.note (.wrote t (some chacha) data (sendMessage encrypted))).modify t f).endAt t
      = { n.endAt t with
          sent := (n.endAt t).sent ++ sendMessage encrypted
          said := (n.endAt t).said ++ [data] } := by
    have hmodify := endAt_modify (f := f)
      (n := n.note (.wrote t (some chacha) data (sendMessage encrypted))) hpeer
    rw [hmodify, endAt_note]
    have hshown : (Phase.mk (f peer).state (n.links t).chacha (n.links t).interest).stage
        = (n.endAt t).stage := by rw [hchacha, stage_talking hgreets', hstage]
    simp only [Traffic.sent, Traffic.said, Traffic.hears, Traffic.taken, if_true, List.append_nil,
      Nat.add_zero]
    show End.mk (Phase.mk (f peer).state (n.links t).chacha (n.links t).interest).stage _ _ _ _ = _
    rw [hshown]
  rw [hend]
  exact .say hstage hencrypt

/-- At most one thing is written. -/
def Writes (C : Config) (e e' : End) : Prop := e' = e ∨ e.Step C none e'

/-- A frame is put on the line whole. -/
theorem sendFrame_writes {w : Writing} {chacha : Chacha} {data : List UInt8} {n₁ : Network}
    (hcut : w.cut = none) (hpeer : n.table.getPeer t = some peer) (hchacha : (n.links t).chacha = some chacha)
    (hgreets : ¬ peer.state.Greets) (hgreets' : ¬ (f peer).state.Greets)
    (h : n.sendFrame w t data = some n₁) : Writes C (n.endAt t) ((n₁.modify t f).endAt t) := by
  obtain ⟨encrypted, hencrypt, rfl⟩ := Option.map_eq_some_iff.mp h
  have hwritten : w.written (sendMessage encrypted) = sendMessage encrypted := by
    unfold Writing.written
    rw [hcut]
  rw [hchacha] at hencrypt ⊢
  rw [hwritten]
  exact Or.inr (step_wrote hpeer hchacha hgreets hgreets' hencrypt)

/-- So is a message that has to fit a frame. -/
theorem sendFrameUnwrap_writes {w : Writing} {chacha : Chacha} {message : Message} {n₁ : Network}
    (hcut : w.cut = none) (hpeer : n.table.getPeer t = some peer) (hchacha : (n.links t).chacha = some chacha)
    (hgreets : ¬ peer.state.Greets) (hgreets' : ¬ (f peer).state.Greets)
    (h : n.sendFrameUnwrap w t message = .ok n₁) :
    Writes C (n.endAt t) ((n₁.modify t f).endAt t) := by
  unfold sendFrameUnwrap at h
  split at h
  · rename_i n₂ hframe
    rw [← Except.ok.inj h]
    exact sendFrame_writes hcut hpeer hchacha hgreets hgreets' hframe
  · cases h

/-- After the handshakes a change of the state is none of the end. -/
theorem endAt_of_not_greets {chacha : Chacha} (hpeer : n.table.getPeer t = some peer)
    (hchacha : (n.links t).chacha = some chacha) (hgreets : ¬ peer.state.Greets)
    (hgreets' : ¬ (f peer).state.Greets) : (n.modify t f).endAt t = n.endAt t := by
  have hstage := stage_endAt (n := n) hpeer
  rw [phase, hchacha, stage_talking hgreets] at hstage
  rw [endAt_modify hpeer, hchacha, stage_talking hgreets', ← hstage]

/-- A peer past its greeting has a key. -/
theorem exists_chacha_of_tidy (htidy : (n.phase t peer).Tidy) (hgreets : ¬ peer.state.Greets) :
    ∃ chacha, (n.links t).chacha = some chacha := by
  obtain ⟨chacha, hchacha, -⟩ := stage_of_tidy htidy hgreets
  exact ⟨chacha, hchacha⟩

/-- A client says hello. -/
theorem hello_writes {writing : Writing} {n₁ : Network} (hpeer : n.table.getPeer t = some peer)
    (htidy : (n.phase t peer).Tidy) (hstate : peer.state = .connecting)
    (h : n.writeState C now t writing peer = .ok (some n₁)) : Writes C (n.endAt t) (n₁.endAt t) := by
  have hstage := stage_endAt (n := n) hpeer
  unfold phase Phase.Tidy at htidy
  unfold phase at hstage
  unfold writeState at h
  rw [hstate] at h htidy hstage
  have hnone : (n.links t).chacha = none := htidy.1
  dsimp only at h
  split at h
  · cases h
  · cases h
    right
    rw [endAt_handshake hpeer, hnone]
    exact .hello writing.garbage hstage

/-- A server answers; it has got its key together with its wish to write. -/
theorem answer_writes {writing : Writing} {n₁ : Network} {since : ℕ}
    (hpeer : n.table.getPeer t = some peer) (htidy : (n.phase t peer).Tidy)
    (hwrite : (n.links t).interest.writable) (hstate : peer.state = .serverHandshake since)
    (h : n.writeState C now t writing peer = .ok (some n₁)) : Writes C (n.endAt t) (n₁.endAt t) := by
  have hstage := stage_endAt (n := n) hpeer
  unfold phase Phase.Tidy at htidy
  unfold phase at hstage
  unfold writeState at h
  rw [hstate] at h htidy hstage
  obtain ⟨chacha, hchacha⟩ : ∃ chacha, (n.links t).chacha = some chacha := by
    rcases htidy with ⟨-, hinterest⟩ | ⟨hchacha, -⟩
    · dsimp only at hinterest
      rw [hinterest] at hwrite
      cases hwrite
    · exact Option.isSome_iff_exists.mp hchacha
  dsimp only at h
  split at h
  · cases h
  · cases h
    rw [hchacha] at hstage
    right
    rw [endAt_handshake hpeer, hchacha]
    exact .answer writing.garbage hstage

/-- A message is said, and the state is changed. -/
theorem said_writes {writing : Writing} {message : Message} {n₁ : Network} (hcut : writing.cut = none)
    (hpeer : n.table.getPeer t = some peer) (htidy : (n.phase t peer).Tidy)
    (hgreets : ¬ peer.state.Greets) (hgreets' : ¬ (f peer).state.Greets)
    (h : (n.sendFrameUnwrap writing t message >>= fun n₂ => Except.ok (some (n₂.modify t f)))
      = .ok (some n₁)) : Writes C (n.endAt t) (n₁.endAt t) := by
  obtain ⟨chacha, hchacha⟩ := exists_chacha_of_tidy htidy hgreets
  obtain ⟨n₂, hsent, h⟩ := bind_eq_ok.mp h
  cases h
  exact sendFrameUnwrap_writes hcut hpeer hchacha hgreets hgreets' hsent

/-- **Writing**, in any state, is a turn of the connection. -/
theorem writeState_writes {writing : Writing} {n₁ : Network} (hcut : writing.cut = none)
    (hpeer : n.table.getPeer t = some peer) (htidy : (n.phase t peer).Tidy)
    (hwrite : (n.links t).interest.writable)
    (h : n.writeState C now t writing peer = .ok (some n₁)) :
    Writes C (n.endAt t) (n₁.endAt t) := by
  cases hstate : peer.state with
  | connecting => exact hello_writes hpeer htidy hstate h
  | serverHandshake since => exact answer_writes hpeer htidy hwrite hstate h
  | handshakeFinished =>
    unfold writeState at h
    rw [hstate] at h
    exact said_writes hcut hpeer htidy (by rw [hstate]; exact id) id h
  | message data =>
    have hgreets : ¬ peer.state.Greets := by rw [hstate]; exact id
    obtain ⟨chacha, hchacha⟩ := exists_chacha_of_tidy htidy hgreets
    unfold writeState at h
    rw [hstate] at h
    cases h
    cases hframe : n.sendFrame writing t data with
    | none => exact Or.inl (endAt_of_not_greets hpeer hchacha hgreets id)
    | some n₂ => exact sendFrame_writes hcut hpeer hchacha hgreets id hframe
  | idle since =>
    have hgreets : ¬ peer.state.Greets := by rw [hstate]; exact id
    unfold writeState at h
    rw [hstate] at h
    dsimp only at h
    split at h
    · have hping : (n.sendFrameUnwrap writing t
          (.ping n.node.chain.getHeight n.node.chain.getLastHash) >>= fun n₂ =>
            Except.ok (some (n₂.modify t id))) = .ok (some n₁) := by
        simpa only [modify_id] using h
      exact said_writes hcut hpeer htidy hgreets hgreets hping
    · cases h
      exact Or.inl rfl
  | sendLoop =>
    unfold writeState at h
    rw [hstate] at h
    exact said_writes hcut hpeer htidy (by rw [hstate]; exact id) id h
  | twin =>
    unfold writeState at h
    rw [hstate] at h
    exact said_writes hcut hpeer htidy (by rw [hstate]; exact id) id h
  | _ =>
    unfold writeState at h
    rw [hstate] at h
    cases h
    exact Or.inl rfl

/-- **Writing.** -/
theorem processWritable_writes {writing : Writing} {r : Network × Bool}
    (hcut : writing.cut = none) (hn : AllTidy n) (hwrite : (n.links t).interest.writable) (h : n.processWritable C now t writing = .ok r) :
    ∃ e, Writes C (n.endAt t) e ∧ Left e ((settled now t r).endAt t) := by
  unfold processWritable at h
  cases hpeer : n.table.getPeer t with
  | none =>
    rw [hpeer] at h
    cases h
    exact ⟨_, Or.inl rfl, Or.inl rfl⟩
  | some peer =>
    rw [hpeer] at h
    obtain ⟨written, hstate, h⟩ := bind_eq_ok.mp h
    cases written with
    | none =>
      cases h
      exact ⟨_, Or.inl rfl, left_closed n now t⟩
    | some n₁ =>
      obtain ⟨n₂, hreg, h⟩ := bind_eq_ok.mp h
      obtain rfl := reregister_eq_ok hreg
      cases h
      refine ⟨_, writeState_writes hcut hpeer (hn _ (Peers.mem_of_getPeer hpeer)) hwrite hstate, Or.inl ?_⟩
      exact endAt_register n₁ t .reads

/-! ### Reading -/

/-- At most one thing is read, from the stream. -/
def Reads (C : Config) (stream : Chunked UInt8) (e e' : End) : Prop :=
  e' = e ∨ e.Step C (some stream) e'

/-- A handshake is read. -/
theorem endAt_greeted {chacha : Chacha} {key : Vector UInt8 32} {nonce : Vector UInt8 12}
    {state : Peer.State} {taken : ℕ} {interest : Interest} (hpeer : n.table.getPeer t = some peer) :
    (((((n.relink t fun l => { l with interest }).note (.greeted t key nonce taken)).setChacha t
      chacha).modify t (Peer.setState state))).endAt t = { n.endAt t with
        stage := (Phase.mk state (some chacha) interest).stage
        taken := (n.endAt t).taken + taken } := by
  have hget : (n.note (.greeted t key nonce taken)).table.getPeer t = some peer := hpeer
  have hshift := endAt_shift (n := n.note (.greeted t key nonce taken)) (f := Peer.setState state)
    (k := (fun l => { l with chacha := some chacha }) ∘ fun l => { l with interest }) hget
  rw [← relink_relink, endAt_note] at hshift
  simp only [Traffic.sent, Traffic.said, Traffic.hears, Traffic.taken, if_true, List.append_nil]
    at hshift
  exact hshift

/-- What is noted about a peer does not go on record. -/
theorem noted_traffic (r : Reading) (h : Hearing) : (n.noted C now token r h).traffic = n.traffic := by
  have hexchange : ∀ (m : Network) (texts : List String),
      (m.addPeersFromExchange C texts).traffic = m.traffic := by
    intro m texts
    unfold addPeersFromExchange
    induction texts generalizing m with
    | nil => rfl
    | cons text texts ih =>
      rw [List.foldl_cons, ih]
      unfold addCandidate
      split
      · rfl
      · split_ifs <;> rfl
  unfold noted
  split
  · rfl
  · rfl
  · rfl
  · rfl
  · rfl
  · rfl
  · exact hexchange _ _
  · split
    · split_ifs <;> rfl
    · rfl
  · rfl
  · rfl
  · rfl

/-- The answer to a message leaves the end as it is, or closes it. -/
theorem settle_left {state : State} {chacha : Chacha} {r : Network × Bool}
    (hpeer : n.table.getPeer t = some peer) (hchacha : (n.links t).chacha = some chacha)
    (hgreets : ¬ peer.state.Greets) (h : n.settle C now t state = .ok r) :
    Left (n.endAt t) ((settled now t r).endAt t) := by
  have hregistered : ∀ (interest : Interest) (state' : Peer.State), ¬ state'.Greets →
      ((n.relink t fun l => { l with interest }).modify t (Peer.setState state')).endAt t
        = n.endAt t := by
    intro interest state' hstate'
    have hsame : ((n.relink t fun l => { l with interest }).links t).chacha = some chacha := by
      show (Function.update n.links t _ t).chacha = _
      rw [Function.update_self]
      exact hchacha
    rw [← endAt_register n t interest]
    exact endAt_of_not_greets (n := n.relink t _) hpeer hsame hgreets hstate'
  cases state with
  | message m =>
    obtain ⟨n₁, hreg, h⟩ := bind_eq_ok.mp h
    obtain rfl := reregister_eq_ok hreg
    cases h
    exact Or.inl (hregistered .writes (.message m.toVec) id)
  | idle =>
    cases h
    exact Or.inl (endAt_of_not_greets hpeer hchacha hgreets id)
  | error =>
    cases h
    exact Or.inl rfl
  | banned =>
    obtain ⟨table, hignore, h⟩ := bind_eq_ok.mp h
    cases h
    have hdropped : Peers.Dropped now n.table table := .ignorePeer hignore
    show Left _ (endAt { n with table } t)
    exact left_of_getPeer rfl rfl fun p hp =>
      Peers.getPeer_of_mem (hdropped.sublist.subset (Peers.mem_of_getPeer hp))
  | loop =>
    obtain ⟨table, hignore, h⟩ := bind_eq_ok.mp h
    cases h
    have hdropped : Peers.Dropped now n.table table := .ignorePeer_modify hignore
    show Left _ (endAt { n with table } t)
    exact left_of_getPeer rfl rfl fun p hp =>
      Peers.getPeer_of_mem (hdropped.sublist.subset (Peers.mem_of_getPeer hp))
  | sendLoop =>
    obtain ⟨n₁, hreg, h⟩ := bind_eq_ok.mp h
    obtain rfl := reregister_eq_ok hreg
    cases h
    exact Or.inl (hregistered .both .sendLoop id)
  | twin =>
    cases h
    refine Or.inr ?_
    show ((n.modify t (Peer.setState .twin)).closePeer now t).endAt t = _
    rw [endAt_closePeer, endAt_of_not_greets hpeer hchacha hgreets id]

/-- A message is heard, and then answered. -/
theorem hear_reads {reading : Reading} {frame : List UInt8} {message : Message} {r : Network × Bool}
    {chacha : Chacha} {rest : Chunked UInt8} (hpeer : n.table.getPeer t = some peer)
    (hchacha : (n.links t).chacha = some chacha) (hgreets : ¬ peer.state.Greets)
    (hread : Transport.readMessage reading.stream = (.ok frame, rest))
    (hmessage : Message.fromBytes C.platform.checks
      ((decodeMessage ((n.links t).chacha.map Chacha.cipher) frame).getD []) = .ok (some message))
    (h : n.hear C now t reading frame peer message = .ok r) :
    ∃ e, Reads C reading.stream (n.endAt t) e ∧ Left e ((settled now t r).endAt t) := by
  -- nothing is no message
  obtain ⟨data, hdata⟩ : ∃ data, chacha.cipher.decrypt frame = some data := by
    rw [hchacha] at hmessage
    cases hdata : chacha.cipher.decrypt frame with
    | some data => exact ⟨data, rfl⟩
    | none =>
      have hnone : decodeMessage ((some chacha).map Chacha.cipher) frame = none := hdata
      rw [hnone, Option.getD_none, fromBytes_nil] at hmessage
      cases hmessage
  have hstage : (n.endAt t).stage = some (.talking chacha) := by
    rw [stage_endAt hpeer, phase, hchacha, stage_talking hgreets]
  obtain ⟨size, hitems, hsize, -, -⟩ := Transport.items_of_readMessage hread
  have hcount : reading.stream.items.length - rest.items.length = 2 + frame.length := by
    rw [hitems, List.length_append, List.length_append, hsize]
    omega
  have hstep : (n.endAt t).Step C (some reading.stream)
      ((n.note (.heard t (n.links t).chacha frame message)).endAt t) := by
    have hdecoded : (decodeMessage ((n.links t).chacha.map Chacha.cipher) frame).getD [] = data := by
      rw [hchacha]
      show (chacha.cipher.decrypt frame).getD [] = data
      rw [hdata, Option.getD_some]
    have hhear : (n.endAt t).Step C (some reading.stream)
        { (n.endAt t).take reading.stream rest with heard := (n.endAt t).heard ++ [data] } :=
      .hear hstage hread hdata
    rw [endAt_note]
    simp only [Traffic.sent, Traffic.said, Traffic.hears, Traffic.taken, if_true, List.append_nil,
      hdecoded]
    rw [End.take, hcount] at hhear
    exact hhear
  obtain ⟨⟨node, state⟩, -, h⟩ := bind_eq_ok.mp h
  dsimp only at h
  have htraffic : ((n.note (.heard t (n.links t).chacha frame message)).noted C now t reading
      (n.hearing C now t reading peer message)).traffic =
      (n.note (.heard t (n.links t).chacha frame message)).traffic := noted_traffic _ _
  obtain ⟨-, hlinks, -, peer', hpeer', hstate'⟩ : Noting C now t peer _ _ :=
    noted_noting (C := C) (r := reading) (h := n.hearing C now t reading peer message) rfl hpeer
      (n := n.note (.heard t (n.links t).chacha frame message))
  generalize (n.note _).noted C now t _ _ = n₁ at h htraffic hlinks hpeer'
  have hchacha₁ : (n₁.links t).chacha = some chacha := by
    rw [hlinks]
    exact hchacha
  have hsame : n₁.endAt t = (n.note (.heard t (n.links t).chacha frame message)).endAt t := by
    refine endAt_congr htraffic ?_
    rw [hpeer']
    show Phase.stage ⟨peer'.state, (n₁.links t).chacha, (n₁.links t).interest⟩ = _
    rw [hchacha₁, stage_talking (hstate' ▸ hgreets)]
    exact hstage.symm
  refine ⟨_, Or.inr hstep, ?_⟩
  rw [← hsame]
  exact settle_left (n := { n₁ with node }) hpeer' hchacha₁ (hstate' ▸ hgreets) h

/-- A connection on which nothing can be read is closed. -/
theorem closed_reads (C : Config) (stream : Chunked UInt8) (n : Network) (now t : ℕ) :
    ∃ e, Reads C stream (n.endAt t) e ∧ Left e ((settled now t (n, false)).endAt t) :=
  ⟨_, Or.inl rfl, left_closed n now t⟩

/-- The handshake of a client is read. -/
theorem greets_reads {reading : Reading} {r : Network × Bool} {since : ℕ}
    (hpeer : n.table.getPeer t = some peer) (hstate : peer.state = .connected since)
    (hopen : ¬ reading.readClosed) (h : n.processReadable C now t reading = .ok r) :
    ∃ e, Reads C reading.stream (n.endAt t) e ∧ Left e ((settled now t r).endAt t) := by
  have hstage := stage_endAt (n := n) hpeer
  unfold phase at hstage
  unfold processReadable at h
  rw [hpeer] at h
  dsimp only at h
  rw [if_neg hopen, hstate] at h
  rw [hstate] at hstage
  dsimp only at h
  split at h
  · exact Except.ok.inj h ▸ closed_reads C reading.stream n now t
  · rename_i key hkey
    obtain ⟨n₁, hreg, h⟩ := bind_eq_ok.mp h
    obtain rfl := reregister_eq_ok hreg
    cases h
    refine ⟨_, Or.inr ?_, Or.inl rfl⟩
    rw [settled_true, endAt_greeted hpeer]
    exact .learn reading.nonce hstage (Prod.ext hkey rfl)

/-- The handshake of a server is read; the connection has no key before it. -/
theorem answers_reads {reading : Reading} {r : Network × Bool} {since : ℕ} (hn : AllTidy n)
    (hread : (n.links t).interest.readable) (hpeer : n.table.getPeer t = some peer)
    (hstate : peer.state = .serverHandshake since) (hopen : ¬ reading.readClosed)
    (h : n.processReadable C now t reading = .ok r) :
    ∃ e, Reads C reading.stream (n.endAt t) e ∧ Left e ((settled now t r).endAt t) := by
  have htidy := hn _ (Peers.mem_of_getPeer hpeer)
  have hstage := stage_endAt (n := n) hpeer
  unfold phase Phase.Tidy at htidy
  unfold phase at hstage
  unfold processReadable at h
  rw [hpeer] at h
  dsimp only at h
  rw [if_neg hopen, hstate] at h
  rw [hstate] at hstage htidy
  have hnone : (n.links t).chacha = none := by
    rcases htidy with ⟨hnone, -⟩ | ⟨-, hinterest⟩
    · exact hnone
    · dsimp only at hinterest
      rw [hinterest] at hread
      cases hread
  dsimp only at h
  split at h
  · exact Except.ok.inj h ▸ closed_reads C reading.stream n now t
  · rename_i data hdata
    split at h
    · exact Except.ok.inj h ▸ closed_reads C reading.stream n now t
    obtain ⟨n₁, hreg, h⟩ := bind_eq_ok.mp h
    obtain rfl := reregister_eq_ok hreg
    cases h
    rw [hnone] at hstage
    refine ⟨_, Or.inr ?_, Or.inl rfl⟩
    rw [settled_true, endAt_greeted hpeer]
    exact .agree hstage (Prod.ext hdata rfl)

/-- A peer that is read from, and not for its handshake, is past its greeting. -/
theorem not_greets_of_readable (htidy : (n.phase t peer).Tidy) (hread : (n.links t).interest.readable)
    (hconnected : ∀ since, peer.state ≠ .connected since)
    (hserver : ∀ since, peer.state ≠ .serverHandshake since) : ¬ peer.state.Greets := by
  cases hstate : peer.state with
  | connected since => exact absurd hstate (hconnected since)
  | serverHandshake since => exact absurd hstate (hserver since)
  | connecting =>
    unfold phase Phase.Tidy at htidy
    rw [hstate] at htidy
    have hinterest : (n.links t).interest = .writes := htidy.2
    rw [hinterest] at hread
    cases hread
  | _ => exact id

/-- **Reading**, in any state, is a turn of the connection. -/
theorem processReadable_reads {reading : Reading} {r : Network × Bool} (hn : AllTidy n)
    (hread : (n.links t).interest.readable) (h : n.processReadable C now t reading = .ok r) :
    ∃ e, Reads C reading.stream (n.endAt t) e ∧ Left e ((settled now t r).endAt t) := by
  cases hpeer : n.table.getPeer t with
  | none =>
    unfold processReadable at h
    rw [hpeer] at h
    exact Except.ok.inj h ▸ closed_reads C reading.stream n now t
  | some peer =>
    have hdone := h
    unfold processReadable at h
    rw [hpeer] at h
    dsimp only at h
    by_cases hclosed : reading.readClosed
    · rw [if_pos hclosed] at h
      exact Except.ok.inj h ▸ closed_reads C reading.stream n now t
    rw [if_neg hclosed] at h
    split at h
    · rename_i since hstate
      exact greets_reads hpeer hstate hclosed hdone
    · rename_i since hstate
      exact answers_reads hn hread hpeer hstate hclosed hdone
    · -- a message
      rename_i hconnected hserver
      have htidy := hn _ (Peers.mem_of_getPeer hpeer)
      have hgreets := not_greets_of_readable htidy hread hconnected hserver
      obtain ⟨chacha, hchacha⟩ := exists_chacha_of_tidy htidy hgreets
      split at h
      · exact Except.ok.inj h ▸ closed_reads C reading.stream n now t
      · rename_i frame hframe
        obtain ⟨message, hmessage, h⟩ := bind_eq_ok.mp h
        cases message with
        | none => exact Except.ok.inj h ▸ closed_reads C reading.stream n now t
        | some message => exact hear_reads hpeer hchacha hgreets (Prod.ext hframe rfl) hmessage h

/-! ### Events -/

/-- Steps of an end that read nothing. -/
abbrev Quiet (C : Config) : End → End → Prop := Relation.ReflTransGen fun e e' => e.Step C none e'

/-- Being left is nothing on the line. -/
theorem Left.quiet {e e' : End} (h : Left e e') : Quiet C e e' := by
  rcases h with rfl | rfl
  · exact .refl
  · exact .single .close

/-- Neither the other side nor the line sees more than what is written. -/
theorem Writes.quiet {e e' : End} (h : Writes C e e') : Quiet C e e' := by
  rcases h with rfl | hstep
  · exact .refl
  · exact .single hstep

/-- Moves keep all peers tidy. -/
theorem AllTidy.moves (hn : AllTidy n) (h : Moves C now focus n n') : AllTidy n' :=
  h.invariant hn fun _ _ _ hm _ ha => hm.act ha

/-- **An event of a connection is one of its end**: it reads at most once, and then writes or
closes. -/
theorem ready_end {e : Readiness} (hcut : e.writing.cut = none) (hn : AllTidy n)
    (hadmissible : (e.readable → (n.links t).interest.readable)
      ∧ (e.writable → (n.links t).interest.writable)) (h : n.ready C now t e = .ok n') :
    ∃ e₁, Reads C e.reading.stream (n.endAt t) e₁ ∧ Quiet C e₁ (n'.endAt t) := by
  obtain ⟨r, hevent, h⟩ := bind_eq_ok.mp h
  have hn' : n' = settled now t r := (Except.ok.inj h).symm
  rw [hn']
  unfold handleConnectionEvent at hevent
  split at hevent
  · cases hevent
    exact ⟨_, Or.inl rfl, (left_closed n now t).quiet⟩
  · obtain ⟨⟨n₁, ok⟩, hread, hevent⟩ := bind_eq_ok.mp hevent
    have hfirst : (∃ e₁, Reads C e.reading.stream (n.endAt t) e₁
          ∧ Left e₁ ((settled now t (n₁, ok)).endAt t))
        ∧ (ok → AllTidy n₁ ∧ ((n.links t).interest.writable → (n₁.links t).interest.writable)) := by
      by_cases hreadable : e.readable
      · rw [if_pos hreadable] at hread
        obtain ⟨hleads, hanswered⟩ := processReadable_leads (hadmissible.1 hreadable) hread
        refine ⟨processReadable_reads hn (hadmissible.1 hreadable) hread, fun hok => ⟨?_, hanswered hok⟩⟩
        unfold Leads at hleads
        rw [if_pos hok] at hleads
        exact hn.moves hleads
      · rw [if_neg hreadable] at hread
        cases hread
        exact ⟨⟨_, Or.inl rfl, Or.inl rfl⟩, fun _ => ⟨hn, id⟩⟩
    obtain ⟨⟨e₁, hreads, hleft⟩, hgoes⟩ := hfirst
    dsimp only at hevent
    cases ok with
    | false =>
      cases hevent
      exact ⟨e₁, hreads, hleft.quiet⟩
    | true =>
      obtain ⟨hn₁, hwrites⟩ := hgoes rfl
      rw [settled_true] at hleft
      rw [if_neg (by simp)] at hevent
      split at hevent
      · rename_i hwritable
        obtain ⟨e₂, hwrote, hleft₂⟩ :=
          processWritable_writes hcut hn₁ (hwrites (hadmissible.2 hwritable)) hevent
        exact ⟨e₁, hreads, hleft.quiet.trans (hwrote.quiet.trans hleft₂.quiet)⟩
      · cases hevent
        exact ⟨e₁, hreads, hleft.quiet⟩

/-- **A step of the network, seen from one token.**  Only an event of this connection reads. -/
theorem Step.goes {i : ℕ × Event} (hn : Given C t n) (hadmissible : n.Admissible i)
    (hcut : ∀ e, i.2 = .ready t e → e.writing.cut = none) (h : n.Step C i n')
    (hunwrapped : Unwrapped C n') :
    ∃ e₁, (e₁ = n.endAt t ∨ ∃ e, i.2 = .ready t e ∧ (n.endAt t).Step C (some e.reading.stream) e₁)
      ∧ Quiet C e₁ (n'.endAt t) := by
  by_cases habout : i.2.about = some t
  · obtain ⟨now, event⟩ := i
    cases event with
    | ready token e =>
      obtain rfl : token = t := Option.some.inj habout
      unfold Step step at h
      dsimp only at h
      split at h
      · -- the server socket
        cases h
        exact ⟨_, Or.inl rfl, .refl⟩
      · obtain ⟨e₁, hreads, hquiet⟩ :=
          ready_end (n := { n with now }) (hcut e rfl) hn.tidy (of_decide_eq_true hadmissible.2) h
        refine ⟨e₁, ?_, hquiet⟩
        rcases hreads with rfl | hstep
        · exact Or.inl rfl
        · exact Or.inr ⟨e, rfl, hstep⟩
    | _ => cases habout
  · refine ⟨n.endAt t, Or.inl rfl, Left.quiet ?_⟩
    have hgiven : Given C t { n with now := i.1 } := ⟨hn.tidy, hn.counted, hn.given⟩
    exact Moves.left (n := { n with now := i.1 }) hgiven habout (Step.moves hadmissible h) hunwrapped

/-- Connections are counted upwards. -/
theorem Step.opened_le {i : ℕ × Event} (hadmissible : n.Admissible i) (h : n.Step C i n') :
    n.opened ≤ n'.opened :=
  (Step.moves hadmissible h).invariant (I := fun m => n.opened ≤ m.opened) (le_refl _)
    fun _ _ _ hm _ ha => hm.trans (Act.opened_le ha)

end Network

/-! ## Two networks -/

/-- A network that has opened a connection and one that has accepted it, with their tokens of it. -/
structure Pair where
  client : Network
  server : Network

namespace Pair

/-- Which network takes a step, and at what instant. -/
inductive Turn where
  | client (i : ℕ × Network.Event)
  | server (i : ℕ × Network.Event)

/-- The steps of two networks that know nothing of each other. -/
def Step (A B : Config) (p : Pair) (turn : Turn) (p' : Pair) : Prop :=
  match turn with
  | .client i => p.client.Step A i p'.client ∧ p'.server = p.server
  | .server i => p.server.Step B i p'.server ∧ p'.client = p.client

variable (t t' : ℕ)

/-- The connection of the two tokens. -/
def connection (p : Pair) : Connection := ⟨p.client.endAt t, p.server.endAt t'⟩

/-- **The contract of the poll and of the connection**: what is read from the connection is a part of
what the other network has written to it, and what is written to it is written whole. -/
def Admissible (p : Pair) (turn : Turn) : Prop :=
  match turn with
  | .client i => p.client.Admissible i ∧ ∀ e, i.2 = .ready t e → e.writing.cut = none
      ∧ (p.connection t t').Delivers (.client (some e.reading.stream))
  | .server i => p.server.Admissible i ∧ ∀ e, i.2 = .ready t' e → e.writing.cut = none
      ∧ (p.connection t t').Delivers (.server (some e.reading.stream))

variable {A B : Config} {t t'} {p p' p₀ : Pair}

/-- The two connections have been given their tokens. -/
structure Holds (A B : Config) (t t' : ℕ) (p : Pair) : Prop where
  client : p.client.Given A t
  server : p.server.Given B t'

/-- No counter of tokens has come round. -/
structure Unwrapped (A B : Config) (p : Pair) : Prop where
  client : p.client.Unwrapped A
  server : p.server.Unwrapped B

/-- If no counter has wrapped by now, none had before. -/
theorem Step.unwrapped {turn : Turn} (hadmissible : p.Admissible t t' turn) (h : p.Step A B turn p')
    (hunwrapped : p'.Unwrapped A B) : p.Unwrapped A B := by
  cases turn with
  | client i =>
    exact ⟨hunwrapped.client.of_le (h.1.opened_le hadmissible.1), h.2 ▸ hunwrapped.server⟩
  | server i =>
    exact ⟨h.2 ▸ hunwrapped.client, hunwrapped.server.of_le (h.1.opened_le hadmissible.1)⟩

/-- The quiet steps of the client are steps of the connection. -/
theorem quiet_client {e e' : End} (h : Network.Quiet A e e') (server : End) :
    Run (Connection.Step A B) Connection.Delivers ⟨e, server⟩ ⟨e', server⟩ := by
  induction h with
  | refl => exact .refl _
  | tail _ hstep ih =>
    refine ih.tail (a := .client none) ?_ ⟨hstep, rfl⟩
    intro stream hstream
    cases hstream

/-- What an end does on its own is a run of the connection. -/
theorem quiet_server {e e' : End} (h : Network.Quiet B e e') (client : End) :
    Run (Connection.Step A B) Connection.Delivers ⟨client, e⟩ ⟨client, e'⟩ := by
  induction h with
  | refl => exact .refl _
  | tail _ hstep ih =>
    refine ih.tail (a := .server none) ?_ ⟨hstep, rfl⟩
    intro stream hstream
    cases hstream

/-- **A step of the two networks is a few steps of their connection.** -/
theorem Step.connection {turn : Turn} (hp : p.Holds A B t t') (hadmissible : p.Admissible t t' turn)
    (h : p.Step A B turn p') (hunwrapped : p'.Unwrapped A B) :
    Run (Connection.Step A B) Connection.Delivers (p.connection t t') (p'.connection t t') := by
  cases turn with
  | client i =>
    obtain ⟨hpoll, hcontract⟩ := hadmissible
    obtain ⟨hstep, hserver⟩ := h
    obtain ⟨e, hreads, hquiet⟩ :=
      hstep.goes hp.client hpoll (fun e he => (hcontract e he).1) hunwrapped.client
    have hrest := quiet_client (B := B) hquiet (p'.server.endAt t')
    refine Run.trans ?_ hrest
    rw [hserver]
    rcases hreads with rfl | ⟨r, hready, hread⟩
    · exact .refl _
    · exact Run.single (a := .client (some r.reading.stream)) (hcontract r hready).2 ⟨hread, rfl⟩
  | server i =>
    obtain ⟨hpoll, hcontract⟩ := hadmissible
    obtain ⟨hstep, hclient⟩ := h
    obtain ⟨e, hreads, hquiet⟩ :=
      hstep.goes hp.server hpoll (fun e he => (hcontract e he).1) hunwrapped.server
    have hrest := quiet_server (A := A) hquiet (p'.client.endAt t)
    refine Run.trans ?_ hrest
    rw [hclient]
    rcases hreads with rfl | ⟨r, hready, hread⟩
    · exact .refl _
    · exact Run.single (a := .server (some r.reading.stream)) (hcontract r hready).2 ⟨hread, rfl⟩

/-- One turn keeps what holds of the pair. -/
theorem Holds.step {turn : Turn} (hp : p.Holds A B t t') (hadmissible : p.Admissible t t' turn)
    (h : p.Step A B turn p') : p'.Holds A B t t' := by
  have hkeeps : ∀ {C : Config} {n n' : Network} {i : ℕ × Network.Event} {t : ℕ}, n.Given C t →
      n.Admissible i → n.Step C i n' → n'.Given C t := by
    intro C n n' i t hn hpoll hstep
    have hgiven : Network.Given C t { n with now := i.1 } := ⟨hn.tidy, hn.counted, hn.given⟩
    exact hgiven.moves (Network.Step.moves hpoll hstep)
  cases turn with
  | client i => exact ⟨hkeeps hp.client hadmissible.1 h.1, h.2 ▸ hp.server⟩
  | server i => exact ⟨h.2 ▸ hp.client, hkeeps hp.server hadmissible.1 h.1⟩

/-- **Two networks refine their connection**, as long as no token is handed out twice. -/
theorem run_connection (hp : p₀.Holds A B t t') (run : Run (Step A B) (Admissible t t') p₀ p)
    (hunwrapped : p.Unwrapped A B) :
    Run (Connection.Step A B) Connection.Delivers (p₀.connection t t') (p.connection t t') := by
  have hinv : p.Holds A B t t' ∧ (p.Unwrapped A B → Run (Connection.Step A B) Connection.Delivers
      (p₀.connection t t') (p.connection t t')) := by
    refine run.invariant (I := fun p => p.Holds A B t t' ∧ (p.Unwrapped A B →
      Run (Connection.Step A B) Connection.Delivers (p₀.connection t t') (p.connection t t')))
      ⟨hp, fun _ => .refl _⟩ ?_
    rintro q turn q' ⟨hq, hrun⟩ hadmissible hstep
    exact ⟨hq.step hadmissible hstep, fun hunwrapped' =>
      (hrun (Step.unwrapped hadmissible hstep hunwrapped')).trans
        (Step.connection hq hadmissible hstep hunwrapped')⟩
  exact hinv.2 hunwrapped

/-- If no counter has wrapped at the end of a run, none had before. -/
theorem run_unwrapped (run : Run (Step A B) (Admissible t t') p₀ p) (hunwrapped : p.Unwrapped A B) :
    p₀.Unwrapped A B :=
  run.invariant (I := fun p => p.Unwrapped A B → p₀.Unwrapped A B) id
    (fun _ _ _ hq hadmissible hstep hunwrapped' => hq (Step.unwrapped hadmissible hstep hunwrapped'))
    hunwrapped

/-- The token of a connection that is there has been handed out. -/
theorem given_of_stage {C : Config} {n : Network} {start : ℕ} {myId : String} {node : Node}
    (h : Run (Network.Step C) Network.Admissible (Network.new start myId node) n)
    (hunwrapped : n.Unwrapped C) {t : ℕ} (hstage : (n.endAt t).stage ≠ none) : n.Given C t := by
  obtain ⟨hcounted, hbelow⟩ := Network.run_counted h
  refine ⟨Network.run_allTidy h, hcounted, ?_⟩
  cases hpeer : n.table.getPeer t with
  | none =>
    unfold Network.endAt at hstage
    rw [hpeer] at hstage
    exact absurd rfl hstage
  | some peer =>
    have hlt := (hbelow hunwrapped _ (Peers.mem_of_getPeer hpeer)).2
    rw [hcounted hunwrapped] at hlt
    exact Nat.le_of_lt_succ hlt

/-- **Two nodes hear each other.**  One node has opened a connection and another one has accepted it.
From then on the two networks do whatever they do, in any order, and what is written to the
connection arrives in any pieces and at any time.  As long as the messages that are said there fit
their frames and no counter of tokens comes round, each of them has heard, on this connection, the
first of the messages that the other one has said there, in this order and unchanged; and the ciphers
of both sides are the same. -/
theorem run_faithful (hshares : Connection.SharesKey A B) {start start' : ℕ} {myId myId' : String}
    {node node' : Node}
    (hclient : Run (Network.Step A) Network.Admissible (Network.new start myId node) p₀.client)
    (hserver : Run (Network.Step B) Network.Admissible (Network.new start' myId' node') p₀.server)
    (hopened : p₀.client.endAt t = .opened) (haccepted : p₀.server.endAt t' = .accepted)
    (run : Run (Step A B) (Admissible t t') p₀ p) (hunwrapped : p.Unwrapped A B)
    (hfits : (p.connection t t').Fits) : (p.connection t t').Faithful := by
  have hunwrapped₀ := run_unwrapped run hunwrapped
  have hp : p₀.Holds A B t t' := by
    refine ⟨given_of_stage hclient hunwrapped₀.client ?_, given_of_stage hserver hunwrapped₀.server ?_⟩
    · rw [hopened]
      simp [End.opened]
    · rw [haccepted]
      simp [End.accepted]
  have hmade : p₀.connection t t' = Connection.made := by
    unfold connection Connection.made
    rw [hopened, haccepted]
  refine Connection.run_faithfulEnds hshares ?_ hfits
  rw [← hmade]
  exact run_connection hp run hunwrapped

end Pair

/-! ### Two nodes greet each other -/

namespace Sample

/-- A cipher that changes every byte of a message by the key. -/
def maskedCipher (mask : UInt8) : Cipher where
  encrypt m := lengthCipher.encrypt (m.map (· ^^^ mask))
  decrypt c := (lengthCipher.decrypt c).map fun m => m.map (· ^^^ mask)
  encrypt_isSome m h := lengthCipher.encrypt_isSome _ (by rwa [List.length_map])
  length_encrypt m c h := by
    rw [lengthCipher.length_encrypt _ _ h, List.length_map]
  decrypt_encrypt m c h := by
    rw [lengthCipher.decrypt_encrypt _ _ h, Option.map_some, List.map_map]
    congr 1
    conv_rhs => rw [← List.map_id m]
    refine List.map_congr_left fun b _ => ?_
    show b ^^^ mask ^^^ mask = b
    rw [UInt8.xor_assoc, UInt8.xor_self, UInt8.xor_zero]

/-- A node with a secret.  Its key is a multiple of it, and so is the key that it shares. -/
def keyedConfig (secret : UInt8) : Config :=
  { Network.plainConfig with
    publicKey := Vector.replicate 32 (3 * secret)
    chacha := fun key nonce => ⟨maskedCipher (secret * key.get 0), nonce⟩
    nonce_chacha := fun _ _ => rfl }

end Sample

namespace Pair

/-- A turn in which all bytes are read that have arrived, or something is written. -/
inductive Move where
  | clientReads | clientWrites | serverReads | serverWrites

/-- Turns at the instant 1. -/
def Move.turn (t t' : ℕ) (p : Pair) : Move → Turn
  | .clientReads => .client (1, .ready t
      (Network.canRead ((p.server.endAt t').sent.drop (p.client.endAt t).taken)))
  | .clientWrites => .client (1, .ready t Network.canWrite)
  | .serverReads => .server (1, .ready t'
      (Network.canRead ((p.client.endAt t).sent.drop (p.server.endAt t').taken)))
  | .serverWrites => .server (1, .ready t' Network.canWrite)

/-- These turns, as long as the poll reports them. -/
def play (A B : Config) (t t' : ℕ) : List Move → Pair → Exec Pair
  | [], p => .ok p
  | move :: moves, p =>
    match move.turn t t' p with
    | .client i =>
      if p.client.Admissible i then do
        let client ← { p.client with now := i.1 }.step A i.1 i.2
        play A B t t' moves { p with client }
      else .error .unfinished
    | .server i =>
      if p.server.Admissible i then do
        let server ← { p.server with now := i.1 }.step B i.1 i.2
        play A B t t' moves { p with server }
      else .error .unfinished

/-- All bytes are there to be read. -/
theorem items_canRead (bytes : List UInt8) :
    (Network.canRead bytes).reading.stream.items = bytes := Transport.items_bytewise bytes

/-- What is read has been written. -/
theorem Move.delivers_client {t t' : ℕ} {p : Pair} {move : Move} {i : ℕ × Network.Event}
    (h : move.turn t t' p = .client i) (e : Readiness) (he : i.2 = .ready t e) :
    e.writing.cut = none ∧ (p.connection t t').Delivers (.client (some e.reading.stream)) := by
  have hitems : e.writing.cut = none ∧ e.reading.stream.items <+: (p.server.endAt t').sent.drop (p.client.endAt t).taken := by
    cases move with
    | clientReads =>
      cases h
      cases he
      rw [items_canRead]
      exact ⟨rfl, List.prefix_refl _⟩
    | clientWrites =>
      cases h
      cases he
      exact ⟨rfl, List.nil_prefix⟩
    | _ => cases h
  refine ⟨hitems.1, fun stream hstream => ?_⟩
  cases hstream
  exact hitems.2

/-- What the server is given is what the client has sent. -/
theorem Move.delivers_server {t t' : ℕ} {p : Pair} {move : Move} {i : ℕ × Network.Event}
    (h : move.turn t t' p = .server i) (e : Readiness) (he : i.2 = .ready t' e) :
    e.writing.cut = none ∧ (p.connection t t').Delivers (.server (some e.reading.stream)) := by
  have hitems : e.writing.cut = none ∧ e.reading.stream.items <+: (p.client.endAt t).sent.drop (p.server.endAt t').taken := by
    cases move with
    | serverReads =>
      cases h
      cases he
      rw [items_canRead]
      exact ⟨rfl, List.prefix_refl _⟩
    | serverWrites =>
      cases h
      cases he
      exact ⟨rfl, List.nil_prefix⟩
    | _ => cases h
  refine ⟨hitems.1, fun stream hstream => ?_⟩
  cases hstream
  exact hitems.2

/-- A list of moves that is played is a run. -/
theorem play_run {A B : Config} {t t' : ℕ} {moves : List Move} {p p' : Pair}
    (h : play A B t t' moves p = .ok p') : Run (Step A B) (Admissible t t') p p' := by
  induction moves generalizing p with
  | nil => exact Except.ok.inj h ▸ .refl _
  | cons move moves ih =>
    unfold play at h
    cases hturn : move.turn t t' p with
    | client i =>
      rw [hturn] at h
      dsimp only at h
      split at h
      · rename_i hpoll
        obtain ⟨client, hstep, h⟩ := bind_eq_ok.mp h
        refine (Run.single (a := .client i) ⟨hpoll, ?_⟩ ⟨hstep, rfl⟩).trans (ih h)
        exact Move.delivers_client hturn
      · cases h
    | server i =>
      rw [hturn] at h
      dsimp only at h
      split at h
      · rename_i hpoll
        obtain ⟨server, hstep, h⟩ := bind_eq_ok.mp h
        refine (Run.single (a := .server i) ⟨hpoll, ?_⟩ ⟨hstep, rfl⟩).trans (ih h)
        exact Move.delivers_server hturn
      · cases h

/-- A fresh outgoing connection. -/
theorem endAt_opened {n : Network} {t : ℕ}
    (hstate : (n.table.getPeer t).map Peer.state = some .connecting) (htraffic : n.traffic.length = 0) :
    n.endAt t = .opened := by
  obtain ⟨peer, hpeer, hstate⟩ := Option.map_eq_some_iff.mp hstate
  unfold Network.endAt Network.phase
  rw [List.length_eq_zero_iff.mp htraffic, hpeer, Option.bind_some, hstate]
  rfl

/-- A fresh incoming connection. -/
theorem endAt_accepted {n : Network} {t since : ℕ}
    (hstate : (n.table.getPeer t).map Peer.state = some (.connected since))
    (htraffic : n.traffic.length = 0) : n.endAt t = .accepted := by
  obtain ⟨peer, hpeer, hstate⟩ := Option.map_eq_some_iff.mp hstate
  unfold Network.endAt Network.phase
  rw [List.length_eq_zero_iff.mp htraffic, hpeer, Option.bind_some, hstate]
  rfl

/-- Both handshakes, a `Hand` and the `Shake` that answers it. -/
def greetings : List Move :=
  [.clientWrites, .serverReads, .serverWrites, .clientReads, .clientWrites, .serverReads,
    .serverWrites, .clientReads]

/-- Two nodes greet each other, and each hears what the other one says. -/
theorem run_faithful_greetings : ∃ p : Pair, (p.client.endAt 1).heard.length = 1
    ∧ (p.server.endAt 1).heard.length = 1 ∧ (p.connection 1 1).Faithful := by
  have hrun : ∃ client, Network.play (Sample.keyedConfig 5)
        [(0, .connectPeers [[Network.guestAddr]] fun _ => true)]
        (.new 0 "abcdef" (Node.fresh Sample.genesis.hash)) = .ok client
      ∧ ∃ server, Network.play (Sample.keyedConfig 7) [(0, .accept Network.guestAddr)]
        (.new 0 "ghijkl" (Node.fresh Sample.genesis.hash)) = .ok server
      ∧ ∃ p, play (Sample.keyedConfig 5) (Sample.keyedConfig 7) 1 1 greetings ⟨client, server⟩ = .ok p
      ∧ (client.table.getPeer 1).map Peer.state = some .connecting ∧ client.traffic.length = 0
      ∧ (server.table.getPeer 1).map Peer.state = some (.connected 0) ∧ server.traffic.length = 0
      ∧ (p.client.endAt 1).heard.length = 1 ∧ (p.server.endAt 1).heard.length = 1
      ∧ (∀ data ∈ (p.client.endAt 1).said, data.length + 16 < 2 ^ 16)
      ∧ ∀ data ∈ (p.server.endAt 1).said, data.length + 16 < 2 ^ 16 := by
    decide +kernel
  obtain ⟨client, hclient, server, hserver, p, hp, hconnecting, hsilent, hconnected, hsilent', hheard,
    hheard', hfits, hfits'⟩ := hrun
  have hshares : Connection.SharesKey (Sample.keyedConfig 5) (Sample.keyedConfig 7) := by
    intro nonce
    rfl
  exact ⟨p, hheard, hheard', run_faithful hshares (Network.play_run hclient)
    (Network.play_run hserver) (endAt_opened hconnecting hsilent)
    (endAt_accepted hconnected hsilent') (play_run hp) ⟨Or.inl rfl, Or.inl rfl⟩ ⟨hfits, hfits'⟩⟩

end Pair

end P2p
