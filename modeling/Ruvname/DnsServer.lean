/-
# The DNS server

`dns/server.rs`: how a query is executed, and the workers of the TCP server.  The resolver is not
part of this: it is a parameter, on a state of its own.  A worker receives connections one after the
other; on its way through a connection every error makes it return, and no other thread takes its
place.  So the workers are all back at their receive step exactly when each connection so far has
been served to its end (`DnsTcpServer.all_receiving_iff`).

What a client does is which bytes it sends before it stops, and whether the socket still accepts what
is written; a client that keeps the connection open and sends nothing, so that the worker waits for
it, is not modelled.
-/
import Ruvname.BufferAgreement
import Ruvname.SectionCounts

open PacketBuffer

/-! ## Executing a query -/

namespace DnsRecord

/-- The host of a CNAME record. -/
def cnameHost? : DnsRecord → Option String
  | cname _ host _ => some host
  | _ => none

/-- The host of a CNAME or SRV record. -/
def targetHost? : DnsRecord → Option String
  | cname _ host _ => some host
  | srv _ _ _ _ host _ => some host
  | _ => none

/-- An address record of the type that is asked for. -/
def addressDomain? : QueryType → DnsRecord → Option String
  | .a, a domain _ _ => some domain
  | .aaaa, aaaa domain _ _ => some domain
  | _, _ => none

end DnsRecord

/-- `get_unresolved_cnames`: the CNAME answers to whose host there is no address. -/
def DnsPacket.getUnresolvedCnames (packet : DnsPacket) (qtype : QueryType) : List DnsRecord :=
  packet.answers.filter fun answer =>
    match answer.cnameHost? with
    | some host => ¬ packet.answers.any fun answer2 => answer2.addressDomain? qtype = some host
    | none => false

/-- A record that is not there yet. -/
def pushNew (recs : List DnsRecord) (rec : DnsRecord) : List DnsRecord :=
  if rec ∈ recs then recs else recs ++ [rec]

section

variable {σ : Type}

/-- `DnsResolver::resolve`: a packet, or an error. -/
abbrev Resolve (σ : Type) := String → QueryType → Bool → StateT σ Exec (Option DnsPacket)

/-- `resolve_cnames`; the first number is how much deeper it may go, 11 less the depth. -/
def resolveCnames (resolve : Resolve σ) (qtype : QueryType) :
    ℕ → List DnsRecord → List DnsPacket → StateT σ Exec (List DnsPacket)
  | 0, _, results => pure results
  | levels + 1, lookupList, results =>
    lookupList.foldlM (fun results rec =>
      match rec.targetHost? with
      | none => pure results
      | some host => do
        match ← resolve host qtype true with
        | none => pure results
        | some result2 =>
          resolveCnames resolve qtype levels (result2.getUnresolvedCnames qtype)
            (results ++ [result2])) results

/-- `execute_query`. -/
def executeQuery (allowRecursive : Bool) (resolve : Resolve σ) (request : DnsPacket) :
    StateT σ Exec DnsPacket :=
  let header : DnsHeader :=
    { id := request.header.id
      recursionAvailable := allowRecursive
      recursionDesired := request.header.recursionDesired
      response := true }
  if request.header.recursionDesired && !allowRecursive then
    pure { header := { header with rescode := .refused } }
  else
    match request.questions with
    | [] => pure { header := { header with rescode := .formerr } }
    | question :: _ => do
      match ← resolve question.name question.qtype request.header.recursionDesired with
      | none => pure { header := { header with rescode := .servfail }, questions := [question] }
      | some result => do
        let results ← resolveCnames resolve question.qtype 11
          (result.getUnresolvedCnames question.qtype) [result]
        pure
          { header := { header with
              rescode := result.header.rescode
              authoritativeAnswer := result.header.authoritativeAnswer }
            questions := [question]
            answers := (results.flatMap DnsPacket.answers).foldl pushNew []
            authorities := (results.flatMap DnsPacket.authorities).foldl pushNew []
            resources := (results.flatMap DnsPacket.resources).foldl pushNew [] }

/-- The counts of a response are left to `DnsPacket::write`. -/
theorem zeroCounts_executeQuery {allowRecursive : Bool} {resolve : Resolve σ} {request packet : DnsPacket}
    {s t : σ} (h : executeQuery allowRecursive resolve request s = .ok (packet, t)) :
    packet.ZeroCounts := by
  unfold executeQuery at h
  split_ifs at h
  · cases h
    exact ⟨rfl, rfl, rfl⟩
  · cases hquestions : request.questions with
    | nil =>
      rw [hquestions] at h
      cases h
      exact ⟨rfl, rfl, rfl⟩
    | cons question rest =>
      rw [hquestions] at h
      obtain ⟨⟨first, u⟩, hfirst, h⟩ := Exec.bind_eq_ok.mp h
      cases first with
      | none =>
        cases h
        exact ⟨rfl, rfl, rfl⟩
      | some result =>
        obtain ⟨⟨results, v⟩, hresults, h⟩ := Exec.bind_eq_ok.mp h
        cases h
        exact ⟨rfl, rfl, rfl⟩

end

/-! ## A connection -/

/-- What a worker meets with on a connection. -/
structure Connection (σ : Type) where
  /-- What the client sends before it closes or breaks off. -/
  bytes : List UInt8
  /-- What the resolver finds. -/
  world : σ
  /-- Whether the two bytes of the length, the response and the shutdown succeed. -/
  lengthSent : Bool
  responseSent : Bool
  shutdownDone : Bool

namespace DnsTcpServer

variable {σ : Type} (U : Unicode) (checks allowRecursive : Bool) (resolve : Resolve σ)

/-- `read_packet_length` on the bytes that are left. -/
def readPacketLength : Procedure (List UInt8) BufferError UInt16 := .act fun bytes =>
  match bytes with
  | x :: y :: rest => .ok (.ok ((x.toUInt16 <<< 8) ||| y.toUInt16, rest))
  | _ => .ok (.error .io)

/-- An operation on the socket. -/
def socketOp (succeeds : Bool) : Procedure (List UInt8) BufferError Unit :=
  if succeeds then pure () else .fail .io

/-- The body of a worker's loop, from the receive step to the next: an error is `return`. -/
def serve (c : Connection σ) : Procedure (List UInt8) BufferError Unit := do
  let _len ← readPacketLength
  let bytes ← Procedure.gets id
  let request ← Procedure.on ({ stream := bytes } : StreamPacketBuffer)
    (DnsPacket.fromBuffer U checks)
  let answered ← Procedure.exec (executeQuery allowRecursive resolve request c.world)
  let resBuffer ← Procedure.on ({} : VectorPacketBuffer) do
    let _packet ← answered.1.write checks 0xffff
    Procedure.gets id
  let len := pos resBuffer
  socketOp c.lengthSent
  let _data ← Procedure.on resBuffer (getRange 0 len)
  socketOp c.responseSent
  socketOp c.shutdownDone

/-- The connection is served to its end. -/
def Served (c : Connection σ) : Prop :=
  ∃ rest, (serve U checks allowRecursive resolve c).Yields c.bytes () rest

/-- Behind two bytes there is a message, an answer to it is found that can be counted, and the
socket accepts everything. -/
structure Proper (c : Connection σ) : Prop where
  two_le : 2 ≤ c.bytes.length
  answered : ∃ request q, PacketAt U checks 0 (c.bytes.drop 2) 0 request q ∧
    ∃ response t, executeQuery allowRecursive resolve request c.world = .ok (response, t) ∧
      (checks = true → response.Countable (response.kept 0xffff))
  lengthSent : c.lengthSent = true
  responseSent : c.responseSent = true
  shutdownDone : c.shutdownDone = true

variable {U checks allowRecursive resolve}

theorem yields_readPacketLength {bytes rest : List UInt8} {len : UInt16} :
    readPacketLength.Yields bytes len rest ↔
      ∃ x y, bytes = x :: y :: rest ∧ len = (x.toUInt16 <<< 8) ||| y.toUInt16 := by
  rw [readPacketLength, Procedure.yields_act]
  cases bytes with
  | nil => simp
  | cons x bytes =>
    cases bytes with
    | nil => simp
    | cons y bytes =>
      simp only [Except.ok.injEq, Prod.mk.injEq, List.cons.injEq]
      constructor
      · rintro ⟨rfl, rfl⟩
        exact ⟨x, y, ⟨rfl, rfl, rfl⟩, rfl⟩
      · rintro ⟨_, _, ⟨rfl, rfl, rfl⟩, rfl⟩
        exact ⟨rfl, rfl⟩

theorem yields_socketOp {succeeds : Bool} {bytes rest : List UInt8} :
    (socketOp succeeds).Yields bytes () rest ↔ succeeds = true ∧ rest = bytes := by
  cases succeeds with
  | false => simp [socketOp]
  | true => simp [socketOp]

/-- The response is written to the vector. -/
theorem exists_yields_response {packet : DnsPacket} (hzero : packet.ZeroCounts)
    {b : VectorPacketBuffer} :
    (∃ t, (packet.write checks 0xffff >>= fun _ => Procedure.gets id).Yields
      ({} : VectorPacketBuffer) b t) ↔
      (checks = true → packet.Countable (packet.kept 0xffff)) ∧
        b = VectorPacketBuffer.append {} (packet.encoder 0xffff) := by
  constructor
  · rintro ⟨t, ht⟩
    obtain ⟨_, u, hwrite, hgets⟩ := Procedure.yields_bind.mp ht
    obtain ⟨⟨_, _⟩, _, htraced, hpure⟩ := Procedure.yields_bind.mp hwrite
    obtain ⟨-, rfl⟩ := Procedure.yields_pure.mp hpure
    obtain ⟨rfl, -⟩ := Procedure.yields_gets.mp hgets
    obtain ⟨hcountable, -, -, hbuffer⟩ := (DnsPacket.yields_writeTraced_iff hzero).mp htraced
    exact ⟨hcountable, hbuffer⟩
  · rintro ⟨hcountable, rfl⟩
    refine ⟨_, Procedure.yields_bind.mpr ⟨_, _, Procedure.yields_bind.mpr ⟨_, _,
      (DnsPacket.yields_writeTraced_iff hzero).mpr ⟨hcountable, rfl, rfl, rfl⟩,
      Procedure.yields_pure.mpr ⟨rfl, rfl⟩⟩, Procedure.yields_gets.mpr ⟨rfl, rfl⟩⟩⟩

/-- All that has been written can be got as a range. -/
theorem yields_getRange_all {b : VectorPacketBuffer} (hb : b.AtEnd) :
    (getRange 0 (pos b)).Yields b b.buffer b := by
  refine Procedure.yields_act.mpr ?_
  have hslice : sliceBytes b.buffer 0 (pos b) = .ok b.buffer := by
    show sliceBytes b.buffer 0 b.pos = _
    rw [show b.pos = b.buffer.length from hb, sliceBytes, if_pos (Nat.zero_add _).le, List.drop_zero,
      List.take_length]
  rw [hslice]
  rfl

/-- **A connection is served to its end** exactly when it is a proper one. -/
theorem served_iff (c : Connection σ) :
    Served U checks allowRecursive resolve c ↔ Proper U checks allowRecursive resolve c := by
  constructor
  · rintro ⟨rest, h₀⟩
    obtain ⟨_, bytes, hlen, h₁⟩ := Procedure.yields_bind.mp h₀
    obtain ⟨x, y, hbytes, -⟩ := yields_readPacketLength.mp hlen
    obtain ⟨_, _, hgets, h₂⟩ := Procedure.yields_bind.mp h₁
    obtain ⟨rfl, rfl⟩ := Procedure.yields_gets.mp hgets
    obtain ⟨request, _, hrequest, h₃⟩ := Procedure.yields_bind.mp h₂
    obtain ⟨hread, rfl⟩ := Procedure.yields_on.mp hrequest
    obtain ⟨q, hpacket⟩ := DnsPacket.readFromStream_iff.mp hread
    obtain ⟨⟨response, t⟩, _, hexec, h₄⟩ := Procedure.yields_bind.mp h₃
    obtain ⟨hanswer, rfl⟩ := Procedure.yields_exec.mp hexec
    obtain ⟨b, _, hwrite, h₅⟩ := Procedure.yields_bind.mp h₄
    obtain ⟨hresponse, rfl⟩ := Procedure.yields_on.mp hwrite
    obtain ⟨hcountable, -⟩ := (exists_yields_response (zeroCounts_executeQuery hanswer)).mp hresponse
    -- what is left are the three operations on the socket
    obtain ⟨_, _, hlength, h₆⟩ := Procedure.yields_bind.mp h₅
    obtain ⟨_, _, -, h₇⟩ := Procedure.yields_bind.mp h₆
    obtain ⟨_, _, hdata, hshutdown⟩ := Procedure.yields_bind.mp h₇
    refine ⟨by rw [hbytes]; simp, ⟨request, q, ?_, response, t, hanswer, hcountable⟩,
      (yields_socketOp.mp hlength).1, (yields_socketOp.mp hdata).1, (yields_socketOp.mp hshutdown).1⟩
    rw [hbytes]
    exact hpacket
  · rintro ⟨htwo, ⟨request, q, hpacket, response, t, hanswer, hcountable⟩, hlength, hdata, hshutdown⟩
    obtain ⟨x, y, rest, hbytes⟩ : ∃ x y rest, c.bytes = x :: y :: rest := by
      match c.bytes, htwo with
      | x :: y :: rest, _ => exact ⟨x, y, rest, rfl⟩
    rw [hbytes] at hpacket
    have hread := DnsPacket.readFromStream_iff.mpr ⟨q, hpacket⟩
    have hresponse := (exists_yields_response (zeroCounts_executeQuery hanswer)).mpr
      ⟨hcountable, rfl⟩
    have hrange := yields_getRange_all (DnsPacket.atEnd_empty.append (response.encoder 0xffff))
    refine ⟨rest, ?_⟩
    rw [hbytes]
    refine Procedure.yields_bind.mpr ⟨_, rest, yields_readPacketLength.mpr ⟨x, y, rfl, rfl⟩, ?_⟩
    refine Procedure.yields_bind.mpr ⟨_, rest, Procedure.yields_gets.mpr ⟨rfl, rfl⟩, ?_⟩
    refine Procedure.yields_bind.mpr ⟨request, rest, Procedure.yields_on.mpr ⟨hread, rfl⟩, ?_⟩
    refine Procedure.yields_bind.mpr ⟨_, rest, Procedure.yields_exec.mpr ⟨hanswer, rfl⟩, ?_⟩
    refine Procedure.yields_bind.mpr ⟨_, rest, Procedure.yields_on.mpr ⟨hresponse, rfl⟩, ?_⟩
    refine Procedure.yields_bind.mpr ⟨(), rest, yields_socketOp.mpr ⟨hlength, rfl⟩, ?_⟩
    refine Procedure.yields_bind.mpr ⟨_, rest, Procedure.yields_on.mpr ⟨⟨_, hrange⟩, rfl⟩, ?_⟩
    refine Procedure.yields_bind.mpr ⟨(), rest, yields_socketOp.mpr ⟨hdata, rfl⟩, ?_⟩
    exact yields_socketOp.mpr ⟨hshutdown, rfl⟩

/-! ## The pool -/

/-- What has become of a worker: it is at its receive step, its closure has returned, it has stopped
with a fault, or it never comes to the end of a connection. -/
inductive Worker where
  | receiving
  | returned
  | panicked
  | busy
  deriving DecidableEq, Repr

section

variable (U checks allowRecursive resolve)

/-- What becomes of a worker that has received a connection. -/
inductive Serves (c : Connection σ) : Worker → Prop
  | back (h : Served U checks allowRecursive resolve c) : Serves c .receiving
  | reported {n : ℕ} {e : BufferError}
      (h : (serve U checks allowRecursive resolve c).run n c.bytes = .ok (.error e)) :
      Serves c .returned
  | panicked {n : ℕ} {fault : Fault} (hfault : fault ≠ .unfinished)
      (h : (serve U checks allowRecursive resolve c).run n c.bytes = .error fault) :
      Serves c .panicked
  | endless (h : ¬ (serve U checks allowRecursive resolve c).Halts c.bytes) : Serves c .busy

/-- The workers after connections have been handed to them, the latest first.  A connection that is
handed to a worker that does not receive is lost. -/
inductive Reaches {threadCount : ℕ} :
    List (Fin threadCount × Connection σ) → (Fin threadCount → Worker) → Prop
  | start : Reaches [] fun _ => .receiving
  | received {run : List (Fin threadCount × Connection σ)} {pool : Fin threadCount → Worker}
      {i : Fin threadCount} {c : Connection σ} {w : Worker} (h : Reaches run pool)
      (hi : pool i = .receiving) (hw : Serves U checks allowRecursive resolve c w) :
      Reaches ((i, c) :: run) (Function.update pool i w)
  | lost {run : List (Fin threadCount × Connection σ)} {pool : Fin threadCount → Worker}
      {i : Fin threadCount} {c : Connection σ} (h : Reaches run pool)
      (hi : pool i ≠ .receiving) : Reaches ((i, c) :: run) pool

end

/-- Something becomes of a worker. -/
theorem exists_serves (c : Connection σ) : ∃ w, Serves U checks allowRecursive resolve c w := by
  by_cases hhalts : (serve U checks allowRecursive resolve c).Halts c.bytes
  · obtain ⟨n, hn⟩ := hhalts
    cases hrun : (serve U checks allowRecursive resolve c).run n c.bytes with
    | error fault => exact ⟨_, .panicked (fun h => hn (by rw [hrun, h])) hrun⟩
    | ok outcome =>
      cases outcome with
      | error e => exact ⟨_, .reported hrun⟩
      | ok r => exact ⟨_, .back ⟨r.2, n, hrun⟩⟩
  · exact ⟨_, .endless hhalts⟩

/-- A worker is back at its receive step after a proper connection, and after no other. -/
theorem Serves.receiving_iff {c : Connection σ} {w : Worker}
    (h : Serves U checks allowRecursive resolve c w) :
    w = .receiving ↔ Proper U checks allowRecursive resolve c := by
  rw [← served_iff]
  cases h with
  | back hserved => exact iff_of_true rfl hserved
  | @reported n e hrun =>
    refine iff_of_false (fun h => by cases h) ?_
    rintro ⟨rest, hserved⟩
    have heq := hserved.run_eq (n := n) (by rw [hrun]; simp)
    rw [hrun] at heq
    cases heq
  | @panicked n fault hfault hrun =>
    refine iff_of_false (fun h => by cases h) ?_
    rintro ⟨rest, hserved⟩
    have heq := hserved.run_eq (n := n) (by rw [hrun]; simpa using hfault)
    rw [hrun] at heq
    cases heq
  | endless hhalts =>
    refine iff_of_false (fun h => by cases h) ?_
    rintro ⟨rest, hserved⟩
    exact hhalts hserved.returns.halts

/-- Whatever is handed to whom, the workers come to some state. -/
theorem exists_reaches {threadCount : ℕ} (run : List (Fin threadCount × Connection σ)) :
    ∃ pool, Reaches U checks allowRecursive resolve run pool := by
  induction run with
  | nil => exact ⟨_, .start⟩
  | cons handed run ih =>
    obtain ⟨i, c⟩ := handed
    obtain ⟨pool, hpool⟩ := ih
    by_cases hi : pool i = .receiving
    · obtain ⟨w, hw⟩ := exists_serves (U := U) c
      exact ⟨_, hpool.received hi hw⟩
    · exact ⟨pool, hpool.lost hi⟩

/-- **The pool of workers** is complete as long as every connection has been a proper one, and no
longer. -/
theorem all_receiving_iff (U : Unicode) (checks allowRecursive : Bool) (resolve : Resolve σ)
    {threadCount : ℕ} {run : List (Fin threadCount × Connection σ)} {pool : Fin threadCount → Worker}
    (h : Reaches U checks allowRecursive resolve run pool) :
    (∀ i, pool i = .receiving) ↔
      ∀ handed ∈ run, Proper U checks allowRecursive resolve handed.2 := by
  induction h with
  | start => simp
  | @received run pool i c w _ hi hw ih =>
    rw [List.forall_mem_cons, ← ih, ← hw.receiving_iff]
    constructor
    · intro hall
      refine ⟨?_, fun j => ?_⟩
      · have hself := hall i
        rwa [Function.update_self] at hself
      · by_cases hj : j = i
        · rw [hj, hi]
        · have hother := hall j
          rwa [Function.update_of_ne hj] at hother
    · rintro ⟨hw, hall⟩ j
      by_cases hj : j = i
      · rw [hj, Function.update_self, hw]
      · rw [Function.update_of_ne hj, hall j]
  | @lost run pool i c _ hi ih =>
    refine iff_of_false (fun hall => hi (hall i)) fun hproper => hi ?_
    exact ih.mpr (fun handed hmem => hproper handed (List.mem_cons_of_mem _ hmem)) i

/-- No name is found. -/
def resolveNothing : Resolve Unit := fun _ _ _ => pure none

/-- A query without questions, behind its length. -/
def emptyQuery : Connection Unit := ⟨0 :: 12 :: List.replicate 12 0, (), true, true, true⟩

/-- A client that closes the connection at once. -/
def earlyClose : Connection Unit := ⟨[], (), true, true, true⟩

theorem proper_emptyQuery : Proper .ascii true true resolveNothing emptyQuery where
  two_le := by decide
  answered := by
    have hheader : HeaderAt (List.replicate 12 0) 0 (.ofWords 0 0 0 0 0 0) :=
      ⟨0, 0, 0, 0, 0, 0, ⟨0, 0, rfl, rfl, rfl⟩, ⟨0, 0, rfl, rfl, rfl⟩, ⟨0, 0, rfl, rfl, rfl⟩,
        ⟨0, 0, rfl, rfl, rfl⟩, ⟨0, 0, rfl, rfl, rfl⟩, ⟨0, 0, rfl, rfl, rfl⟩, rfl⟩
    have hpacket : PacketAt .ascii true 0 (List.replicate 12 0) 0
        ⟨.ofWords 0 0 0 0 0 0, [], [], [], []⟩ 12 :=
      .mk hheader rfl rfl rfl rfl .nil .nil .nil .nil
    exact ⟨_, 12, hpacket, _, (), rfl, fun _ => ⟨by decide, by decide, by decide⟩⟩
  lengthSent := rfl
  responseSent := rfl
  shutdownDone := rfl

theorem all_receiving_emptyQuery :
    (∀ i, Function.update (fun _ : Fin 2 => Worker.receiving) 1 .receiving i = .receiving) ↔
      ∀ handed ∈ [((1 : Fin 2), emptyQuery)],
        Proper .ascii true true resolveNothing handed.2 :=
  all_receiving_iff .ascii true true resolveNothing
    (.received .start rfl (.back ((served_iff emptyQuery).mpr proper_emptyQuery)))

/-- One client that closes its connection at once is enough to end a worker. -/
theorem not_receiving_earlyClose :
    Reaches .ascii true true resolveNothing [((0 : Fin 1), earlyClose)]
      (Function.update (fun _ => Worker.receiving) 0 .returned) ∧
    ¬ ∀ (run : List (Fin 1 × Connection Unit)) (pool : Fin 1 → Worker),
      Reaches .ascii true true resolveNothing run pool → ∀ i, pool i = .receiving := by
  have hreaches : Reaches .ascii true true resolveNothing [((0 : Fin 1), earlyClose)]
      (Function.update (fun _ => Worker.receiving) 0 .returned) :=
    .received .start rfl (.reported (n := 0) (e := .io) rfl)
  refine ⟨hreaches, fun h => ?_⟩
  have hback := h _ _ hreaches 0
  cases hback

end DnsTcpServer
