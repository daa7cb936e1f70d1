/-
# Zones and delegations

`Authority::query` of `dns/authority.rs`, which answers for the local zones, and the searches of
`dns/protocol.rs` for the name server that a packet refers to.  All of them ask whether the name
ends in the text of a domain, and not whether the domain is a label boundary away: a zone `foo.ruv`
answers for `xfoo.ruv`.  The zone that is used, and the name server that is followed, are those of
an ancestor of the name exactly if no other domain that the name ends in gets in the way.
-/
import Ruvname.Packet

/-! ## Local zones -/

/-- `Zone`. -/
structure Zone where
  domain : String
  mName : String
  rName : String
  serial : UInt32
  refresh : UInt32
  retry : UInt32
  expire : UInt32
  minimum : UInt32
  /-- `BTreeSet<DnsRecord>`, in its order. -/
  records : List DnsRecord

/-- `Zones`: a map in the order of the domains. -/
structure Zones where
  zones : List Zone
  sorted : (zones.map Zone.domain).Pairwise (· < ·)

/-- `str::ends_with`. -/
def endsWith (s t : String) : Bool := t.toList.isSuffixOf s.toList

namespace Authority

/-- The loop of `query`: the zone with the longest domain so far. -/
def bestStep (qname : String) (bestMatch : Option (ℕ × Zone)) (zone : Zone) : Option (ℕ × Zone) :=
  if ¬ endsWith qname zone.domain then bestMatch
  else
    match bestMatch with
    | some (len, best) =>
      if len < zone.domain.utf8ByteSize then some (zone.domain.utf8ByteSize, zone) else some (len, best)
    | none => some (zone.domain.utf8ByteSize, zone)

def bestMatch (zones : Zones) (qname : String) : Option (ℕ × Zone) :=
  zones.zones.foldl (bestStep qname) none

/-- The answer of a zone: its records of the name and the type, aliases for addresses included. -/
def answer (zone : Zone) (qname : String) (qtype : QueryType) : DnsPacket :=
  let answers := zone.records.filter fun rec =>
    rec.getDomain = some qname
      ∧ (qtype = rec.getQuerytype ∨ (qtype = .a ∧ rec.getQuerytype = .cname))
  if answers = [] then
    { header := { authoritativeAnswer := true, rescode := .nxdomain }
      authorities := [.soa zone.domain zone.mName zone.rName zone.serial zone.refresh zone.retry
        zone.expire zone.minimum zone.minimum] }
  else { header := { authoritativeAnswer := true }, answers := answers }

/-- `query`.  The lock of the zones is never poisoned: nothing panics while it is held. -/
def query (zones : Zones) (qname : String) (qtype : QueryType) : Option DnsPacket :=
  (bestMatch zones qname).map fun best => answer best.2 qname qtype

end Authority

/-! ## Name servers of a packet -/

namespace DnsPacket

/-- The element at a random index, if there is one. -/
def pick {α : Type} (random : ℕ) (l : List α) : Option α := l[random % l.length]?

/-- `get_random_a`. -/
def getRandomA (random : ℕ) (packet : DnsPacket) : Option String :=
  match pick random packet.answers with
  | some (.a _ addr _) => some addr.toText
  | _ => none

/-- `get_ttl_from_soa`. -/
def getTtlFromSoa (packet : DnsPacket) : Option UInt32 :=
  packet.authorities.findSome? fun
    | .soa _ _ _ _ _ _ _ minimum _ => some minimum
    | _ => none

/-- The address records of the hosts of the NS records whose domain the name ends in. -/
def resolvedNs (qname : String) (packet : DnsPacket) : List DnsRecord :=
  packet.authorities.flatMap fun
    | .ns domain host _ =>
      if ¬ endsWith qname domain then []
      else packet.resources.filterMap fun
        | .a domain addr ttl => if domain ≠ host then none else some (.a host addr ttl)
        | _ => none
    | _ => []

/-- `get_resolved_ns`. -/
def getResolvedNs (random : ℕ) (qname : String) (packet : DnsPacket) : Option String :=
  match pick random (packet.resolvedNs qname) with
  | some (.a _ addr _) => some addr.toText
  | _ => none

/-- The hosts of the NS records whose domain the name ends in. -/
def unresolvedNs (qname : String) (packet : DnsPacket) : List String :=
  packet.authorities.filterMap fun
    | .ns domain host _ => if ¬ endsWith qname domain then none else some host
    | _ => none

/-- `get_unresolved_ns`. -/
def getUnresolvedNs (random : ℕ) (qname : String) (packet : DnsPacket) : Option String :=
  pick random (packet.unresolvedNs qname)

end DnsPacket

/-! ## Ancestors -/

/-- **The domain is an ancestor of the name**: the root, the name itself, or what follows a dot in
it. -/
def IsAncestor (domain qname : String) : Prop :=
  domain = "" ∨ domain = qname ∨ ∃ front, qname.toList = front ++ '.' :: domain.toList

section Ancestor

variable {domain qname s t : String}

theorem endsWith_iff : endsWith s t ↔ ∃ front, s.toList = front ++ t.toList := by
  unfold endsWith
  rw [List.isSuffixOf_iff_suffix]
  constructor
  · rintro ⟨front, h⟩
    exact ⟨front, h.symm⟩
  · rintro ⟨front, h⟩
    exact ⟨front, h.symm⟩

/-- A name ends in its ancestors. -/
theorem IsAncestor.endsWith (h : IsAncestor domain qname) : endsWith qname domain := by
  rw [endsWith_iff]
  rcases h with rfl | rfl | ⟨front, h⟩
  · exact ⟨qname.toList, by simp⟩
  · exact ⟨[], rfl⟩
  · exact ⟨front ++ ['.'], by rw [h, List.append_assoc, List.singleton_append]⟩

/-- What a name ends in is determined by its length. -/
theorem eq_of_endsWith {s' : String} (hs : endsWith qname s) (hs' : endsWith qname s')
    (hsize : s.utf8ByteSize = s'.utf8ByteSize) : s = s' := by
  have hlast : ∀ {x y : String}, y.toList <:+ x.toList → x.utf8ByteSize = y.utf8ByteSize → x = y := by
    rintro x y ⟨front, h⟩ heq
    have hx : x = String.ofList front ++ y := by
      rw [← String.toList_inj, String.toList_append, String.toList_ofList, h]
    rw [hx, String.utf8ByteSize_append] at heq
    have hfront : String.ofList front = "" := String.utf8ByteSize_eq_zero_iff.mp (by omega)
    rw [hx, hfront, String.empty_append]
  unfold endsWith at hs hs'
  rw [List.isSuffixOf_iff_suffix] at hs hs'
  rcases List.suffix_or_suffix_of_suffix hs hs' with h | h
  · exact (hlast h hsize.symm).symm
  · exact hlast h hsize

end Ancestor

/-! ## The zone that answers -/

namespace Authority

variable {zones : Zones} {zs : List Zone} {zone : Zone} {qname : String} {qtype : QueryType} {len : ℕ}
  {best : Option (ℕ × Zone)}

/-- The best match among these zones: none if the name ends in none of them, and else the longest. -/
def IsBest (qname : String) (zs : List Zone) : Option (ℕ × Zone) → Prop
  | none => ∀ z ∈ zs, ¬ endsWith qname z.domain
  | some (len, zone) => zone ∈ zs ∧ endsWith qname zone.domain ∧ len = zone.domain.utf8ByteSize ∧
      ∀ z ∈ zs, endsWith qname z.domain → z.domain.utf8ByteSize ≤ len

/-- The step lemma. -/
theorem IsBest.step (h : IsBest qname zs best) :
    IsBest qname (zs ++ [zone]) (bestStep qname best zone) := by
  unfold bestStep
  by_cases hends : endsWith qname zone.domain
  · rw [if_neg (not_not_intro hends)]
    cases best with
    | none =>
      refine ⟨List.mem_append_right _ List.mem_cons_self, hends, rfl, fun z hz hzends => ?_⟩
      rcases List.mem_append.mp hz with hz | hz
      · exact absurd hzends (h z hz)
      · rw [List.mem_singleton.mp hz]
    | some b =>
      obtain ⟨len, longest⟩ := b
      obtain ⟨hmem, hlongest, hlen, hmax⟩ := h
      dsimp only
      split
      · refine ⟨List.mem_append_right _ List.mem_cons_self, hends, rfl, fun z hz hzends => ?_⟩
        rcases List.mem_append.mp hz with hz | hz
        · have := hmax z hz hzends
          omega
        · rw [List.mem_singleton.mp hz]
      · refine ⟨List.mem_append_left _ hmem, hlongest, hlen, fun z hz hzends => ?_⟩
        rcases List.mem_append.mp hz with hz | hz
        · exact hmax z hz hzends
        · rw [List.mem_singleton.mp hz]
          omega
  · rw [if_pos hends]
    have hother : ∀ z ∈ zs ++ [zone], endsWith qname z.domain → z ∈ zs := by
      intro z hz hzends
      rcases List.mem_append.mp hz with hz | hz
      · exact hz
      · rw [List.mem_singleton.mp hz] at hzends
        exact absurd hzends hends
    cases best with
    | none => exact fun z hz hzends => h z (hother z hz hzends) hzends
    | some b =>
      obtain ⟨hmem, hlongest, hlen, hmax⟩ := h
      exact ⟨List.mem_append_left _ hmem, hlongest, hlen,
        fun z hz hzends => hmax z (hother z hz hzends) hzends⟩

/-- **The zone that is used is the longest one that the name ends in.** -/
theorem isBest_bestMatch (zones : Zones) (qname : String) :
    IsBest qname zones.zones (bestMatch zones qname) := by
  unfold bestMatch
  induction zones.zones using List.reverseRecOn with
  | nil => exact fun z hz => absurd hz List.not_mem_nil
  | append_singleton zs z ih =>
    rw [List.foldl_append]
    exact ih.step

/-- **The zones answer by an ancestor**: every answer is that of a zone whose domain is an ancestor of
the name, and no zone with a longer domain is one. -/
def AnswersByAncestor (zones : Zones) (qname : String) : Prop :=
  ∀ qtype packet, query zones qname qtype = some packet →
    ∃ zone ∈ zones.zones, packet = answer zone qname qtype ∧ IsAncestor zone.domain qname ∧
      ∀ z ∈ zones.zones, IsAncestor z.domain qname → z.domain.utf8ByteSize ≤ zone.domain.utf8ByteSize

/-- No zone has records of this type for a name, so the answer shows the zone. -/
theorem answer_opt (zone : Zone) (qname : String) : answer zone qname .opt =
    { header := { authoritativeAnswer := true, rescode := .nxdomain }
      authorities := [.soa zone.domain zone.mName zone.rName zone.serial zone.refresh zone.retry
        zone.expire zone.minimum zone.minimum] } := by
  have hnone : ∀ rec : DnsRecord, ¬ (rec.getDomain = some qname
      ∧ (QueryType.opt = rec.getQuerytype ∨ (QueryType.opt = .a ∧ rec.getQuerytype = .cname))) := by
    rintro rec ⟨hdomain, htype | ⟨htype, -⟩⟩
    · cases rec with
      | opt => cases hdomain
      | _ => cases htype
    · cases htype
  have hanswers : (zone.records.filter fun rec => rec.getDomain = some qname
      ∧ (QueryType.opt = rec.getQuerytype ∨ (QueryType.opt = .a ∧ rec.getQuerytype = .cname))) = [] :=
    List.filter_eq_nil_iff.mpr fun rec _ => by simpa using hnone rec
  unfold answer
  dsimp only
  rw [if_pos hanswers]

/-- The zone that has answered has the domain of every zone that answers the same. -/
theorem domain_eq_of_answer {zone zone' : Zone} (h : answer zone qname .opt = answer zone' qname .opt) :
    zone.domain = zone'.domain := by
  rw [answer_opt, answer_opt, DnsPacket.mk.injEq] at h
  obtain ⟨-, -, -, hauthorities, -⟩ := h
  injection hauthorities with hsoa
  injection hsoa

/-- **No zone is in the way**: one that the name ends in is an ancestor of the name, or is shorter
than some ancestor. -/
def NoneInTheWay (zones : Zones) (qname : String) : Prop :=
  ∀ z ∈ zones.zones, endsWith qname z.domain → IsAncestor z.domain qname ∨
    ∃ z' ∈ zones.zones, IsAncestor z'.domain qname ∧ z.domain.utf8ByteSize < z'.domain.utf8ByteSize

theorem answersByAncestor_iff : AnswersByAncestor zones qname ↔ NoneInTheWay zones qname := by
  have hbest := isBest_bestMatch zones qname
  constructor
  · intro h z hz hends
    cases hmatch : bestMatch zones qname with
    | none =>
      rw [hmatch] at hbest
      exact absurd hends (hbest z hz)
    | some b =>
      obtain ⟨len, zone⟩ := b
      rw [hmatch] at hbest
      obtain ⟨hzone, hzends, hlen, hmax⟩ := hbest
      have hquery : query zones qname .opt = some (answer zone qname .opt) := by
        rw [query, hmatch]
        rfl
      obtain ⟨zone', -, hanswer, hancestor, -⟩ := h .opt _ hquery
      rw [← domain_eq_of_answer hanswer] at hancestor
      rcases Nat.lt_or_ge z.domain.utf8ByteSize zone.domain.utf8ByteSize with hlt | hge
      · exact Or.inr ⟨zone, hzone, hancestor, hlt⟩
      · -- of the same length as the zone that is used, and therefore the same text
        have hle := hmax z hz hends
        have hsame := eq_of_endsWith hends hzends (by omega)
        exact Or.inl (hsame ▸ hancestor)
  · intro h
    have hused : ∀ len zone, bestMatch zones qname = some (len, zone) →
        zone ∈ zones.zones ∧ IsAncestor zone.domain qname ∧ ∀ z ∈ zones.zones,
          IsAncestor z.domain qname → z.domain.utf8ByteSize ≤ zone.domain.utf8ByteSize := by
      intro len zone hmatch
      rw [hmatch] at hbest
      obtain ⟨hzone, hzends, hlen, hmax⟩ := hbest
      have hlongest : ∀ z ∈ zones.zones, IsAncestor z.domain qname →
          z.domain.utf8ByteSize ≤ zone.domain.utf8ByteSize :=
        fun z hz hancestor => hlen ▸ hmax z hz hancestor.endsWith
      refine ⟨hzone, ?_, hlongest⟩
      rcases h zone hzone hzends with hancestor | ⟨z', hz', hancestor, hlt⟩
      · exact hancestor
      · exact absurd (hlongest z' hz' hancestor) (Nat.not_le_of_lt hlt)
    intro qtype packet hpacket
    obtain ⟨⟨len, zone⟩, hmatch, rfl⟩ := Option.map_eq_some_iff.mp hpacket
    obtain ⟨hzone, hancestor, hlongest⟩ := hused len zone hmatch
    exact ⟨zone, hzone, rfl, hancestor, hlongest⟩

end Authority

/-! ## The name server that is followed -/

namespace DnsPacket

variable {packet : DnsPacket} {qname host text : String} {random : ℕ}

theorem pick_eq_some {α : Type} {l : List α} {a : α} (h : pick random l = some a) : a ∈ l :=
  List.mem_of_getElem? h

/-- Every element is picked by some random number. -/
theorem exists_pick {α : Type} {l : List α} {a : α} (h : a ∈ l) : ∃ random, pick random l = some a := by
  obtain ⟨i, hi, rfl⟩ := List.mem_iff_getElem.mp h
  exact ⟨i, by rw [pick, Nat.mod_eq_of_lt hi, List.getElem?_eq_getElem hi]⟩

/-- An NS record of a domain with `p` names the host. -/
def Names (p : String → Prop) (packet : DnsPacket) (host : String) : Prop :=
  ∃ domain ttl, .ns domain host ttl ∈ packet.authorities ∧ p domain

/-- It names a host that has an address of this text in the packet. -/
def Resolves (p : String → Prop) (packet : DnsPacket) (text : String) : Prop :=
  ∃ host addr ttl, packet.Names p host ∧ .a host addr ttl ∈ packet.resources ∧ addr.toText = text

theorem mem_unresolvedNs :
    host ∈ packet.unresolvedNs qname ↔ packet.Names (fun domain => endsWith qname domain) host := by
  simp only [unresolvedNs, List.mem_filterMap, Names]
  constructor
  · rintro ⟨record, hmem, h⟩
    cases record with
    | ns domain host' ttl =>
      by_cases hends : endsWith qname domain
      · simp only [hends, not_true_eq_false, if_false, Option.some.injEq] at h
        subst h
        exact ⟨domain, ttl, hmem, hends⟩
      · simp [hends] at h
    | _ => cases h
  · rintro ⟨domain, ttl, hmem, hends⟩
    exact ⟨_, hmem, by simp [hends]⟩

theorem mem_resolvedNs {record : DnsRecord} : record ∈ packet.resolvedNs qname ↔
    ∃ host addr ttl, record = .a host addr ttl ∧ packet.Names (fun domain => endsWith qname domain) host
      ∧ .a host addr ttl ∈ packet.resources := by
  simp only [resolvedNs, List.mem_flatMap, Names]
  constructor
  · rintro ⟨auth, hmem, h⟩
    cases auth with
    | ns domain host ttl =>
      by_cases hends : endsWith qname domain
      · simp only [hends, not_true_eq_false, if_false, List.mem_filterMap] at h
        obtain ⟨rsrc, hrsrc, h⟩ := h
        cases rsrc with
        | a domain' addr ttl' =>
          by_cases hhost : domain' = host
          · simp only [hhost, ne_eq, not_true_eq_false, if_false, Option.some.injEq] at h
            subst hhost
            exact ⟨domain', addr, ttl', h.symm, ⟨domain, ttl, hmem, hends⟩, hrsrc⟩
          · simp [hhost] at h
        | _ => cases h
      · simp [hends] at h
    | _ => cases h
  · rintro ⟨host, addr, ttl, rfl, ⟨domain, ttl', hmem, hends⟩, hrsrc⟩
    refine ⟨_, hmem, ?_⟩
    simp only [hends, not_true_eq_false, if_false, List.mem_filterMap]
    exact ⟨_, hrsrc, by simp⟩

/-- **Only the name servers of ancestors are followed**, whatever the random number. -/
structure FollowsAncestors (packet : DnsPacket) (qname : String) : Prop where
  resolved : ∀ random text, packet.getResolvedNs random qname = some text →
    packet.Resolves (fun domain => IsAncestor domain qname) text
  unresolved : ∀ random host, packet.getUnresolvedNs random qname = some host →
    packet.Names (fun domain => IsAncestor domain qname) host

/-- **No other name server is named**: one that the packet names, or gives an address of, for a
domain that the name ends in, it also names or gives for an ancestor. -/
structure NamesForAncestors (packet : DnsPacket) (qname : String) : Prop where
  resolved : ∀ text, packet.Resolves (fun domain => endsWith qname domain) text →
    packet.Resolves (fun domain => IsAncestor domain qname) text
  unresolved : ∀ host, packet.Names (fun domain => endsWith qname domain) host →
    packet.Names (fun domain => IsAncestor domain qname) host

theorem exists_getResolvedNs : (∃ random, packet.getResolvedNs random qname = some text)
    ↔ packet.Resolves (fun domain => endsWith qname domain) text := by
  constructor
  · rintro ⟨random, h⟩
    unfold getResolvedNs at h
    cases hpick : pick random (packet.resolvedNs qname) with
    | none => simp [hpick] at h
    | some record =>
      obtain ⟨host, addr, ttl, rfl, hnames, hrsrc⟩ := mem_resolvedNs.mp (pick_eq_some hpick)
      rw [hpick, Option.some.injEq] at h
      exact ⟨host, addr, ttl, hnames, hrsrc, h⟩
  · rintro ⟨host, addr, ttl, hnames, hrsrc, htext⟩
    obtain ⟨random, hpick⟩ := exists_pick (mem_resolvedNs.mpr ⟨host, addr, ttl, rfl, hnames, hrsrc⟩)
    exact ⟨random, by rw [getResolvedNs, hpick, ← htext]⟩

theorem exists_getUnresolvedNs : (∃ random, packet.getUnresolvedNs random qname = some host)
    ↔ packet.Names (fun domain => endsWith qname domain) host := by
  rw [← mem_unresolvedNs]
  constructor
  · rintro ⟨random, h⟩
    exact pick_eq_some h
  · exact exists_pick

theorem followsAncestors_iff : packet.FollowsAncestors qname ↔ packet.NamesForAncestors qname := by
  constructor
  · intro h
    refine ⟨fun text htext => ?_, fun host hhost => ?_⟩
    · obtain ⟨random, hrandom⟩ := exists_getResolvedNs.mpr htext
      exact h.resolved random text hrandom
    · obtain ⟨random, hrandom⟩ := exists_getUnresolvedNs.mpr hhost
      exact h.unresolved random host hrandom
  · intro h
    exact ⟨fun random text htext => h.resolved text (exists_getResolvedNs.mp ⟨random, htext⟩),
      fun random host hhost => h.unresolved host (exists_getUnresolvedNs.mp ⟨random, hhost⟩)⟩

end DnsPacket

/-- **Label boundaries**: the local zones answer by an ancestor of the name exactly if no other zone
is in the way, and only name servers of ancestors are followed exactly if no other one is named. -/
theorem boundaries_iff (qname : String) :
    (∀ zones, Authority.AnswersByAncestor zones qname ↔ Authority.NoneInTheWay zones qname) ∧
      ∀ packet : DnsPacket, packet.FollowsAncestors qname ↔ packet.NamesForAncestors qname :=
  ⟨fun _ => Authority.answersByAncestor_iff, fun _ => DnsPacket.followsAncestors_iff⟩

/-- The zone `foo.ruv` answers for `xfoo.ruv`, and its name server is followed. -/
theorem not_boundaries_xfoo :
    let zones : Zones := ⟨[⟨"foo.ruv", "", "", 0, 0, 0, 0, 0, []⟩], by decide⟩
    let packet : DnsPacket := { authorities := [.ns "foo.ruv" "ns.foo.ruv" 60] }
    (Authority.query zones "xfoo.ruv" .a).isSome ∧
      packet.getUnresolvedNs 0 "xfoo.ruv" = some "ns.foo.ruv" ∧
      ¬ Authority.AnswersByAncestor zones "xfoo.ruv" ∧ ¬ packet.FollowsAncestors "xfoo.ruv" := by
  intro zones packet
  have hancestor : ¬ IsAncestor "foo.ruv" "xfoo.ruv" := by
    rintro (h | h | ⟨front, h⟩)
    · exact absurd h (by decide)
    · exact absurd h (by decide)
    · have hsuffix : ('.' :: "foo.ruv".toList) <:+ "xfoo.ruv".toList := ⟨front, h.symm⟩
      rw [← List.isSuffixOf_iff_suffix] at hsuffix
      exact absurd hsuffix (by decide)
  refine ⟨by decide, by decide, fun h => ?_, fun h => ?_⟩
  · obtain ⟨packet, hpacket⟩ := Option.isSome_iff_exists.mp
      (show (Authority.query zones "xfoo.ruv" .a).isSome by decide)
    obtain ⟨z, hz, -, hanc, -⟩ := h .a packet hpacket
    rw [List.mem_singleton.mp hz] at hanc
    exact hancestor hanc
  · obtain ⟨domain, ttl, hmem, hanc⟩ := h.unresolved 0 "ns.foo.ruv" (by decide)
    cases List.mem_singleton.mp hmem
    exact hancestor hanc
