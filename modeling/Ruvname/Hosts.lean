/-
# The hosts file

`HostsFilter` of `dns/hosts.rs`: the lines `address name` of a text, as a filter that answers for
the names in it.  A name keeps the address of its first line only, so that its answers are the
addresses of its lines exactly if these all have the same address.
-/
import Ruvname.HexText
import Ruvname.Packet

/-! ## Addresses as text -/

namespace IpText

/-- `to_digit`. -/
def toDigit (radix : ℕ) (c : Char) : Option ℕ := (hexValue c).filter (· < radix)

/-- `read_number`: the value and the rest of the text. -/
def readNumber (radix maxDigits : ℕ) (allowZeroPrefix : Bool) (bound : ℕ) (s : List Char) :
    Option (ℕ × List Char) :=
  let digits := s.takeWhile fun c => (toDigit radix c).isSome
  let value := digits.foldl (fun acc c => acc * radix + (toDigit radix c).getD 0) 0
  if digits = [] ∨ maxDigits < digits.length then none
  else if ¬ allowZeroPrefix ∧ s.head? = some '0' ∧ 1 < digits.length then none
  else if bound < value then none
  else some (value, s.drop digits.length)

/-- `read_given_char`. -/
def readGivenChar (target : Char) : List Char → Option (List Char)
  | [] => none
  | c :: s => if c = target then some s else none

/-- `read_separator`: the first of several items has no separator before it. -/
def readSeparator {α : Type} (sep : Char) (index : ℕ) (inner : List Char → Option (α × List Char))
    (s : List Char) : Option (α × List Char) :=
  if index = 0 then inner s else (readGivenChar sep s).bind inner

/-- `read_ipv4_addr`. -/
def readIpv4Addr (s : List Char) : Option (Ipv4Addr × List Char) := do
  let octet := readNumber 10 3 false 255
  let (a, s) ← readSeparator '.' 0 octet s
  let (b, s) ← readSeparator '.' 1 octet s
  let (c, s) ← readSeparator '.' 2 octet s
  let (d, s) ← readSeparator '.' 3 octet s
  some (⟨#v[UInt8.ofNat a, UInt8.ofNat b, UInt8.ofNat c, UInt8.ofNat d]⟩, s)

/-- The two groups of an embedded IPv4 address. -/
def ipv4Groups (addr : Ipv4Addr) : List UInt16 :=
  let group := fun (high low : UInt8) => UInt16.ofNat (high.toNat * 256 + low.toNat)
  [group (addr.octets.get 0) (addr.octets.get 1), group (addr.octets.get 2) (addr.octets.get 3)]

/-- `read_groups`: at most so many groups from this index on, whether an IPv4 address ends them, and
the rest of the text.  An IPv4 address needs two groups. -/
def readGroups : ℕ → ℕ → List Char → List UInt16 × Bool × List Char
  | 0, _, s => ([], false, s)
  | n + 1, i, s =>
    match if 0 < n then readSeparator ':' i readIpv4Addr s else none with
    | some (addr, s) => (ipv4Groups addr, true, s)
    | none =>
      match readSeparator ':' i (readNumber 16 4 true 65535) s with
      | none => ([], false, s)
      | some (group, s) =>
        let (groups, ipv4, s) := readGroups n (i + 1) s
        (UInt16.ofNat group :: groups, ipv4, s)

def ofGroups (groups : List UInt16) : Ipv6Addr := ⟨Vector.ofFn fun i => groups.getD i.val 0⟩

/-- `read_ipv6_addr`. -/
def readIpv6Addr (s : List Char) : Option (Ipv6Addr × List Char) :=
  let (head, headIpv4, s) := readGroups 8 0 s
  if head.length = 8 then some (ofGroups head, s)
  else if headIpv4 then none
  else do
    let s ← readGivenChar ':' s
    let s ← readGivenChar ':' s
    let (tail, _, s) := readGroups (8 - (head.length + 1)) 0 s
    some (ofGroups (head ++ List.replicate (8 - head.length - tail.length) 0 ++ tail), s)

/-- `read_ip_addr`. -/
def readIpAddr (s : List Char) : Option (IpAddr × List Char) :=
  match readIpv4Addr s with
  | some (addr, s) => some (.v4 addr, s)
  | none => (readIpv6Addr s).map fun (addr, s) => (.v6 addr, s)

/-- `str::parse::<IpAddr>`: the whole text is an address. -/
def parseIpAddr (s : List Char) : Option IpAddr :=
  match readIpAddr s with
  | some (addr, []) => some addr
  | _ => none

example : parseIpAddr "192.0.2.1".toList = some (.v4 ⟨#v[192, 0, 2, 1]⟩)
    ∧ parseIpAddr "192.0.2.01".toList = none
    ∧ parseIpAddr "fe80::1:2".toList = some (.v6 ⟨#v[0xfe80, 0, 0, 0, 0, 0, 1, 2]⟩)
    ∧ parseIpAddr "::ffff:10.0.0.1".toList = some (.v6 ⟨#v[0, 0, 0, 0, 0, 0xffff, 0xa00, 1]⟩)
    ∧ parseIpAddr "1:2:3:4:5:6:7::8".toList = none := by
  decide +kernel

end IpText

/-! ## The filter -/

/-- `HostsFilter`. -/
structure HostsFilter where
  hosts : String → Option (List IpAddr)

namespace HostsFilter

open IpText (parseIpAddr)

/-- `replace('\t', " ")`. -/
def untab (s : List Char) : List Char := s.map fun c => if c = '\t' then ' ' else c

/-- `splitn(2, ' ')`: what is before the first blank, and what is after it. -/
def splitBlank (s : List Char) : Option (List Char × List Char) :=
  match s.dropWhile (· ≠ ' ') with
  | [] => none
  | _ :: rest => some (s.takeWhile (· ≠ ' '), rest)

/-- One line: the name and the address that it adds, if it adds one. -/
def readLine (s : List Char) : Option (String × IpAddr) :=
  if s = [] ∨ s.head? = some '#' then none
  else
    match splitBlank (untab s) with
    | none => none
    | some (ip, domain) =>
      match parseIpAddr (trim ip) with
      | none => none
      | some addr => if trim domain = [] then none else some (String.ofList (trim domain), addr)

/-- `map.entry(domain).or_insert(vec![addr])`. -/
def orInsert (map : String → Option (List IpAddr)) (entry : String × IpAddr) :
    String → Option (List IpAddr) :=
  match map entry.1 with
  | some _ => map
  | none => Function.update map entry.1 (some [entry.2])

/-- The lines that add something, from the first one on. -/
def entries (text : String) : List (String × IpAddr) := (text.toList.splitOn '\n').filterMap readLine

/-- `HostsFilter::new`, on the text of the file. -/
def new (text : String) : HostsFilter := ⟨(entries text).foldl orInsert fun _ => none⟩

/-- The answers for one address. -/
def answersOf (qname : String) (qtype : QueryType) : IpAddr → List DnsRecord
  | .v4 addr => if qtype = .a then [.a qname addr 2] else []
  | .v6 addr => if qtype = .aaaa then [.aaaa qname addr 2] else []

/-- `lookup`. -/
def lookup (filter : HostsFilter) (qname : String) (qtype : QueryType) : Option DnsPacket :=
  (filter.hosts qname).map fun list =>
    { header := { authoritativeAnswer := true }
      questions := [⟨qname, qtype⟩]
      answers := list.flatMap (answersOf qname qtype)
      authorities := [.ns "hosts" "hosts" 600] }

/-! ## What the lines list -/

/-- **The text lists the address for the name**: on a line `address name` that is no comment, with
tabs as blanks. -/
def Lists (text name : String) (addr : IpAddr) : Prop :=
  ∃ line ∈ text.toList.splitOn '\n', line.head? ≠ some '#' ∧ ∃ ip domain,
    untab line = ip ++ ' ' :: domain ∧ ' ' ∉ ip ∧ parseIpAddr (trim ip) = some addr
      ∧ trim domain = name.toList ∧ name ≠ ""

/-- **Every listed address is served**: the answers for a name are its listed addresses. -/
structure Served (text name : String) : Prop where
  a : ∀ r, (∃ packet, (new text).lookup name .a = some packet ∧ r ∈ packet.answers)
    ↔ ∃ addr, Lists text name (.v4 addr) ∧ r = .a name addr 2
  aaaa : ∀ r, (∃ packet, (new text).lookup name .aaaa = some packet ∧ r ∈ packet.answers)
    ↔ ∃ addr, Lists text name (.v6 addr) ∧ r = .aaaa name addr 2

variable {text name : String} {addr : IpAddr} {s ip domain : List Char} {e : String × IpAddr}

theorem splitBlank_iff : splitBlank s = some (ip, domain) ↔ s = ip ++ ' ' :: domain ∧ ' ' ∉ ip := by
  unfold splitBlank
  constructor
  · intro h
    split at h
    · cases h
    · rename_i c rest hdrop
      rw [Option.some.injEq, Prod.mk.injEq] at h
      obtain ⟨rfl, rfl⟩ := h
      exact ⟨eq_of_dropWhile_ne hdrop, notMem_takeWhile_ne⟩
  · rintro ⟨rfl, hnot⟩
    have hall : ∀ c ∈ ip, decide (c ≠ ' ') = true := by
      intro c hc
      rw [decide_eq_true_iff]
      rintro rfl
      exact hnot hc
    rw [List.dropWhile_append_of_pos hall, List.takeWhile_append_of_pos hall]
    simp

/-- What a line adds is what it lists. -/
theorem readLine_iff : readLine s = some e ↔ s.head? ≠ some '#' ∧ ∃ ip domain,
    untab s = ip ++ ' ' :: domain ∧ ' ' ∉ ip ∧ parseIpAddr (trim ip) = some e.2
      ∧ trim domain = e.1.toList ∧ e.1 ≠ "" := by
  unfold readLine
  constructor
  · intro h
    split_ifs at h with hskip
    rw [not_or] at hskip
    cases hblank : splitBlank (untab s) with
    | none =>
      rw [hblank] at h
      cases h
    | some parts =>
      obtain ⟨ip, domain⟩ := parts
      rw [hblank] at h
      dsimp only at h
      cases haddr : parseIpAddr (trim ip) with
      | none =>
        rw [haddr] at h
        cases h
      | some addr =>
        rw [haddr] at h
        dsimp only at h
        split_ifs at h with hdomain
        rw [Option.some.injEq] at h
        subst h
        obtain ⟨huntab, hnot⟩ := splitBlank_iff.mp hblank
        refine ⟨hskip.2, ip, domain, huntab, hnot, haddr, by rw [String.toList_ofList], ?_⟩
        rwa [ne_eq, String.ofList_eq_empty_iff]
  · rintro ⟨hcomment, ip, domain, huntab, hnot, haddr, hdomain, hne⟩
    have hnil : s ≠ [] := by
      rintro rfl
      simp [untab] at huntab
    have hname : e.1.toList ≠ [] := by
      rwa [ne_eq, String.toList_eq_nil_iff]
    rw [if_neg (not_or.mpr ⟨hnil, hcomment⟩), splitBlank_iff.mpr ⟨huntab, hnot⟩]
    dsimp only
    rw [haddr]
    dsimp only
    rw [hdomain, if_neg hname, String.ofList_toList]

theorem mem_entries : (name, addr) ∈ entries text ↔ Lists text name addr := by
  unfold entries Lists
  rw [List.mem_filterMap]
  simp only [readLine_iff]

/-! ## What is served -/

/-- A name keeps what it has, and gets its first entry otherwise, by induction on the entries. -/
theorem foldl_orInsert (entries : List (String × IpAddr)) (map : String → Option (List IpAddr))
    (name : String) : entries.foldl orInsert map name
      = (map name).or ((entries.find? fun e => e.1 = name).map fun e => [e.2]) := by
  induction entries generalizing map with
  | nil => simp
  | cons e entries ih =>
    rw [List.foldl_cons, ih, List.find?_cons]
    unfold orInsert
    by_cases hname : e.1 = name
    · subst hname
      cases hmap : map e.1 with
      | some list => simp [hmap]
      | none => simp
    · cases hmap : map e.1 with
      | some list => simp [hname]
      | none =>
        dsimp only
        rw [Function.update_of_ne (Ne.symm hname)]
        simp [hname]

/-- The answers are those for the first entry of the name. -/
theorem mem_answers {qtype : QueryType} {r : DnsRecord} :
    (∃ packet, (new text).lookup name qtype = some packet ∧ r ∈ packet.answers)
      ↔ ∃ e, ((entries text).find? fun e => e.1 = name) = some e ∧ r ∈ answersOf name qtype e.2 := by
  have hhosts : (new text).hosts name
      = ((entries text).find? fun e => e.1 = name).map fun e => [e.2] := by
    show (entries text).foldl orInsert (fun _ => none) name = _
    rw [foldl_orInsert]
    rfl
  unfold lookup
  rw [hhosts]
  cases (entries text).find? fun e => e.1 = name with
  | none => simp
  | some e => simp

theorem mem_answersOf_a {r : DnsRecord} :
    r ∈ answersOf name .a addr ↔ ∃ v4, addr = .v4 v4 ∧ r = .a name v4 2 := by
  cases addr with
  | v4 v4 => simp [answersOf]
  | v6 v6 => simp [answersOf]

theorem mem_answersOf_aaaa {r : DnsRecord} :
    r ∈ answersOf name .aaaa addr ↔ ∃ v6, addr = .v6 v6 ∧ r = .aaaa name v6 2 := by
  cases addr with
  | v4 v4 => simp [answersOf]
  | v6 v6 => simp [answersOf]

/-- **Every listed address of a name is served exactly if its lines all list the same one.** -/
theorem served_iff_one_address (text name : String) : Served text name ↔
    ∀ addr addr', Lists text name addr → Lists text name addr' → addr = addr' := by
  constructor
  · rintro ⟨ha, haaaa⟩
    -- what is listed is what the first entry has
    have hfirst : ∀ addr, Lists text name addr →
        ((entries text).find? fun e => e.1 = name).map Prod.snd = some addr := by
      intro addr hlists
      cases addr with
      | v4 v4 =>
        obtain ⟨e, he, hmem⟩ := mem_answers.mp ((ha _).mpr ⟨v4, hlists, rfl⟩)
        obtain ⟨v4', heq, hr⟩ := mem_answersOf_a.mp hmem
        rw [DnsRecord.a.injEq] at hr
        rw [he, Option.map_some, heq, hr.2.1]
      | v6 v6 =>
        obtain ⟨e, he, hmem⟩ := mem_answers.mp ((haaaa _).mpr ⟨v6, hlists, rfl⟩)
        obtain ⟨v6', heq, hr⟩ := mem_answersOf_aaaa.mp hmem
        rw [DnsRecord.aaaa.injEq] at hr
        rw [he, Option.map_some, heq, hr.2.1]
    intro addr addr' h h'
    exact Option.some.inj ((hfirst addr h).symm.trans (hfirst addr' h'))
  · intro h
    have hlists : ∀ addr, Lists text name addr
        ↔ ∃ e, ((entries text).find? fun e => e.1 = name) = some e ∧ e.2 = addr := by
      intro addr
      constructor
      · intro hlisted
        cases hfind : (entries text).find? fun e => e.1 = name with
        | none =>
          rw [List.find?_eq_none] at hfind
          exact absurd (decide_eq_true rfl) (hfind (name, addr) (mem_entries.mpr hlisted))
        | some e =>
          have hname : e.1 = name := by simpa using List.find?_some hfind
          have he : Lists text name e.2 := by
            rw [← mem_entries, ← hname]
            exact List.mem_of_find?_eq_some hfind
          exact ⟨e, rfl, h _ _ he hlisted⟩
      · rintro ⟨e, hfind, rfl⟩
        have hname : e.1 = name := by simpa using List.find?_some hfind
        rw [← mem_entries, ← hname]
        exact List.mem_of_find?_eq_some hfind
    refine ⟨fun r => ?_, fun r => ?_⟩
    · rw [mem_answers]
      simp only [hlists, mem_answersOf_a]
      tauto
    · rw [mem_answers]
      simp only [hlists, mem_answersOf_aaaa]
      tauto

/-- Of two lines for a name the second one is not served. -/
theorem not_served_foo : ¬ ∀ text name, Served text name := by
  intro h
  have hentries : entries "10.0.0.1 foo\n10.0.0.2 foo"
      = [("foo", .v4 ⟨#v[10, 0, 0, 1]⟩), ("foo", .v4 ⟨#v[10, 0, 0, 2]⟩)] := by
    decide +kernel
  have hlists : Lists "10.0.0.1 foo\n10.0.0.2 foo" "foo" (.v4 ⟨#v[10, 0, 0, 2]⟩) := by
    rw [← mem_entries, hentries]
    simp
  have hserved := ((h "10.0.0.1 foo\n10.0.0.2 foo" "foo").a _).mpr ⟨_, hlists, rfl⟩
  rw [mem_answers, hentries] at hserved
  obtain ⟨e, hfind, hmem⟩ := hserved
  have he : ("foo", IpAddr.v4 ⟨#v[10, 0, 0, 1]⟩) = e := Option.some.inj hfind
  rw [← he] at hmem
  revert hmem
  decide

end HostsFilter
