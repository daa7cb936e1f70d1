/-
# Whose records the chain answers with

A name that is not delegated is answered from the records of its domain.  They are searched twice:
for records of the name itself, which get the queried name as their owner, and, if there are none,
for records under `*`.  In both passes the owner of a PTR record is left as it is.  A query is
therefore answered under the queried name exactly if it does not ask for PTR records, or if those
that stand for the name all spell it out.
-/
import Ruvname.RuvchainZones

open Exec

namespace BlockchainFilter

variable {qname subdomain : String} {qtype : QueryType} {records answers : List DnsRecord}
  {r x : DnsRecord}

/-! ## What the answers should be -/

/-- The record stands for the queried name: under the whole name, under its part before the domain,
or, if the name is the domain, under `@`. -/
def StandsFor (qname subdomain : String) (r : DnsRecord) : Prop :=
  r.getDomain = some qname ∨ r.getDomain = some subdomain ∨ (r.getDomain = some "@" ∧ subdomain = "")

/-- The record with another owner. -/
def withOwner (qname : String) : DnsRecord → DnsRecord
  | .ptr _ data ttl => .ptr qname data ttl
  | r => rename qname r

/-- Some record of this type stands for the name. -/
def Has (qname subdomain : String) (records : List DnsRecord) (t : QueryType) : Prop :=
  ∃ x ∈ records, x.getQuerytype = t ∧ StandsFor qname subdomain x

/-- **The answers are owned by the queried name.** -/
structure Owned (qname subdomain : String) (qtype : QueryType) (records answers : List DnsRecord) :
    Prop where
  owner : ∀ r ∈ answers, r.getDomain = some qname
  /-- An alias stands in for records of the type asked for. -/
  aliased : ¬ Has qname subdomain records qtype → Has qname subdomain records .cname →
    ∃ r, answers = [r] ∧ r.getQuerytype = .cname
  typed : Has qname subdomain records qtype ∨ ¬ Has qname subdomain records .cname →
    ∀ r ∈ answers, r.getQuerytype = qtype
  /-- A record under `*` stands in for records of the name. -/
  source : ∀ r ∈ answers, ∃ x ∈ records, r = withOwner qname x ∧
    (StandsFor qname subdomain x ∨ (x.getDomain = some "*" ∧
      ¬ Has qname subdomain records qtype ∧ ¬ Has qname subdomain records .cname))

/-- A PTR record with this owner. -/
def PtrUnder (records : List DnsRecord) (owner : String) : Prop :=
  ∃ x ∈ records, x.getQuerytype = .ptr ∧ x.getDomain = some owner

/-- **No PTR record is in the way.**  None has the part of the name before the domain as its owner.
If none has the whole name as its owner, then there is none under `@` that an alias would be taken
for, or, without an alias, none under `*`. -/
def PtrSpelledOut (qname subdomain : String) (records : List DnsRecord) : Prop :=
  ¬ PtrUnder records subdomain ∧ (PtrUnder records qname ∨
    (Has qname subdomain records .cname ∧ ¬ (subdomain = "" ∧ PtrUnder records "@")) ∨
    (¬ Has qname subdomain records .cname ∧ ¬ PtrUnder records "*"))

/-! ## The two passes -/

@[simp] theorem getQuerytype_rename : (rename qname r).getQuerytype = r.getQuerytype := by
  cases r <;> rfl

/-- A record after the first pass. -/
def marked (qname : String) (qtype : QueryType) (subdomain : String) (r : DnsRecord) : DnsRecord :=
  if (r.getQuerytype = qtype ∨ r.getQuerytype = .cname)
      ∧ ((r.getDomain = some "@" ∧ subdomain = "") ∨ r.getDomain = some subdomain) then
    rename qname r
  else r

@[simp] theorem getQuerytype_marked :
    (marked qname qtype subdomain r).getQuerytype = r.getQuerytype := by
  unfold marked
  split
  · exact getQuerytype_rename
  · rfl

/-- The first pass finds the record. -/
def Found (qname : String) (qtype : QueryType) (subdomain : String) (r : DnsRecord) : Prop :=
  (marked qname qtype subdomain r).getDomain = some qname
    ∨ (marked qname qtype subdomain r).getDomain = some subdomain

instance : DecidablePred (Found qname qtype subdomain) := fun _ => inferInstanceAs (Decidable (_ ∨ _))

/-- The record as the first pass leaves it, if it has this type and is found. -/
def ifFound (qname : String) (qtype : QueryType) (subdomain : String) (t : QueryType) (r : DnsRecord) :
    List DnsRecord :=
  if r.getQuerytype = t ∧ Found qname qtype subdomain r then [marked qname qtype subdomain r] else []

/-- The records of a type that the first pass finds. -/
def found (qname : String) (qtype : QueryType) (subdomain : String) (records : List DnsRecord)
    (t : QueryType) : List DnsRecord :=
  records.flatMap (ifFound qname qtype subdomain t)

theorem mem_found {t : QueryType} : r ∈ found qname qtype subdomain records t ↔
    ∃ x ∈ records, x.getQuerytype = t ∧ Found qname qtype subdomain x
      ∧ r = marked qname qtype subdomain x := by
  simp only [found, ifFound, List.mem_flatMap]
  refine exists_congr fun x => and_congr_right fun _ => ?_
  split
  · rename_i h
    simp [h]
  · rename_i h
    simp only [List.not_mem_nil, false_iff]
    exact fun h' => h ⟨h'.1, h'.2.1⟩

/-- One record. -/
theorem searchStep_eq (acc : Search) (x : DnsRecord) :
    searchStep qname qtype subdomain acc x =
      { records := acc.records ++ [marked qname qtype subdomain x]
        answers := acc.answers ++
          if qtype = .cname then [] else ifFound qname qtype subdomain qtype x
        cname := (ifFound qname qtype subdomain .cname x).head?.or acc.cname } := by
  unfold searchStep ifFound
  by_cases hasked : x.getQuerytype = qtype ∨ x.getQuerytype = .cname
  · have hmarked : (if (x.getDomain = some "@" ∧ subdomain = "") ∨ x.getDomain = some subdomain then
        rename qname x else x) = marked qname qtype subdomain x := by
      unfold marked
      by_cases hstands : (x.getDomain = some "@" ∧ subdomain = "") ∨ x.getDomain = some subdomain
      · rw [if_pos hstands, if_pos ⟨hasked, hstands⟩]
      · rw [if_neg hstands, if_neg fun h => hstands h.2]
    rw [if_pos hasked, hmarked]
    dsimp only
    rw [getQuerytype_marked]
    by_cases hfound : Found qname qtype subdomain x
    · rw [if_pos (show _ ∨ _ from hfound)]
      by_cases hcname : x.getQuerytype = .cname
      · -- the last alias takes the place of the one before
        by_cases hqtype : qtype = .cname
        · subst hqtype
          simp [hcname, hfound]
        · simp [hcname, hfound, hqtype, Ne.symm hqtype]
      · have hqtype : x.getQuerytype = qtype := hasked.resolve_right hcname
        have hne : qtype ≠ .cname := fun h => hcname (hqtype.trans h)
        simp [hqtype, hfound, hne]
    · rw [if_neg (show ¬ (_ ∨ _) from hfound)]
      simp [hfound]
  · rw [if_neg hasked]
    rw [not_or] at hasked
    have hmarked : marked qname qtype subdomain x = x := by
      unfold marked
      rw [if_neg fun h => h.1.elim hasked.1 hasked.2]
    rw [hmarked]
    simp [hasked.1, hasked.2]

/-- **The first pass**: all records of the type asked for that it finds, and the last alias. -/
theorem foldl_searchStep :
    records.foldl (searchStep qname qtype subdomain) {} =
      { records := records.map (marked qname qtype subdomain)
        answers := if qtype = .cname then [] else found qname qtype subdomain records qtype
        cname := (found qname qtype subdomain records .cname).getLast? } := by
  induction records using List.reverseRecOn with
  | nil => simp [found]
  | append_singleton xs x ih =>
    rw [List.foldl_append, ih, List.foldl_cons, List.foldl_nil, searchStep_eq]
    have happend : ∀ t, found qname qtype subdomain (xs ++ [x]) t
        = found qname qtype subdomain xs t ++ ifFound qname qtype subdomain t x := by
      intro t
      unfold found
      rw [List.flatMap_append, List.flatMap_singleton]
    have hlast : (ifFound qname qtype subdomain .cname x).head?
        = (ifFound qname qtype subdomain .cname x).getLast? := by
      unfold ifFound
      split
      · rfl
      · rfl
    rw [happend, happend, List.map_append, List.map_singleton, List.getLast?_append, hlast]
    split
    · rfl
    · rfl

/-- **The second pass.** -/
theorem foldl_wildcardStep (domainExists : Bool) :
    (records.foldl (wildcardStep qname qtype subdomain) ([], domainExists)).1 =
      (records.filter fun r => r.getQuerytype = qtype ∧ r.getDomain = some "*").map (rename qname) := by
  induction records using List.reverseRecOn with
  | nil => rfl
  | append_singleton xs y ih =>
    rw [List.foldl_append, List.foldl_cons, List.foldl_nil, wildcardStep, ih, List.filter_append,
      List.map_append, List.filter_singleton]
    have hstar : y.getDomain.getD "" = "*" ↔ y.getDomain = some "*" := by
      cases y.getDomain with
      | none => simp
      | some domain => simp
    simp only [hstar]
    by_cases h : y.getQuerytype = qtype ∧ y.getDomain = some "*"
    · simp [h]
    · simp [h]

/-! ## What the passes find -/

/-- Another owner for every record that has one, PTR records apart. -/
theorem getDomain_rename (hptr : r.getQuerytype ≠ .ptr) {domain : String}
    (h : r.getDomain = some domain) : (rename qname r).getDomain = some qname := by
  cases r with
  | ptr => exact absurd rfl hptr
  | opt => cases h
  | _ => rfl

theorem rename_eq_withOwner (hptr : r.getQuerytype ≠ .ptr) : rename qname r = withOwner qname r := by
  cases r with
  | ptr => exact absurd rfl hptr
  | _ => rfl

theorem withOwner_self (h : r.getDomain = some qname) : withOwner qname r = r := by
  cases r with
  | opt => cases h
  | _ =>
    cases h
    rfl

theorem marked_of_ptr (hptr : r.getQuerytype = .ptr) : marked qname qtype subdomain r = r := by
  unfold marked
  split
  · cases r with
    | ptr => rfl
    | _ => cases hptr
  · rfl

theorem found_of_ptr (hptr : r.getQuerytype = .ptr) :
    Found qname qtype subdomain r ↔ r.getDomain = some qname ∨ r.getDomain = some subdomain := by
  unfold Found
  rw [marked_of_ptr hptr]

/-- A record of another type is found if it stands for the name, and then has the name as its
owner. -/
theorem found_of_ne_ptr (hptr : r.getQuerytype ≠ .ptr)
    (hasked : r.getQuerytype = qtype ∨ r.getQuerytype = .cname) :
    (Found qname qtype subdomain r ↔ StandsFor qname subdomain r) ∧
      (StandsFor qname subdomain r → marked qname qtype subdomain r = withOwner qname r
        ∧ (marked qname qtype subdomain r).getDomain = some qname) := by
  by_cases hstands : (r.getDomain = some "@" ∧ subdomain = "") ∨ r.getDomain = some subdomain
  · have hmarked : marked qname qtype subdomain r = rename qname r := by
      unfold marked
      rw [if_pos ⟨hasked, hstands⟩]
    have howner : (marked qname qtype subdomain r).getDomain = some qname := by
      rw [hmarked]
      rcases hstands with h | h
      · exact getDomain_rename hptr h.1
      · exact getDomain_rename hptr h
    refine ⟨⟨fun _ => ?_, fun _ => Or.inl howner⟩, fun _ => ⟨?_, howner⟩⟩
    · exact Or.inr hstands.symm
    · rw [hmarked, rename_eq_withOwner hptr]
  · have hmarked : marked qname qtype subdomain r = r := by
      unfold marked
      rw [if_neg fun h => hstands h.2]
    have hname : StandsFor qname subdomain r → r.getDomain = some qname :=
      fun h => h.resolve_right fun h' => hstands h'.symm
    unfold Found
    rw [hmarked]
    refine ⟨⟨fun h => ?_, fun h => Or.inl (hname h)⟩, fun h => ⟨(withOwner_self (hname h)).symm, hname h⟩⟩
    exact h.imp_right Or.inl

/-- What is found of a type other than PTR. -/
theorem of_mem_found {t : QueryType} (ht : t ≠ .ptr) (hasked : t = qtype ∨ t = .cname)
    (h : r ∈ found qname qtype subdomain records t) :
    r.getDomain = some qname ∧ r.getQuerytype = t ∧
      ∃ x ∈ records, x.getQuerytype = t ∧ StandsFor qname subdomain x ∧ r = withOwner qname x := by
  obtain ⟨x, hx, htype, hfound, rfl⟩ := mem_found.mp h
  have hspec : (Found qname qtype subdomain x ↔ StandsFor qname subdomain x) ∧ _ :=
    found_of_ne_ptr (by rw [htype]; exact ht) (by rw [htype]; exact hasked)
  have hstands := hspec.1.mp hfound
  obtain ⟨hmarked, howner⟩ := hspec.2 hstands
  exact ⟨howner, by rw [getQuerytype_marked, htype], x, hx, htype, hstands, hmarked⟩

theorem found_eq_nil {t : QueryType} (ht : t ≠ .ptr) (hasked : t = qtype ∨ t = .cname) :
    found qname qtype subdomain records t = [] ↔ ¬ Has qname subdomain records t := by
  constructor
  · rintro hnil ⟨x, hx, htype, hstands⟩
    have hspec : (Found qname qtype subdomain x ↔ StandsFor qname subdomain x) ∧ _ :=
      found_of_ne_ptr (by rw [htype]; exact ht) (by rw [htype]; exact hasked)
    have hmem := mem_found.mpr ⟨x, hx, htype, hspec.1.mpr hstands, rfl⟩
    rw [hnil] at hmem
    cases hmem
  · intro hnone
    rw [List.eq_nil_iff_forall_not_mem]
    intro r hr
    obtain ⟨-, -, x, hx, htype, hstands, -⟩ := of_mem_found ht hasked hr
    exact hnone ⟨x, hx, htype, hstands⟩

/-- What is found of PTR records. -/
theorem mem_found_ptr : r ∈ found qname qtype subdomain records .ptr ↔
    r ∈ records ∧ r.getQuerytype = .ptr ∧ (r.getDomain = some qname ∨ r.getDomain = some subdomain) := by
  rw [mem_found]
  constructor
  · rintro ⟨x, hx, htype, hfound, rfl⟩
    rw [marked_of_ptr htype]
    exact ⟨hx, htype, (found_of_ptr htype).mp hfound⟩
  · rintro ⟨hr, htype, howner⟩
    exact ⟨r, hr, htype, (found_of_ptr htype).mpr howner, (marked_of_ptr htype).symm⟩

/-- What the second pass answers. -/
def wildcards (qname : String) (qtype : QueryType) (subdomain : String) (records : List DnsRecord) :
    List DnsRecord :=
  ((records.map (marked qname qtype subdomain)).filter fun r =>
    r.getQuerytype = qtype ∧ r.getDomain = some "*").map (rename qname)

/-- The first pass has changed nothing that is under `*` afterwards. -/
theorem exists_of_mem_wildcards (hstar : qname ≠ "*")
    (h : r ∈ wildcards qname qtype subdomain records) :
    ∃ x ∈ records, x.getQuerytype = qtype ∧ x.getDomain = some "*" ∧ r = rename qname x := by
  simp only [wildcards, List.mem_map, List.mem_filter, decide_eq_true_eq] at h
  obtain ⟨y, ⟨⟨x, hx, rfl⟩, htype, hdomain⟩, rfl⟩ := h
  rw [getQuerytype_marked] at htype
  have hsame : marked qname qtype subdomain x = x := by
    by_cases hptr : x.getQuerytype = .ptr
    · exact marked_of_ptr hptr
    · unfold marked at hdomain ⊢
      split at hdomain
      · rename_i hstands
        obtain ⟨domain, hx⟩ : ∃ domain, x.getDomain = some domain :=
          hstands.2.elim (fun h => ⟨_, h.1⟩) fun h => ⟨_, h⟩
        rw [getDomain_rename hptr hx, Option.some.injEq] at hdomain
        exact absurd hdomain hstar
      · rename_i hstands
        rw [if_neg hstands]
  rw [hsame] at hdomain ⊢
  exact ⟨x, hx, htype, hdomain, rfl⟩

/-- A PTR record stays under `*`. -/
theorem mem_wildcards_ptr (hx : x ∈ records) (hptr : x.getQuerytype = .ptr)
    (hdomain : x.getDomain = some "*") : x ∈ wildcards qname .ptr subdomain records := by
  simp only [wildcards, List.mem_map, List.mem_filter, decide_eq_true_eq]
  refine ⟨x, ⟨⟨x, hx, marked_of_ptr hptr⟩, hptr, hdomain⟩, ?_⟩
  cases x with
  | ptr => rfl
  | _ => cases hptr

/-- **The three outcomes of the search.** -/
theorem findAnswers_cases (qname subdomain : String) (qtype : QueryType) (records : List DnsRecord) :
    (qtype ≠ .cname ∧ found qname qtype subdomain records qtype ≠ [] ∧
      (findAnswers qname qtype subdomain records).1 = found qname qtype subdomain records qtype) ∨
    ((qtype = .cname ∨ found qname qtype subdomain records qtype = []) ∧
      ∃ r ∈ found qname qtype subdomain records .cname,
        (findAnswers qname qtype subdomain records).1 = [r]) ∨
    (found qname qtype subdomain records qtype = [] ∧ found qname qtype subdomain records .cname = [] ∧
      (findAnswers qname qtype subdomain records).1 = wildcards qname qtype subdomain records) := by
  unfold findAnswers wildcards
  rw [foldl_searchStep]
  dsimp only
  by_cases hown : (if qtype = .cname then [] else found qname qtype subdomain records qtype) = []
  · have hnone : qtype = .cname ∨ found qname qtype subdomain records qtype = [] := by
      by_cases hcname : qtype = .cname
      · exact Or.inl hcname
      · rw [if_neg hcname] at hown
        exact Or.inr hown
    rw [if_pos hown]
    right
    cases hlast : (found qname qtype subdomain records .cname).getLast? with
    | none =>
      have hnil := List.getLast?_eq_none_iff.mp hlast
      refine Or.inr ⟨?_, hnil, ?_⟩
      · rcases hnone with h | h
        · rw [h] at hnil ⊢
          exact hnil
        · exact h
      · rw [if_pos (by rfl), foldl_wildcardStep]
    | some r =>
      refine Or.inl ⟨hnone, r, List.mem_of_getLast? hlast, ?_⟩
      rw [if_neg (by simp)]
      rfl
  · have hcname : qtype ≠ .cname := by
      intro h
      rw [if_pos h] at hown
      exact hown rfl
    rw [if_neg hcname] at hown ⊢
    exact Or.inl ⟨hcname, hown, by rw [if_neg hown, if_neg hown]⟩

/-! ## Whose the answers are -/

/-- Other records than PTR records are answered under the queried name. -/
theorem owned_of_ne_ptr (hptr : qtype ≠ .ptr) (hstar : qname ≠ "*") :
    Owned qname subdomain qtype records (findAnswers qname qtype subdomain records).1 := by
  have hcname : (.cname : QueryType) ≠ .ptr := by decide
  rcases findAnswers_cases qname subdomain qtype records with ⟨-, hsome, heq⟩ | ⟨hnone, r, hr, heq⟩
    | ⟨hnone, halias, heq⟩
  · -- records of the type asked for
    have hhas : Has qname subdomain records qtype := by
      by_contra h
      exact hsome ((found_eq_nil hptr (Or.inl rfl)).mpr h)
    rw [heq]
    refine ⟨fun r hr => ?_, fun h => absurd hhas h, fun _ r hr => ?_, fun r hr => ?_⟩
    · exact (of_mem_found hptr (Or.inl rfl) hr).1
    · exact (of_mem_found hptr (Or.inl rfl) hr).2.1
    · obtain ⟨-, -, x, hx, -, hstands, hrx⟩ := of_mem_found hptr (Or.inl rfl) hr
      exact ⟨x, hx, hrx, Or.inl hstands⟩
  · -- an alias
    obtain ⟨howner, htype, x, hx, hxtype, hstands, hrx⟩ := of_mem_found hcname (Or.inr rfl) hr
    rw [heq]
    refine ⟨fun r' hr' => ?_, fun _ _ => ⟨r, rfl, htype⟩, fun h r' hr' => ?_, fun r' hr' => ?_⟩
    · rw [List.mem_singleton.mp hr', howner]
    · rw [List.mem_singleton.mp hr', htype]
      rcases h with h | h
      · rcases hnone with hc | hnil
        · exact hc.symm
        · exact absurd h ((found_eq_nil hptr (Or.inl rfl)).mp hnil)
      · exact absurd ⟨x, hx, hxtype, hstands⟩ h
    · rw [List.mem_singleton.mp hr']
      exact ⟨x, hx, hrx, Or.inl hstands⟩
  · -- records under `*`
    have hnoOwn := (found_eq_nil hptr (Or.inl rfl)).mp hnone
    have hnoAlias := (found_eq_nil hcname (Or.inr rfl)).mp halias
    rw [heq]
    refine ⟨fun r hr => ?_, fun _ h => absurd h hnoAlias, fun _ r hr => ?_, fun r hr => ?_⟩
    · obtain ⟨x, -, htype, hdomain, rfl⟩ := exists_of_mem_wildcards hstar hr
      exact getDomain_rename (htype ▸ hptr) hdomain
    · obtain ⟨x, -, htype, -, rfl⟩ := exists_of_mem_wildcards hstar hr
      rw [getQuerytype_rename, htype]
    · obtain ⟨x, hx, htype, hdomain, rfl⟩ := exists_of_mem_wildcards hstar hr
      exact ⟨x, hx, rename_eq_withOwner (htype ▸ hptr), Or.inr ⟨hdomain, hnoOwn, hnoAlias⟩⟩

/-- A PTR record that stands for the name is found, or it is under `@`. -/
theorem ptrUnder_of_has (qtype : QueryType) (h : Has qname subdomain records .ptr) :
    found qname qtype subdomain records .ptr ≠ [] ∨ (subdomain = "" ∧ PtrUnder records "@") := by
  obtain ⟨x, hx, htype, hname | hsub | ⟨hat, hempty⟩⟩ := h
  · exact Or.inl (List.ne_nil_of_mem (mem_found_ptr.mpr ⟨hx, htype, Or.inl hname⟩))
  · exact Or.inl (List.ne_nil_of_mem (mem_found_ptr.mpr ⟨hx, htype, Or.inr hsub⟩))
  · exact Or.inr ⟨hempty, x, hx, htype, hat⟩

theorem not_ptrUnder_of_found (h : found qname qtype subdomain records .ptr = []) :
    ¬ PtrUnder records qname ∧ ¬ PtrUnder records subdomain := by
  constructor
  · rintro ⟨x, hx, htype, hname⟩
    exact List.ne_nil_of_mem (mem_found_ptr.mpr ⟨hx, htype, Or.inl hname⟩) h
  · rintro ⟨x, hx, htype, hsub⟩
    exact List.ne_nil_of_mem (mem_found_ptr.mpr ⟨hx, htype, Or.inr hsub⟩) h

/-- PTR records that are found each have the whole name or the part of it. -/
theorem owned_found_ptr_iff (hsub : qname ≠ subdomain)
    (hsome : found qname .ptr subdomain records .ptr ≠ []) :
    Owned qname subdomain .ptr records (found qname .ptr subdomain records .ptr)
      ↔ PtrSpelledOut qname subdomain records := by
  obtain ⟨r, hr⟩ := List.exists_mem_of_ne_nil _ hsome
  constructor
  · intro howned
    have hrelative : ¬ PtrUnder records subdomain := by
      rintro ⟨x, hx, htype, hdomain⟩
      have howner := howned.owner x (mem_found_ptr.mpr ⟨hx, htype, Or.inr hdomain⟩)
      rw [hdomain, Option.some.injEq] at howner
      exact hsub howner.symm
    obtain ⟨hmem, htype, -⟩ := mem_found_ptr.mp hr
    exact ⟨hrelative, Or.inl ⟨r, hmem, htype, howned.owner r hr⟩⟩
  · rintro ⟨hrelative, -⟩
    have hspelled : ∀ r ∈ found qname .ptr subdomain records .ptr,
        r ∈ records ∧ r.getQuerytype = .ptr ∧ r.getDomain = some qname := by
      intro r hr
      obtain ⟨hmem, htype, howner⟩ := mem_found_ptr.mp hr
      exact ⟨hmem, htype, howner.resolve_right fun h => hrelative ⟨r, hmem, htype, h⟩⟩
    refine ⟨fun r hr => (hspelled r hr).2.2, fun h => ?_, fun _ r hr => (hspelled r hr).2.1,
      fun r hr => ?_⟩
    · obtain ⟨hmem, htype, howner⟩ := hspelled r hr
      exact absurd ⟨r, hmem, htype, Or.inl howner⟩ h
    · obtain ⟨hmem, -, howner⟩ := hspelled r hr
      exact ⟨r, hmem, (withOwner_self howner).symm, Or.inl (Or.inl howner)⟩

/-- An alias is the answer if no PTR record is found. -/
theorem owned_alias_ptr_iff {r : DnsRecord} (hnil : found qname .ptr subdomain records .ptr = [])
    (hr : r ∈ found qname .ptr subdomain records .cname) :
    Owned qname subdomain .ptr records [r] ↔ PtrSpelledOut qname subdomain records := by
  have hcname : (.cname : QueryType) ≠ .ptr := by decide
  obtain ⟨hname, hrelative⟩ := not_ptrUnder_of_found hnil
  obtain ⟨howner, htype, x, hx, hxtype, hstands, hrx⟩ := of_mem_found hcname (Or.inr rfl) hr
  have halias : Has qname subdomain records .cname := ⟨x, hx, hxtype, hstands⟩
  constructor
  · intro howned
    refine ⟨hrelative, Or.inr (Or.inl ⟨halias, ?_⟩)⟩
    rintro ⟨hempty, y, hy, hytype, hat⟩
    have hptr := howned.typed (Or.inl ⟨y, hy, hytype, Or.inr (Or.inr ⟨hat, hempty⟩)⟩) r
      List.mem_cons_self
    exact hcname (htype.symm.trans hptr)
  · rintro ⟨-, h | ⟨-, hat⟩ | ⟨h, -⟩⟩
    · exact absurd h hname
    · have hno : ¬ Has qname subdomain records .ptr := by
        intro h
        rcases ptrUnder_of_has .ptr h with hfound | hunder
        · exact hfound hnil
        · exact hat hunder
      refine ⟨fun r' hr' => ?_, fun _ _ => ⟨r, rfl, htype⟩, fun h => ?_, fun r' hr' => ?_⟩
      · rw [List.mem_singleton.mp hr', howner]
      · exact h.elim (fun h => absurd h hno) fun h => absurd halias h
      · rw [List.mem_singleton.mp hr']
        exact ⟨x, hx, hrx, Or.inl hstands⟩
    · exact absurd halias h

/-- What is under `*` stays there. -/
theorem owned_wildcards_ptr_iff (hstar : qname ≠ "*")
    (hnone : found qname .ptr subdomain records .ptr = [])
    (halias : found qname .ptr subdomain records .cname = []) :
    Owned qname subdomain .ptr records (wildcards qname .ptr subdomain records)
      ↔ PtrSpelledOut qname subdomain records := by
  have hcname : (.cname : QueryType) ≠ .ptr := by decide
  have hnoAlias := (found_eq_nil hcname (Or.inr rfl)).mp halias
  obtain ⟨hname, hrelative⟩ := not_ptrUnder_of_found hnone
  constructor
  · intro howned
    refine ⟨hrelative, Or.inr (Or.inr ⟨hnoAlias, ?_⟩)⟩
    rintro ⟨x, hx, htype, hdomain⟩
    have howner := howned.owner x (mem_wildcards_ptr hx htype hdomain)
    rw [hdomain, Option.some.injEq] at howner
    exact hstar howner.symm
  · rintro ⟨-, h | ⟨h, -⟩ | ⟨-, hwild⟩⟩
    · exact absurd h hname
    · exact absurd h hnoAlias
    · have hnil : wildcards qname .ptr subdomain records = [] := by
        rw [List.eq_nil_iff_forall_not_mem]
        intro r hr
        obtain ⟨x, hx, htype, hdomain, -⟩ := exists_of_mem_wildcards hstar hr
        exact hwild ⟨x, hx, htype, hdomain⟩
      rw [hnil]
      exact ⟨by simp, fun _ h => absurd h hnoAlias, by simp, by simp⟩

/-- PTR records are answered under the queried name if they spell it out. -/
theorem owned_ptr_iff (hstar : qname ≠ "*") (hsub : qname ≠ subdomain) :
    Owned qname subdomain .ptr records (findAnswers qname .ptr subdomain records).1
      ↔ PtrSpelledOut qname subdomain records := by
  rcases findAnswers_cases qname subdomain .ptr records with ⟨-, hsome, heq⟩ | ⟨hnone, r, hr, heq⟩
    | ⟨hnone, halias, heq⟩
  · rw [heq]
    exact owned_found_ptr_iff hsub hsome
  · rw [heq]
    exact owned_alias_ptr_iff (hnone.resolve_left (by decide)) hr
  · rw [heq]
    exact owned_wildcards_ptr_iff hstar hnone halias

/-! ## The answer of the lookup -/

section Lookup

variable {P : Platform} {sha256 : List UInt8 → List UInt8} {lookupFromNs : LookupFromNs}
  {now : UtcTime} {c : Chain} {zone name info : String} {rest : List String} {data : DomainData}

theorem answers_createPacket : (createPacket c qname qtype zone answers).answers = answers := by
  unfold createPacket
  split
  · rfl
  · rename_i h
    rw [not_not.mp h]
    rfl

/-- A name of two labels or more is another text than `*` and than its part before the domain. -/
theorem ne_of_rsplitn (hparts : (rsplitn 3 qname.toList).map String.ofList = zone :: name :: rest) :
    qname ≠ "*" ∧ qname ≠ rest.headD "" := by
  obtain ⟨z, zs, hsplit, -, hzs⟩ := List.map_eq_cons_iff.mp hparts
  obtain ⟨n, ns, rfl, -, hns⟩ := List.map_eq_cons_iff.mp hzs
  obtain ⟨front, hname, hfront⟩ := rsplitn_cons_cons hsplit
  have hdot : '.' ∈ qname.toList := by
    rw [hname]
    simp
  constructor
  · rintro rfl
    exact absurd hdot (by decide)
  · cases ns with
    | nil =>
      rw [← hns]
      rintro rfl
      exact absurd hdot (by decide)
    | cons sub ns =>
      -- the part before the domain is shorter than the name
      obtain ⟨front', hfront', hsub⟩ := rsplitn_cons_cons hfront
      rw [rsplitn, List.cons.injEq] at hsub
      rw [← hns, List.map_cons, List.headD_cons, ← hsub.1]
      intro heq
      have hlength := congrArg List.length (congrArg String.toList heq)
      rw [String.toList_ofList, hname, hfront'] at hlength
      simp only [List.length_append, List.length_cons] at hlength
      omega

theorem lookupDomain_own {topDomain : String} (subdomain zone : String)
    (hinfo : c.getDomainInfo P sha256 now topDomain = .ok (some info))
    (hdata : P.parseDomainData info = .ok (some data))
    (hown : (resolveByNs lookupFromNs qname qtype topDomain data).1 = false) :
    ∃ packet, lookupDomain P sha256 lookupFromNs now c qname qtype topDomain subdomain zone
        = .ok (some packet)
      ∧ packet.answers = (findAnswers qname qtype subdomain data.records).1 := by
  unfold lookupDomain
  rw [hinfo, ok_bind]
  dsimp only
  rw [hdata, ok_bind]
  dsimp only
  rw [if_neg (by rw [hown]; exact Bool.false_ne_true)]
  refine ⟨_, rfl, ?_⟩
  split
  · exact answers_createPacket
  · exact answers_createPacket

/-- **Answers are owned by the queried name** exactly if the query is not for PTR records, or those
of the domain spell the name out. -/
theorem lookup_owned_iff
    (hparts : (rsplitn 3 qname.toList).map String.ofList = zone :: name :: rest)
    (hinfo : c.getDomainInfo P sha256 now (name ++ "." ++ zone) = .ok (some info))
    (hdata : P.parseDomainData info = .ok (some data))
    (hown : (resolveByNs lookupFromNs qname qtype (name ++ "." ++ zone) data).1 = false) :
    ∃ packet, lookup P sha256 lookupFromNs now c qname qtype = .ok (some packet) ∧
      (Owned qname (rest.headD "") qtype data.records packet.answers
        ↔ (qtype = .ptr → PtrSpelledOut qname (rest.headD "") data.records)) := by
  have hlookup : lookup P sha256 lookupFromNs now c qname qtype
      = lookupDomain P sha256 lookupFromNs now c qname qtype (name ++ "." ++ zone) (rest.headD "") zone := by
    unfold lookup
    rw [hparts]
    cases rest with
    | nil => rfl
    | cons sub rest => rfl
  obtain ⟨packet, hpacket, hanswers⟩ := lookupDomain_own (rest.headD "") zone hinfo hdata hown
  obtain ⟨hstar, hsub⟩ := ne_of_rsplitn hparts
  refine ⟨packet, hlookup.trans hpacket, ?_⟩
  rw [hanswers]
  by_cases hptr : qtype = .ptr
  · subst hptr
    rw [owned_ptr_iff hstar hsub]
    exact ⟨fun h _ => h, fun h => h rfl⟩
  · exact ⟨fun _ h => absurd h hptr, fun _ => owned_of_ne_ptr hptr hstar⟩

end Lookup

end BlockchainFilter

/-! ## A PTR record, spelled out and not -/

namespace Sample

/-- Data with a PTR record under `www`. -/
def ptrText : String := "\x7b\"encrypted\":\"\",\"zone\":\"ruv\",\"records\":["
  ++ "\x7b\"type\":\"PTR\",\"domain\":\"www\",\"data\":\"foo.ruv\",\"ttl\":60\x7d]\x7d"

/-- Data with a PTR record under `www.foo.ruv`. -/
def spelledText : String := "\x7b\"encrypted\":\"\",\"zone\":\"ruv\",\"records\":["
  ++ "\x7b\"type\":\"PTR\",\"domain\":\"www.foo.ruv\",\"data\":\"foo.ruv\",\"ttl\":60\x7d]\x7d"

/-- The platform of the concrete runs, which also reads these texts. -/
def ptrPlatform : Platform :=
  { platform true with
    readDomainJson := fun s =>
      if s = ptrText then some ("", some fun bytes => ⟨bytes, "ruv", "", [.ptr "www" "foo.ruv" 60], []⟩)
      else if s = spelledText then
        some ("", some fun bytes => ⟨bytes, "ruv", "", [.ptr "www.foo.ruv" "foo.ruv" 60], []⟩)
      else none }

end Sample

namespace BlockchainFilter

open Sample

theorem ptrSpelledOut_foo : PtrSpelledOut "www.foo.ruv" "www" [.ptr "www.foo.ruv" "foo.ruv" 60] := by
  constructor
  · rintro ⟨x, hx, -, hdomain⟩
    rw [List.mem_singleton.mp hx] at hdomain
    exact absurd hdomain (by decide)
  · exact Or.inl ⟨_, List.mem_singleton.mpr rfl, rfl, rfl⟩

/-- A PTR record under the whole name is answered. -/
theorem lookup_owned_spelledOut : ∃ c packet,
    lookup ptrPlatform sha256 (fun _ _ _ => none) now c "www.foo.ruv" .ptr = .ok (some packet) ∧
      packet.answers = [.ptr "www.foo.ruv" "foo.ruv" 60] ∧
      Owned "www.foo.ruv" "www" .ptr [.ptr "www.foo.ruv" "foo.ruv" 60] packet.answers := by
  have hrun : ∃ c, Chain.appendAll ptrPlatform now [genesis, foo spelledText, afterFoo]
      (Chain.new genesis.hash Db.empty) = .ok (some c)
      ∧ c.getDomainInfo ptrPlatform sha256 now "foo.ruv" = .ok (some spelledText)
      ∧ ∃ packet, lookup ptrPlatform sha256 (fun _ _ _ => none) now c "www.foo.ruv" .ptr
        = .ok (some packet) ∧ packet.answers = [.ptr "www.foo.ruv" "foo.ruv" 60] := by
    decide +kernel
  obtain ⟨c, -, hinfo, packet, hlookup, hanswers⟩ := hrun
  have hparts : (rsplitn 3 "www.foo.ruv".toList).map String.ofList = ["ruv", "foo", "www"] := by
    decide +kernel
  have hparse : ptrPlatform.parseDomainData spelledText
      = .ok (some ⟨Bytes.default, "ruv", "", [.ptr "www.foo.ruv" "foo.ruv" 60], []⟩) := by
    decide +kernel
  obtain ⟨packet', hlookup', howned⟩ : ∃ packet,
      lookup ptrPlatform sha256 (fun _ _ _ => none) now c "www.foo.ruv" .ptr = .ok (some packet) ∧
        (Owned "www.foo.ruv" "www" .ptr [.ptr "www.foo.ruv" "foo.ruv" 60] packet.answers ↔ _) :=
    lookup_owned_iff hparts hinfo hparse rfl
  rw [hlookup, Except.ok.injEq, Option.some.injEq] at hlookup'
  subst hlookup'
  exact ⟨c, packet, hlookup, hanswers, howned.mpr fun _ => ptrSpelledOut_foo⟩

/-- A PTR record of `www.foo.ruv` is answered under `www`. -/
theorem not_owned_foo : ∃ c packet,
    Run (Chain.Step ptrPlatform) (fun _ a => ∃ b, a = .append now b)
      (Chain.new genesis.hash Db.empty) c ∧
    c.getDomainInfo ptrPlatform sha256 now "foo.ruv" = .ok (some ptrText) ∧
    ptrPlatform.parseDomainData ptrText
      = .ok (some ⟨Bytes.default, "ruv", "", [.ptr "www" "foo.ruv" 60], []⟩) ∧
    lookup ptrPlatform sha256 (fun _ _ _ => none) now c "www.foo.ruv" .ptr = .ok (some packet) ∧
    packet.answers = [.ptr "www" "foo.ruv" 60] ∧
    ¬ Owned "www.foo.ruv" "www" .ptr [.ptr "www" "foo.ruv" 60] packet.answers := by
  have hrun : ∃ c, Chain.appendAll ptrPlatform now [genesis, foo ptrText, afterFoo]
      (Chain.new genesis.hash Db.empty) = .ok (some c)
      ∧ c.getDomainInfo ptrPlatform sha256 now "foo.ruv" = .ok (some ptrText)
      ∧ ∃ packet, lookup ptrPlatform sha256 (fun _ _ _ => none) now c "www.foo.ruv" .ptr
        = .ok (some packet) ∧ packet.answers = [.ptr "www" "foo.ruv" 60] := by
    decide +kernel
  obtain ⟨c, hc, hinfo, packet, hlookup, hanswers⟩ := hrun
  refine ⟨c, packet, Chain.appendAll_run (fun _ b _ => ⟨b, rfl⟩) hc, hinfo, by decide +kernel, hlookup,
    hanswers, ?_⟩
  intro howned
  have howner := howned.owner (.ptr "www" "foo.ruv" 60) (by rw [hanswers]; exact List.mem_cons_self)
  exact absurd howner (by decide)

end BlockchainFilter
