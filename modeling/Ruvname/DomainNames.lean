/-
# The names of domains

`check_domain` of `commons/mod.rs` against the grammar of names: labels of letters, digits and single
hyphens, with dots between them.  The scanner remembers a dot and a hyphen until the next letter or
digit, and refuses a second one of the same kind only, so that a hyphen next to a dot passes; and
nothing refuses the empty name.  Apart from these names it accepts the grammar.
-/
import Ruvname.DomainMining
import Ruvname.HexText
import Ruvname.RuvchainZones

/-! ## The grammar -/

/-- A label: letters, digits and single hyphens between them. -/
structure IsLabel (label : List Char) : Prop where
  ne_nil : label ≠ []
  chars : ∀ c ∈ label, c.isAlphanum ∨ c = '-'
  head : label.head? ≠ some '-'
  last : label.getLast? ≠ some '-'
  hyphens : ¬ ['-', '-'] <:+: label

/-- **A name**: labels with dots between them; what comes before the last dot is no number of fewer
than three digits. -/
structure IsDomainName (isNumericChar : Char → Bool) (name : List Char) : Prop where
  labels : ∃ labels, labels ≠ [] ∧ name = ['.'].intercalate labels ∧ ∀ label ∈ labels, IsLabel label
  front : ∀ front last, name = front ++ '.' :: last → '.' ∉ last →
    ¬ (front.length < 3 ∧ isNumeric isNumericChar front)

/-! ## Reasons to refuse a name -/

/-- A dot or a hyphen. -/
def IsSeparator (c : Char) : Prop := c = '.' ∨ c = '-'

instance : DecidablePred IsSeparator := fun c => inferInstanceAs (Decidable (c = '.' ∨ c = '-'))

/-- The name begins or ends with a separator. -/
def Edged (name : List Char) : Prop :=
  (∃ c ∈ name.head?, IsSeparator c) ∨ ∃ c ∈ name.getLast?, IsSeparator c

/-- There is something else than letters, digits and separators. -/
def Outside (name : List Char) : Prop := ∃ c ∈ name, ¬ c.isAlphanum ∧ ¬ IsSeparator c

/-- A separator comes twice before the next letter or digit. -/
def Doubled (name : List Char) : Prop :=
  ∃ front x rest, name = front ++ x :: rest ∧ IsSeparator x ∧ x ∈ rest.takeWhile IsSeparator

/-- What comes before the last dot has fewer than three bytes, all of them digits. -/
def ShortNumeric (isNumericChar : Char → Bool) (name : List Char) : Prop :=
  ∃ front last, name = front ++ '.' :: last ∧ '.' ∉ last ∧ (String.ofList front).utf8ByteSize < 3
    ∧ isNumeric isNumericChar front

/-- A hyphen is next to a dot. -/
def Adjacent (name : List Char) : Prop :=
  ∃ front x y rest, name = front ++ x :: y :: rest ∧ IsSeparator x ∧ IsSeparator y ∧ x ≠ y

variable {isNumericChar : Char → Bool} {l rest : List Char} {c : Char}

theorem not_isSeparator_of_isAlphanum (h : c.isAlphanum) : ¬ IsSeparator c := by
  rintro (rfl | rfl)
  · exact absurd h (by decide)
  · exact absurd h (by decide)

theorem takeWhile_of_isSeparator (hc : IsSeparator c) :
    (c :: l).takeWhile IsSeparator = c :: l.takeWhile IsSeparator :=
  List.takeWhile_cons_of_pos (by simpa using hc)

theorem takeWhile_of_not_isSeparator (hc : ¬ IsSeparator c) : (c :: l).takeWhile IsSeparator = [] :=
  List.takeWhile_cons_of_neg (by simpa using hc)

/-! ## The scanner -/

theorem outside_cons : Outside (c :: l) ↔ (¬ c.isAlphanum ∧ ¬ IsSeparator c) ∨ Outside l := by
  unfold Outside
  simp only [List.mem_cons, exists_eq_or_imp]

theorem doubled_cons : Doubled (c :: l) ↔ (IsSeparator c ∧ c ∈ l.takeWhile IsSeparator) ∨ Doubled l := by
  constructor
  · rintro ⟨front, x, rest, heq, hx, hmem⟩
    cases front with
    | nil =>
      rw [List.nil_append, List.cons.injEq] at heq
      obtain ⟨rfl, rfl⟩ := heq
      exact Or.inl ⟨hx, hmem⟩
    | cons d front =>
      rw [List.cons_append, List.cons.injEq] at heq
      exact Or.inr ⟨front, x, rest, heq.2, hx, hmem⟩
  · rintro (⟨hc, hmem⟩ | ⟨front, x, rest, heq, hx, hmem⟩)
    · exact ⟨[], c, l, rfl, hc, hmem⟩
    · exact ⟨c :: front, x, rest, by rw [heq, List.cons_append], hx, hmem⟩

/-- **What the scanner accepts**, by induction on the name.  Its flags say which separators have
been since the last letter or digit. -/
theorem checkDomainChars_iff {lastDot lastHyphen : Bool} :
    checkDomainChars true lastDot lastHyphen l ↔ ¬ Outside l ∧ ¬ Doubled l
      ∧ (lastDot → '.' ∉ l.takeWhile IsSeparator) ∧ (lastHyphen → '-' ∉ l.takeWhile IsSeparator) := by
  induction l generalizing lastDot lastHyphen with
  | nil => simp [checkDomainChars, Outside, Doubled]
  | cons c l ih =>
    rw [outside_cons, doubled_cons]
    unfold checkDomainChars
    by_cases hdot : c = '.'
    · subst hdot
      have hsep : IsSeparator '.' := Or.inl rfl
      rw [if_pos ⟨rfl, rfl⟩, takeWhile_of_isSeparator hsep]
      cases lastDot
      · rw [if_neg Bool.false_ne_true, ih]
        simp [hsep]
        tauto
      · simp
    · by_cases hhyphen : c = '-'
      · subst hhyphen
        have hsep : IsSeparator '-' := Or.inr rfl
        rw [if_neg (fun h => hdot h.2), if_pos rfl, takeWhile_of_isSeparator hsep]
        cases lastHyphen
        · rw [if_neg Bool.false_ne_true, ih]
          simp [hsep]
          tauto
        · simp
      · have hsep : ¬ IsSeparator c := fun h => h.elim hdot hhyphen
        rw [if_neg (fun h => hdot h.2), if_neg hhyphen, takeWhile_of_not_isSeparator hsep]
        by_cases halnum : c.isAlphanum
        · rw [if_neg (not_not_intro halnum), ih]
          simp [hsep, halnum]
        · rw [if_pos halnum]
          simp [hsep, halnum]

/-! ## The grammar as a scanner -/

/-- Letters, digits, and separators one at a time, each after a letter or digit and before one. -/
def regular : Bool → List Char → Bool
  | closed, [] => closed
  | closed, c :: l =>
    if c.isAlphanum then regular true l else if IsSeparator c ∧ closed then regular false l else false

/-- No separator is next to a separator. -/
def Spaced (l : List Char) : Prop := l.IsChain fun x y => ¬ (IsSeparator x ∧ IsSeparator y)

theorem spaced_cons :
    Spaced (c :: l) ↔ (∀ d ∈ l.head?, ¬ (IsSeparator c ∧ IsSeparator d)) ∧ Spaced l := by
  cases l with
  | nil => simp [Spaced]
  | cons d l => simp [Spaced]

theorem not_spaced_iff : ¬ Spaced l ↔ Doubled l ∨ Adjacent l := by
  unfold Spaced
  rw [List.isChain_iff_forall_rel_of_append_cons_cons]
  constructor
  · intro h
    push Not at h
    obtain ⟨x, y, front, rest, heq, hx, hy⟩ := h
    by_cases hxy : x = y
    · subst hxy
      refine Or.inl ⟨front, x, x :: rest, heq, hx, ?_⟩
      rw [takeWhile_of_isSeparator hx]
      exact List.mem_cons_self
    · exact Or.inr ⟨front, x, y, rest, heq, hx, hy, hxy⟩
  · rintro (⟨front, x, rest, heq, hx, hmem⟩ | ⟨front, x, y, rest, heq, hx, hy, -⟩) h
    · cases rest with
      | nil => cases hmem
      | cons y rest =>
        by_cases hy : IsSeparator y
        · exact h heq ⟨hx, hy⟩
        · rw [takeWhile_of_not_isSeparator hy] at hmem
          cases hmem
    · exact h heq ⟨hx, hy⟩

/-- **What is regular**, by induction on the name. -/
theorem regular_iff {closed : Bool} : regular closed l ↔ ¬ Outside l
    ∧ (closed = false → ∃ c ∈ l.head?, ¬ IsSeparator c) ∧ (∀ c ∈ l.getLast?, ¬ IsSeparator c)
    ∧ Spaced l := by
  induction l generalizing closed with
  | nil =>
    cases closed
    · simp [regular]
    · simp [regular, Outside, Spaced]
  | cons c l ih =>
    rw [outside_cons, spaced_cons]
    unfold regular
    have hlast : (∀ d ∈ (c :: l).getLast?, ¬ IsSeparator d)
        ↔ (l = [] → ¬ IsSeparator c) ∧ ∀ d ∈ l.getLast?, ¬ IsSeparator d := by
      cases l with
      | nil => simp
      | cons d l => simp
    rw [hlast]
    by_cases halnum : c.isAlphanum
    · have hsep := not_isSeparator_of_isAlphanum halnum
      rw [if_pos halnum, ih]
      simp [halnum, hsep]
    · rw [if_neg halnum]
      by_cases hsep : IsSeparator c
      · cases closed
        · rw [if_neg (fun h => Bool.false_ne_true h.2)]
          simp [hsep]
        · rw [if_pos ⟨hsep, rfl⟩, ih]
          cases l with
          | nil => simp [hsep]
          | cons d l =>
            simp [hsep]
            tauto
      · rw [if_neg (fun h => hsep h.1)]
        simp [halnum, hsep]

/-- What is left of a label, from the beginning or after a letter or digit. -/
structure IsLabelRest (closed : Bool) (label : List Char) : Prop where
  chars : ∀ c ∈ label, c.isAlphanum ∨ c = '-'
  last : label.getLast? ≠ some '-'
  hyphens : ¬ ['-', '-'] <:+: label
  start : closed = false → ∃ c ∈ label.head?, c.isAlphanum

theorem isLabel_iff {label : List Char} : IsLabel label ↔ IsLabelRest false label := by
  constructor
  · rintro ⟨hne, hchars, hhead, hlast, hhyphens⟩
    refine ⟨hchars, hlast, hhyphens, fun _ => ?_⟩
    obtain ⟨c, rest, rfl⟩ := List.exists_cons_of_ne_nil hne
    refine ⟨c, rfl, (hchars c List.mem_cons_self).resolve_right ?_⟩
    rintro rfl
    exact hhead rfl
  · rintro ⟨hchars, hlast, hhyphens, hstart⟩
    obtain ⟨c, hc, halnum⟩ := hstart rfl
    refine ⟨?_, hchars, ?_, hlast, hhyphens⟩
    · rintro rfl
      cases hc
    · intro hhead
      rw [hhead, Option.mem_some_iff] at hc
      rw [← hc] at halnum
      exact absurd halnum (by decide)

/-- Letters, digits and hyphens in front of what is left of a label. -/
theorem isLabelRest_cons {closed : Bool} {label : List Char} : IsLabelRest closed (c :: label) ↔
    (c.isAlphanum ∧ IsLabelRest true label) ∨ (c = '-' ∧ closed ∧ IsLabelRest false label) := by
  have hhyphens : ['-', '-'] <:+: c :: label
      ↔ (c = '-' ∧ label.head? = some '-') ∨ ['-', '-'] <:+: label := by
    rw [List.infix_cons_iff, List.cons_prefix_cons]
    cases label with
    | nil => simp
    | cons d label => simp [eq_comm]
  constructor
  · rintro ⟨hchars, hlast, hno, hstart⟩
    rw [hhyphens, not_or] at hno
    have hrest : ∀ d ∈ label, d.isAlphanum ∨ d = '-' := fun d hd => hchars d (List.mem_cons_of_mem _ hd)
    cases label with
    | nil =>
      rcases hchars c List.mem_cons_self with halnum | rfl
      · exact Or.inl ⟨halnum, by simp, by simp, by simp, by simp⟩
      · exact absurd rfl hlast
    | cons d label =>
      rw [List.getLast?_cons_cons] at hlast
      rcases hchars c List.mem_cons_self with halnum | rfl
      · exact Or.inl ⟨halnum, hrest, hlast, hno.2, fun h => by cases h⟩
      · refine Or.inr ⟨rfl, ?_, hrest, hlast, hno.2, fun _ => ⟨d, rfl, ?_⟩⟩
        · cases closed
          · obtain ⟨x, hx, halnum⟩ := hstart rfl
            rw [List.head?_cons, Option.mem_some_iff] at hx
            rw [← hx] at halnum
            exact absurd halnum (by decide)
          · rfl
        · -- two hyphens do not follow one another
          refine (hrest d List.mem_cons_self).resolve_right ?_
          rintro rfl
          exact hno.1 ⟨rfl, rfl⟩
  · rintro (⟨halnum, hchars, hlast, hno, -⟩ | ⟨rfl, hclosed, hchars, hlast, hno, hstart⟩)
    · have hne : c ≠ '-' := by
        rintro rfl
        exact absurd halnum (by decide)
      refine ⟨List.forall_mem_cons.mpr ⟨Or.inl halnum, hchars⟩, ?_, ?_, fun _ => ⟨c, rfl, halnum⟩⟩
      · cases label with
        | nil => simpa using hne
        | cons d label => rwa [List.getLast?_cons_cons]
      · rw [hhyphens]
        exact fun h => h.elim (fun h => hne h.1) hno
    · obtain ⟨d, hd, halnum⟩ := hstart rfl
      cases label with
      | nil => cases hd
      | cons e label =>
        rw [List.head?_cons, Option.mem_some_iff] at hd
        subst hd
        refine ⟨List.forall_mem_cons.mpr ⟨Or.inr rfl, hchars⟩, ?_, ?_, fun h => ?_⟩
        · rwa [List.getLast?_cons_cons]
        · rw [hhyphens]
          rintro (⟨-, hhead⟩ | h)
          · rw [List.head?_cons, Option.some.injEq] at hhead
            rw [hhead] at halnum
            exact absurd halnum (by decide)
          · exact hno h
        · rw [h] at hclosed
          cases hclosed

/-- A label is regular, and what follows it decides. -/
theorem regular_append {closed : Bool} {label : List Char} (h : IsLabelRest closed label) :
    regular closed (label ++ rest) = regular true rest := by
  induction label generalizing closed with
  | nil =>
    cases closed
    · obtain ⟨c, hc, -⟩ := h.start rfl
      cases hc
    · rfl
  | cons c label ih =>
    rw [List.cons_append, regular]
    rcases isLabelRest_cons.mp h with ⟨halnum, hrest⟩ | ⟨rfl, hclosed, hrest⟩
    · rw [if_pos halnum, ih hrest]
    · rw [if_neg (by decide), if_pos ⟨Or.inr rfl, hclosed⟩, ih hrest]

/-- Labels with dots between them are regular, by induction on their list. -/
theorem regular_of_labels {closed : Bool} {label : List Char} {labels : List (List Char)}
    (h : IsLabelRest closed label) (hlabels : ∀ label ∈ labels, IsLabel label) :
    regular closed (['.'].intercalate (label :: labels)) := by
  induction labels generalizing closed label with
  | nil =>
    rw [List.intercalate_singleton, ← List.append_nil label, regular_append h]
    rfl
  | cons label' labels ih =>
    rw [List.intercalate_cons_cons, List.append_assoc, regular_append h, List.singleton_append]
    unfold regular
    rw [if_neg (by decide), if_pos ⟨Or.inl rfl, rfl⟩]
    exact ih (isLabel_iff.mp (hlabels label' List.mem_cons_self))
      fun label hlabel => hlabels label (List.mem_cons_of_mem _ hlabel)

/-- What is regular is made of labels, by induction on the name. -/
theorem exists_labels {closed : Bool} (h : regular closed l) : ∃ label labels,
    l = ['.'].intercalate (label :: labels) ∧ IsLabelRest closed label
      ∧ ∀ label ∈ labels, IsLabel label := by
  induction l generalizing closed with
  | nil =>
    refine ⟨[], [], rfl, ⟨by simp, by simp, by simp, fun hclosed => ?_⟩, by simp⟩
    rw [hclosed] at h
    cases h
  | cons c l ih =>
    unfold regular at h
    split_ifs at h with halnum hsep
    · obtain ⟨label, labels, rfl, hrest, hlabels⟩ := ih h
      exact ⟨c :: label, labels, by cases labels <;> simp,
        isLabelRest_cons.mpr (Or.inl ⟨halnum, hrest⟩), hlabels⟩
    · obtain ⟨label, labels, rfl, hrest, hlabels⟩ := ih h
      obtain ⟨rfl | rfl, hclosed⟩ := hsep
      · -- a dot: the next label begins
        refine ⟨[], label :: labels, rfl, ⟨by simp, by simp, by simp, fun hopen => ?_⟩, ?_⟩
        · rw [hopen] at hclosed
          cases hclosed
        · intro label' hlabel
          rcases List.mem_cons.mp hlabel with rfl | hlabel
          · exact isLabel_iff.mpr hrest
          · exact hlabels label' hlabel
      · exact ⟨'-' :: label, labels, by cases labels <;> simp,
          isLabelRest_cons.mpr (Or.inr ⟨rfl, hclosed, hrest⟩), hlabels⟩

/-- The labels of the grammar, for whole names. -/
theorem exists_labels_iff : (∃ labels, labels ≠ [] ∧ l = ['.'].intercalate labels
    ∧ ∀ label ∈ labels, IsLabel label) ↔ regular false l := by
  constructor
  · rintro ⟨labels, hne, rfl, hlabels⟩
    obtain ⟨label, labels, rfl⟩ := List.exists_cons_of_ne_nil hne
    exact regular_of_labels (isLabel_iff.mp (hlabels label List.mem_cons_self))
      fun label hlabel => hlabels label (List.mem_cons_of_mem _ hlabel)
  · intro h
    obtain ⟨label, labels, heq, hrest, hlabels⟩ := exists_labels h
    refine ⟨label :: labels, List.cons_ne_nil _ _, heq, fun label' hlabel => ?_⟩
    rcases List.mem_cons.mp hlabel with rfl | hlabel
    · exact isLabel_iff.mpr hrest
    · exact hlabels label' hlabel

theorem regular_false_iff : regular false l ↔ l ≠ [] ∧ ¬ Edged l ∧ ¬ Outside l ∧ Spaced l := by
  rw [regular_iff]
  unfold Edged
  cases l with
  | nil => simp
  | cons c l =>
    simp
    tauto

/-! ## What comes before the last dot -/

/-- A name has a last dot, or none. -/
theorem rsplitn_two (l : List Char) :
    (∃ front last, rsplitn 2 l = [last, front] ∧ l = front ++ '.' :: last ∧ '.' ∉ last)
      ∨ (rsplitn 2 l = [l] ∧ '.' ∉ l) := by
  unfold rsplitn
  split
  · rename_i hnil
    right
    refine ⟨rfl, fun hdot => ?_⟩
    rw [List.dropWhile_eq_nil_iff] at hnil
    simpa using hnil '.' (List.mem_reverse.mpr hdot)
  · rename_i x rest hdrop
    left
    refine ⟨_, _, rfl, ?_, ?_⟩
    · have hsplit : rsplitn 2 l = (l.reverse.takeWhile (· ≠ '.')).reverse :: rest.reverse :: [] := by
        rw [rsplitn, hdrop]
        rfl
      obtain ⟨front, heq, hfront⟩ := rsplitn_cons_cons hsplit
      rw [rsplitn, List.cons.injEq] at hfront
      rw [← hfront.1]
      exact heq
    · rw [List.mem_reverse]
      exact notMem_takeWhile_ne

/-- The last dot is where a name is split. -/
theorem last_dot_unique {front front' last last' : List Char}
    (h : front ++ '.' :: last = front' ++ '.' :: last') (hlast : '.' ∉ last) (hlast' : '.' ∉ last') : front = front' ∧ last = last' := by
  rcases List.append_eq_append_iff.mp h with ⟨mid, rfl, heq⟩ | ⟨mid, rfl, heq⟩
  · cases mid with
    | nil =>
      rw [List.nil_append, List.cons.injEq] at heq
      exact ⟨(List.append_nil _).symm, heq.2⟩
    | cons d mid =>
      rw [List.cons_append, List.cons.injEq] at heq
      exact absurd (by rw [heq.2]; simp) hlast
  · cases mid with
    | nil =>
      rw [List.nil_append, List.cons.injEq] at heq
      exact ⟨List.append_nil _, heq.2.symm⟩
    | cons d mid =>
      rw [List.cons_append, List.cons.injEq] at heq
      exact absurd (by rw [heq.2]; simp) hlast'

/-- Letters, digits and separators have one byte each. -/
theorem utf8ByteSize_of_not_outside {front : List Char} (h : ¬ Outside front) :
    (String.ofList front).utf8ByteSize = front.length := by
  refine utf8ByteSize_ofList fun c hc => ?_
  have hascii : c.toNat ≤ 127 := by
    by_cases halnum : c.isAlphanum
    · simp only [Char.isAlphanum, Char.isAlpha, Char.isUpper, Char.isLower, Char.isDigit,
        Bool.or_eq_true, Bool.and_eq_true, decide_eq_true_eq, UInt32.le_iff_toNat_le, ge_iff_le] at halnum
      change ((65 ≤ c.toNat ∧ c.toNat ≤ 90) ∨ (97 ≤ c.toNat ∧ c.toNat ≤ 122))
        ∨ (48 ≤ c.toNat ∧ c.toNat ≤ 57) at halnum
      omega
    · rcases not_not.mp fun hsep => h ⟨c, hc, halnum, hsep⟩ with rfl | rfl
      · decide
      · decide
  rw [Char.utf8Size_eq_one_iff, UInt32.le_iff_toNat_le]
  exact hascii

theorem isDomainName_iff :
    IsDomainName isNumericChar l ↔ regular false l ∧ ¬ ShortNumeric isNumericChar l := by
  have hsize : regular false l → ∀ front last, l = front ++ '.' :: last →
      (String.ofList front).utf8ByteSize = front.length := by
    intro hregular front last heq
    refine utf8ByteSize_of_not_outside fun ⟨c, hc, hout⟩ => ?_
    refine (regular_false_iff.mp hregular).2.2.1 ⟨c, ?_, hout⟩
    rw [heq]
    exact List.mem_append_left _ hc
  constructor
  · rintro ⟨hlabels, hfront⟩
    have hregular := exists_labels_iff.mp hlabels
    refine ⟨hregular, ?_⟩
    rintro ⟨front, last, heq, hdot, hshort, hnumeric⟩
    rw [hsize hregular front last heq] at hshort
    exact hfront front last heq hdot ⟨hshort, hnumeric⟩
  · rintro ⟨hregular, hshort⟩
    refine ⟨exists_labels_iff.mpr hregular, fun front last heq hdot ⟨hlength, hnumeric⟩ => ?_⟩
    exact hshort ⟨front, last, heq, hdot, by rwa [hsize hregular front last heq], hnumeric⟩

/-- **What `check_domain` accepts.** -/
theorem checkDomain_iff {name : String} : checkDomain isNumericChar name true ↔ ¬ Edged name.toList
    ∧ ¬ ShortNumeric isNumericChar name.toList ∧ ¬ Outside name.toList ∧ ¬ Doubled name.toList := by
  have hscan : checkDomainChars true false false name.toList
      ↔ ¬ Outside name.toList ∧ ¬ Doubled name.toList := by
    rw [checkDomainChars_iff]
    simp
  unfold checkDomain
  dsimp only
  have hedged : (name.toList.head? = some '.' ∨ name.toList.head? = some '-'
      ∨ name.toList.getLast? = some '.' ∨ name.toList.getLast? = some '-') ↔ Edged name.toList := by
    have hor : ∀ o : Option Char, (∃ c ∈ o, IsSeparator c) ↔ o = some '.' ∨ o = some '-' := by
      intro o
      cases o with
      | none => simp
      | some c => simp [IsSeparator]
    unfold Edged
    rw [hor, hor]
    tauto
  by_cases h : Edged name.toList
  · rw [if_pos (hedged.mpr h)]
    simp [h]
  · rw [if_neg (fun h' => h (hedged.mp h'))]
    rcases rsplitn_two name.toList with ⟨front, last, hsplit, heq, hdot⟩ | ⟨hsplit, hdot⟩
    · have hshort : ShortNumeric isNumericChar name.toList
          ↔ (String.ofList front).utf8ByteSize < 3 ∧ isNumeric isNumericChar front := by
        constructor
        · rintro ⟨front', last', heq', hdot', hlength, hnumeric⟩
          rw [heq] at heq'
          obtain ⟨rfl, -⟩ := last_dot_unique heq' hdot hdot'
          exact ⟨hlength, hnumeric⟩
        · rintro ⟨hlength, hnumeric⟩
          exact ⟨front, last, heq, hdot, hlength, hnumeric⟩
      rw [hsplit]
      dsimp only
      rw [hshort]
      split
      · rename_i hfront
        simp [hfront]
      · rename_i hfront
        rw [hscan]
        simp [h, hfront]
    · have hshort : ¬ ShortNumeric isNumericChar name.toList := by
        rintro ⟨front, last, heq, -⟩
        rw [heq] at hdot
        exact hdot (by simp)
      rw [hsplit]
      dsimp only
      rw [hscan]
      simp [h, hshort]

/-- **`check_domain` accepts the grammar exactly** on all names but the empty one and those that have
a hyphen next to a dot as their only fault. -/
theorem checkDomain_iff_isDomainName (isNumericChar : Char → Bool) (name : String) :
    (checkDomain isNumericChar name true ↔ IsDomainName isNumericChar name.toList) ↔ name ≠ "" ∧
      (¬ Adjacent name.toList ∨ Edged name.toList ∨ Outside name.toList ∨ Doubled name.toList
        ∨ ShortNumeric isNumericChar name.toList) := by
  have hnil : name ≠ "" ↔ name.toList ≠ [] := by simp
  rw [isDomainName_iff, regular_false_iff, hnil, checkDomain_iff]
  by_cases hrefused : Edged name.toList ∨ Outside name.toList ∨ Doubled name.toList
      ∨ ShortNumeric isNumericChar name.toList
  · -- both refuse the name, which is not empty
    have hne : name.toList ≠ [] := by
      intro h
      rw [h] at hrefused
      simp [Edged, Outside, Doubled, ShortNumeric] at hrefused
    refine iff_of_true (iff_of_false ?_ ?_) ⟨hne, Or.inr hrefused⟩
    · rintro ⟨hedged, hshort, houtside, hdoubled⟩
      exact hrefused.elim hedged fun h => h.elim houtside fun h => h.elim hdoubled hshort
    · rintro ⟨⟨-, hedged, houtside, hspaced⟩, hshort⟩
      exact hrefused.elim hedged fun h => h.elim houtside fun h =>
        h.elim (fun h => not_spaced_iff.mpr (Or.inl h) hspaced) hshort
  · -- the scanner accepts the name, and the grammar looks at its separators once more
    have hnot := hrefused
    rw [not_or, not_or, not_or] at hnot
    obtain ⟨hedged, houtside, hdoubled, hshort⟩ := hnot
    have hspaced : Spaced name.toList ↔ ¬ Adjacent name.toList := by
      rw [iff_not_comm, not_spaced_iff, or_iff_right hdoubled]
    constructor
    · intro h
      obtain ⟨⟨hne, -, -, hname⟩, -⟩ := h.mp ⟨hedged, hshort, houtside, hdoubled⟩
      exact ⟨hne, Or.inl (hspaced.mp hname)⟩
    · rintro ⟨hne, hadjacent⟩
      exact iff_of_true ⟨hedged, hshort, houtside, hdoubled⟩
        ⟨⟨hne, hedged, houtside, hspaced.mpr (hadjacent.resolve_right hrefused)⟩, hshort⟩

/-- A hyphen after a dot is accepted. -/
theorem not_checkDomain_iff_isDomainName : ¬ ∀ isNumericChar name,
    checkDomain isNumericChar name true ↔ IsDomainName isNumericChar name.toList := by
  intro h
  have hname := (h Char.isDigit "a.-b").mp (by decide)
  have hregular := (isDomainName_iff.mp hname).1
  revert hregular
  decide
