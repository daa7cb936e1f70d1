/-
# Caches that forget what was used least recently

A library for caches with a capacity, given by what is documented of their operations: the entries
are listed with the one used last in front, and when there is no room the last of the list goes.  An
entry that is not used any more is pushed back by the entries for other keys, one place for each of
them: it is forgotten only after as many other keys as there is room for (`LruCache.Keeps.put`).
-/
import Mathlib

/-- The entries for other keys. -/
def othersOf {K V : Type} [DecidableEq K] (k : K) (l : List (K × V)) : List (K × V) :=
  l.filter fun e => e.1 ≠ k

/-- **Caches with room for `cap` entries**, as far as it is documented what they do.  The entries of a
cache are listed with the one used last in front. -/
structure LruCache (K V : Type) [DecidableEq K] (cap : ℕ) where
  Cache : Type
  new : Cache
  get : Cache → K → Option V × Cache
  put : Cache → K → V → Cache
  entries : Cache → List (K × V)
  nodup : ∀ c, ((entries c).map Prod.fst).Nodup
  entries_new : entries new = []
  /-- `get` gives the value of the key. -/
  fst_get : ∀ c k, (get c k).1 = ((entries c).find? fun e => e.1 = k).map Prod.snd
  /-- An entry that is found comes to the front. -/
  entries_get_of_some : ∀ c k v, (get c k).1 = some v →
    entries (get c k).2 = (k, v) :: othersOf k (entries c)
  entries_get_of_none : ∀ c k, (get c k).1 = none → entries (get c k).2 = entries c
  /-- What is put comes to the front, and if there is no room the last one goes. -/
  entries_put : ∀ c k v, entries (put c k v) = (k, v) :: (othersOf k (entries c)).take (cap - 1)

namespace LruCache

variable {K V : Type} [DecidableEq K] {cap : ℕ}

theorem others_sublist (k : K) (l : List (K × V)) : (othersOf k l).Sublist l := List.filter_sublist

/-- With the key in front every key is there once. -/
theorem nodup_cons_others {k : K} {l l' : List (K × V)} (v : V) (h : (l.map Prod.fst).Nodup)
    (hl' : l'.Sublist (othersOf k l)) : (((k, v) :: l').map Prod.fst).Nodup := by
  rw [List.map_cons, List.nodup_cons]
  refine ⟨fun hmem => ?_, h.sublist ((hl'.trans (others_sublist k l)).map _)⟩
  obtain ⟨e, he, hk⟩ := List.mem_map.mp hmem
  have hne := of_decide_eq_true (List.mem_filter.mp (hl'.subset he)).2
  exact hne hk

/-! ## A cache as a list -/

/-- The entries themselves. -/
abbrev Entries (K V : Type) : Type := { l : List (K × V) // (l.map Prod.fst).Nodup }

def findEntry (c : Entries K V) (k : K) : Option V := (c.1.find? fun e => e.1 = k).map Prod.snd

def getEntry (c : Entries K V) (k : K) : Option V × Entries K V :=
  match findEntry c k with
  | some v => (some v, ⟨(k, v) :: othersOf k c.1, nodup_cons_others v c.2 (.refl _)⟩)
  | none => (none, c)

def putEntry (cap : ℕ) (c : Entries K V) (k : K) (v : V) : Entries K V :=
  ⟨(k, v) :: (othersOf k c.1).take (cap - 1), nodup_cons_others v c.2 (List.take_sublist _ _)⟩

/-- What `get` answers. -/
theorem fst_getEntry (c : Entries K V) (k : K) : (getEntry c k).1 = findEntry c k := by
  unfold getEntry
  cases findEntry c k <;> rfl

/-- It moves the entry to the front. -/
theorem getEntry_of_some (c : Entries K V) (k : K) (v : V) (h : (getEntry c k).1 = some v) :
    (getEntry c k).2.1 = (k, v) :: othersOf k c.1 := by
  rw [fst_getEntry] at h
  unfold getEntry
  rw [h]

/-- Without an entry it changes nothing. -/
theorem getEntry_of_none (c : Entries K V) (k : K) (h : (getEntry c k).1 = none) :
    (getEntry c k).2.1 = c.1 := by
  rw [fst_getEntry] at h
  unfold getEntry
  rw [h]

omit [DecidableEq K] in
theorem nodup_val (c : Entries K V) : (c.1.map Prod.fst).Nodup := c.2

/-- `put` drops the entry at the end if there is no room for it. -/
theorem val_putEntry (cap : ℕ) (c : Entries K V) (k : K) (v : V) :
    (putEntry cap c k v).1 = (k, v) :: (othersOf k c.1).take (cap - 1) := rfl

omit [DecidableEq K] in
theorem val_empty : (⟨[], List.nodup_nil⟩ : Entries K V).1 = [] := rfl

/-- Lists are such caches. -/
def listed (K V : Type) [DecidableEq K] (cap : ℕ) : LruCache K V cap where
  Cache := Entries K V
  new := ⟨[], List.nodup_nil⟩
  get := getEntry
  put := putEntry cap
  entries := Subtype.val
  nodup := nodup_val
  entries_new := val_empty
  fst_get := fst_getEntry
  entries_get_of_some := getEntry_of_some
  entries_get_of_none := getEntry_of_none
  entries_put := val_putEntry cap

/-! ## How long an entry is kept -/

/-- **A key has been kept since it was used**: its entry is there, and the entries in front of it are
for keys that have been used since. -/
def Keeps (L : LruCache K V cap) (c : L.Cache) (k : K) (v : V) (since : Finset K) : Prop :=
  ∃ front back, L.entries c = front ++ (k, v) :: back ∧ ∀ e ∈ front, e.1 ∈ since

variable {L : LruCache K V cap} {c : L.Cache} {k k' : K} {v v' : V} {since since' : Finset K}

/-- What is found is there. -/
theorem mem_of_get (h : (L.get c k).1 = some v) : (k, v) ∈ L.entries c := by
  rw [L.fst_get] at h
  obtain ⟨e, he, rfl⟩ := Option.map_eq_some_iff.mp h
  obtain rfl : e.1 = k := by simpa using List.find?_some he
  exact List.mem_of_find?_eq_some he

/-- A lookup leaves the entries that there are. -/
theorem entries_get_subset : L.entries (L.get c k).2 ⊆ L.entries c := by
  intro e he
  cases hget : (L.get c k).1 with
  | none =>
    rw [L.entries_get_of_none c k hget] at he
    exact he
  | some v =>
    rw [L.entries_get_of_some c k v hget] at he
    rcases List.mem_cons.mp he with rfl | he
    · exact mem_of_get hget
    · exact (others_sublist k _).subset he

/-- What is kept is found. -/
theorem Keeps.found (h : Keeps L c k v since) : (L.get c k).1 = some v := by
  obtain ⟨front, back, heq, -⟩ := h
  have hmem : (k, v) ∈ L.entries c := by
    rw [heq]
    exact List.mem_append_right _ List.mem_cons_self
  rw [L.fst_get]
  cases hfind : (L.entries c).find? fun e => e.1 = k with
  | none =>
    have hne := List.find?_eq_none.mp hfind (k, v) hmem
    simp at hne
  | some e =>
    -- there is one entry for the key
    have hk : e.1 = k := by simpa using List.find?_some hfind
    have hsame := List.inj_on_of_nodup_map (L.nodup c) (List.mem_of_find?_eq_some hfind) hmem hk
    rw [hsame]
    rfl

/-- It is kept as well if more keys have come since. -/
theorem Keeps.mono (h : Keeps L c k v since) (hle : since ⊆ since') : Keeps L c k v since' := by
  obtain ⟨front, back, heq, hfront⟩ := h
  exact ⟨front, back, heq, fun e he => hle (hfront e he)⟩

/-- A key that is put is kept. -/
theorem keeps_put (L : LruCache K V cap) (c : L.Cache) (k : K) (v : V) : Keeps L (L.put c k v) k v ∅ :=
  ⟨[], _, L.entries_put c k v, fun e he => by cases he⟩

/-- A key that is found is kept from then on. -/
theorem keeps_get (h : (L.get c k).1 = some v) : Keeps L (L.get c k).2 k v ∅ :=
  ⟨[], _, L.entries_get_of_some c k v h, fun e he => by cases he⟩

/-- The keys in front of an entry are as many as the entries there, and it is not among them. -/
theorem length_front_le {front back : List (K × V)}
    (hnodup : ((front ++ (k, v) :: back).map Prod.fst).Nodup) (hfront : ∀ e ∈ front, e.1 ∈ since) :
    front.length ≤ (since.erase k).card := by
  rw [List.map_append, List.nodup_append] at hnodup
  obtain ⟨hnodup, -, hdisjoint⟩ := hnodup
  have hcard : (front.map Prod.fst).toFinset.card = front.length := by
    rw [List.toFinset_card_of_nodup hnodup, List.length_map]
  rw [← hcard]
  refine Finset.card_le_card fun x hx => ?_
  rw [List.mem_toFinset] at hx
  refine Finset.mem_erase.mpr ⟨hdisjoint x hx k (by simp), ?_⟩
  obtain ⟨e, he, rfl⟩ := List.mem_map.mp hx
  exact hfront e he

/-- The other keys of a list around an entry. -/
theorem others_append_cons (hne : k' ≠ k) (front back : List (K × V)) :
    othersOf k' (front ++ (k, v) :: back) = othersOf k' front ++ (k, v) :: othersOf k' back := by
  unfold othersOf
  rw [List.filter_append, List.filter_cons_of_pos (by simpa using hne.symm)]

/-- Other entries in front of those that were there. -/
theorem mem_front {front : List (K × V)} (hfront : ∀ e ∈ front, e.1 ∈ since) :
    ∀ e ∈ (k', v') :: othersOf k' front, e.1 ∈ insert k' since := by
  intro e he
  rcases List.mem_cons.mp he with rfl | he
  · exact Finset.mem_insert_self _ _
  · exact Finset.mem_insert_of_mem (hfront e ((others_sublist k' front).subset he))

/-- Using another key pushes the entry back by one place at most. -/
theorem Keeps.get (h : Keeps L c k v since) (hne : k' ≠ k) :
    Keeps L (L.get c k').2 k v (insert k' since) := by
  obtain ⟨front, back, heq, hfront⟩ := h
  cases hget : (L.get c k').1 with
  | none =>
    exact ⟨front, back, (L.entries_get_of_none c k' hget).trans heq,
      fun e he => Finset.mem_insert_of_mem (hfront e he)⟩
  | some v' =>
    refine ⟨(k', v') :: othersOf k' front, othersOf k' back, ?_, mem_front hfront⟩
    rw [L.entries_get_of_some c k' v' hget, heq, others_append_cons hne, List.cons_append]

/-- **An entry is forgotten only after as many other keys as there is room for.** -/
theorem Keeps.put (h : Keeps L c k v since) (hne : k' ≠ k) (v' : V) :
    Keeps L (L.put c k' v') k v (insert k' since) ∨ cap ≤ ((insert k' since).erase k).card := by
  obtain ⟨front, back, heq, hfront⟩ := h
  have hentries : L.entries (L.put c k' v')
      = (k', v') :: (othersOf k' front ++ (k, v) :: othersOf k' back).take (cap - 1) := by
    rw [L.entries_put, heq, others_append_cons hne]
  by_cases hroom : (othersOf k' front).length < cap - 1
  · left
    refine ⟨(k', v') :: othersOf k' front,
      (othersOf k' back).take (cap - 1 - (othersOf k' front).length - 1), ?_, mem_front hfront⟩
    rw [hentries, List.take_append, List.take_of_length_le hroom.le, List.cons_append]
    obtain ⟨n, hn⟩ := Nat.exists_eq_succ_of_ne_zero (Nat.sub_ne_zero_of_lt hroom)
    rw [hn, List.take_succ_cons, Nat.succ_sub_one]
  · right
    -- the entries in front of it fill the cache
    have hnodup : (((k', v') :: othersOf k' front ++ (k, v) :: othersOf k' back).map Prod.fst).Nodup := by
      rw [List.cons_append, ← others_append_cons hne, ← heq]
      exact nodup_cons_others v' (L.nodup c) (.refl _)
    have hmem : ∀ e ∈ (k', v') :: othersOf k' front, e.1 ∈ insert k' since := mem_front hfront
    have hle := length_front_le hnodup hmem
    rw [List.length_cons] at hle
    omega

end LruCache
