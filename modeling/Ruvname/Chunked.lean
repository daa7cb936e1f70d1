/-
# Streams that arrive in pieces

A read of a stream gets what has arrived of its next piece, at most as much as it asks for, and
nothing only at the end.  What a reader gets that asks until it has enough does not depend on how
the stream is cut.
-/
import Mathlib

/-- A stream in non-empty pieces. -/
structure Chunked (α : Type) where
  chunks : List (List α)
  nonempty : ∀ chunk ∈ chunks, chunk ≠ []

namespace Chunked

variable {α : Type}

/-- What the stream holds. -/
def items (s : Chunked α) : List α := s.chunks.flatten

/-- What is left of a chunk that is not read whole is not empty. -/
theorem drop_nonempty {chunk : List α} {rest : List (List α)} {n : ℕ} (hn : n < chunk.length)
    (h : ∀ c ∈ chunk :: rest, c ≠ []) : ∀ c ∈ chunk.drop n :: rest, c ≠ [] := by
  intro c hc
  rcases List.mem_cons.mp hc with rfl | hc
  · rw [ne_eq, List.drop_eq_nil_iff]
    omega
  · exact h c (List.mem_cons_of_mem _ hc)

/-- One read, into a buffer of this length. -/
def read (n : ℕ) : Chunked α → List α × Chunked α
  | ⟨[], h⟩ => ([], ⟨[], h⟩)
  | ⟨chunk :: rest, h⟩ =>
    if hn : n < chunk.length then (chunk.take n, ⟨chunk.drop n :: rest, drop_nonempty hn h⟩)
    else (chunk, ⟨rest, fun c hc => h c (List.mem_cons_of_mem _ hc)⟩)

variable {s : Chunked α} {chunk l rest : List α} {chunks : List (List α)} {n : ℕ}

/-- A chunk that is long enough is read in part. -/
theorem read_cons_of_lt {h : ∀ c ∈ chunk :: chunks, c ≠ []} (hn : n < chunk.length) :
    read n ⟨chunk :: chunks, h⟩ = (chunk.take n, ⟨chunk.drop n :: chunks, drop_nonempty hn h⟩) :=
  dif_pos hn

/-- One that is not is read whole. -/
theorem read_cons_of_le {h : ∀ c ∈ chunk :: chunks, c ≠ []} (hn : chunk.length ≤ n) :
    read n ⟨chunk :: chunks, h⟩ = (chunk, ⟨chunks, fun c hc => h c (List.mem_cons_of_mem _ hc)⟩) :=
  dif_neg (Nat.not_lt.mpr hn)

/-- Nothing is lost between reads. -/
theorem read_append (n : ℕ) (s : Chunked α) : (s.read n).1 ++ (s.read n).2.items = s.items := by
  obtain ⟨chunks, h⟩ := s
  cases chunks with
  | nil => rfl
  | cons chunk chunks =>
    rcases Nat.lt_or_ge n chunk.length with hn | hn
    · rw [read_cons_of_lt hn]
      show chunk.take n ++ (chunk.drop n :: chunks).flatten = _
      rw [List.flatten_cons, ← List.append_assoc, List.take_append_drop]
      rfl
    · rw [read_cons_of_le hn]
      rfl

/-- No more is read than was asked for. -/
theorem length_read_le (n : ℕ) (s : Chunked α) : (s.read n).1.length ≤ n := by
  obtain ⟨chunks, h⟩ := s
  cases chunks with
  | nil => exact Nat.zero_le _
  | cons chunk chunks =>
    rcases Nat.lt_or_ge n chunk.length with hn | hn
    · rw [read_cons_of_lt hn]
      exact List.length_take_le _ _
    · rw [read_cons_of_le hn]
      exact hn

/-- A read gets something before the end. -/
theorem read_ne_nil (hn : 0 < n) (hs : s.items ≠ []) : (s.read n).1 ≠ [] := by
  obtain ⟨chunks, h⟩ := s
  cases chunks with
  | nil => exact absurd rfl hs
  | cons chunk chunks =>
    have hchunk : chunk ≠ [] := h chunk List.mem_cons_self
    rcases Nat.lt_or_ge n chunk.length with hlt | hle
    · rw [read_cons_of_lt hlt]
      show chunk.take n ≠ []
      rw [ne_eq, List.take_eq_nil_iff, not_or]
      exact ⟨hn.ne', hchunk⟩
    · rw [read_cons_of_le hle]
      exact hchunk

/-- **One read** of a stream that goes on with `l` gets a part of `l`. -/
theorem exists_read (h : s.items = l ++ rest) (hl : l ≠ []) :
    ∃ data l' s', s.read l.length = (data, s') ∧ data ≠ [] ∧ l = data ++ l' ∧ s'.items = l' ++ rest := by
  have happend := read_append l.length s
  have hlength := length_read_le l.length s
  rw [h] at happend
  rcases List.append_eq_append_iff.mp happend with ⟨l', hl', hrest⟩ | ⟨l', hl', hrest⟩
  · have hne : (s.read l.length).1 ≠ [] := by
      refine read_ne_nil (List.length_pos_of_ne_nil hl) ?_
      rw [h]
      exact List.append_ne_nil_of_left_ne_nil hl _
    exact ⟨(s.read l.length).1, l', (s.read l.length).2, rfl, hne, hl', hrest⟩
  · -- the read does not go beyond `l`
    have hnil : l' = [] := by
      rw [hl', List.length_append] at hlength
      exact List.length_eq_zero_iff.mp (by omega)
    rw [hnil, List.append_nil] at hl'
    rw [hnil, List.nil_append] at hrest
    refine ⟨(s.read l.length).1, [], (s.read l.length).2, rfl, ?_, ?_, ?_⟩
    · rwa [hl']
    · rw [List.append_nil, hl']
    · rw [List.nil_append, ← hrest]

/-- Reads until the buffer is full.  At the end of the stream that is an error. -/
def readExact (n : ℕ) (s : Chunked α) : Option (List α) × Chunked α :=
  if n = 0 then (some [], s)
  else
    let (data, s') := s.read n
    if data = [] then (none, s')
    else
      match readExact (n - data.length) s' with
      | (some more, s') => (some (data ++ more), s')
      | (none, s') => (none, s')
termination_by n
decreasing_by
  rename_i hn hdata
  have := List.length_pos_of_ne_nil hdata
  omega

/-- **A full buffer holds what the stream goes on with**, whatever its pieces are. -/
theorem exists_readExact (h : s.items = l ++ rest) :
    ∃ s', s.readExact l.length = (some l, s') ∧ s'.items = rest := by
  induction hlength : l.length using Nat.strong_induction_on generalizing l s with
  | h n ih =>
    subst hlength
    unfold readExact
    by_cases hl : l = []
    · subst hl
      exact ⟨s, if_pos rfl, h⟩
    · rw [if_neg (by rwa [List.length_eq_zero_iff])]
      obtain ⟨data, l', s', hread, hdata, hsplit, hs'⟩ := exists_read h hl
      have hless : l'.length < l.length := by
        have hpos := List.length_pos_of_ne_nil hdata
        rw [hsplit, List.length_append]
        omega
      obtain ⟨s'', hmore, hs''⟩ := ih l'.length hless hs' rfl
      have hleft : l.length - data.length = l'.length := by
        rw [hsplit, List.length_append]
        omega
      refine ⟨s'', ?_, hs''⟩
      rw [hread]
      dsimp only
      rw [if_neg hdata, hleft, hmore, hsplit]

end Chunked
