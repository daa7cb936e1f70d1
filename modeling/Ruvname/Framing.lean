/-
# Self-delimiting encodings

A small library about writing values one after the other.  An encoding is *self-delimiting*
when what it writes can be split off the front of any longer text.  A sequence of such
encodings determines the values written, up to a tail that none of them starts
(`SelfDelimiting.flatMap_append_inj`).  Where optional members are skipped without a mark,
the text determines the members that are present, not which of them they are: the members
are determined by the present ones together with the pattern of presence
(`eq_of_reduceOption_eq`).
-/
import Mathlib.Data.List.ReduceOption
import Mathlib.Data.List.Infix

namespace Framing

variable {α β : Type}

/-- Over the values with `p`, what `enc` writes can be split off the front of any text. -/
def SelfDelimiting (p : α → Prop) (enc : α → List β) : Prop :=
  ∀ a b, p a → p b → ∀ r s, enc a ++ r = enc b ++ s → a = b ∧ r = s

/-- **A sequence and a tail.**  If no encoding starts the tails, both the sequence and the
tail can be read off. -/
theorem SelfDelimiting.flatMap_append_inj {p : α → Prop} {enc : α → List β}
    (h : SelfDelimiting p enc) {xs ys : List α} {r s : List β}
    (hxs : ∀ a ∈ xs, p a) (hys : ∀ a ∈ ys, p a)
    (hr : ∀ a, p a → ¬ enc a <+: r) (hs : ∀ a, p a → ¬ enc a <+: s)
    (heq : xs.flatMap enc ++ r = ys.flatMap enc ++ s) : xs = ys ∧ r = s := by
  induction xs generalizing ys with
  | nil =>
    cases ys with
    | nil => exact ⟨rfl, heq⟩
    | cons b ys =>
      -- the tail of the shorter sequence would start with an encoding
      have hstart : enc b <+: r := ⟨ys.flatMap enc ++ s, by
        rw [List.flatMap_nil, List.nil_append, List.flatMap_cons, List.append_assoc] at heq
        exact heq.symm⟩
      exact absurd hstart (hr b (hys b List.mem_cons_self))
  | cons a xs ih =>
    cases ys with
    | nil =>
      have hstart : enc a <+: s := ⟨xs.flatMap enc ++ r, by
        rw [List.flatMap_nil, List.nil_append, List.flatMap_cons, List.append_assoc] at heq
        exact heq⟩
      exact absurd hstart (hs a (hxs a List.mem_cons_self))
    | cons b ys =>
      rw [List.flatMap_cons, List.flatMap_cons, List.append_assoc, List.append_assoc] at heq
      obtain ⟨hab, hrest⟩ := h a b (hxs a List.mem_cons_self) (hys b List.mem_cons_self) _ _ heq
      obtain ⟨htails, hrs⟩ := ih (fun x hx => hxs x (List.mem_cons_of_mem a hx))
        (fun x hx => hys x (List.mem_cons_of_mem b hx)) hrest
      exact ⟨by rw [hab, htails], hrs⟩

/-- Members with the same pattern of presence and the same present values are the same. -/
theorem eq_of_reduceOption_eq {xs ys : List (Option α)}
    (hpattern : xs.map Option.isSome = ys.map Option.isSome)
    (hvalues : xs.reduceOption = ys.reduceOption) : xs = ys := by
  induction xs generalizing ys with
  | nil =>
    rw [List.map_nil, eq_comm, List.map_eq_nil_iff] at hpattern
    exact hpattern.symm
  | cons x xs ih =>
    cases ys with
    | nil => simp at hpattern
    | cons y ys =>
      rw [List.map_cons, List.map_cons, List.cons.injEq] at hpattern
      obtain ⟨hhead, htail⟩ := hpattern
      cases x with
      | none =>
        cases y with
        | none =>
          rw [List.reduceOption_cons_of_none, List.reduceOption_cons_of_none] at hvalues
          rw [ih htail hvalues]
        | some b => simp at hhead
      | some a =>
        cases y with
        | none => simp at hhead
        | some b =>
          rw [List.reduceOption_cons_of_some, List.reduceOption_cons_of_some,
            List.cons.injEq] at hvalues
          rw [hvalues.1, ih htail hvalues.2]

end Framing
