import Mathlib.Data.List.Basic
import Mathlib.Logic.Function.Basic
import Mathlib.Tactic.Common

/-! Database tables with generated ids, over any type of rows, and queries
whose order is not defined. -/

namespace Tables

/-- No id from `next` on has been given out. -/
structure Table (α : Type*) where
  row : Nat → Option α
  next : Nat
  fresh : ∀ i, next ≤ i → row i = none

variable {α : Type*} {t : Table α} {p : α → Bool} {i j : Nat} {a : α}

def Table.empty : Table α where
  row _ := none
  next := 0
  fresh _ _ := rfl

def Table.put (t : Table α) (i : Nat) (a : α) : Table α where
  row := Function.update t.row i (some a)
  next := max t.next (i + 1)
  fresh j hj := by
    have hne : j ≠ i := by omega
    rw [Function.update_of_ne hne]
    exact t.fresh j (by omega)

/-- The id under which a row is saved: a generated one, or that of a row that
is there. -/
def Table.idOf (t : Table α) : Option Nat → Option Nat
  | none => some t.next
  | some i => if (t.row i).isSome then some i else none

def Table.select (t : Table α) (p : α → Bool) : List (Nat × α) :=
  (List.range t.next).filterMap fun i => (t.row i).bind fun a => if p a then some (i, a) else none

/-- The first row of a query whose order is not defined: the row with the id
`choice` if the query yields it. -/
def Table.firstOf (t : Table α) (p : α → Bool) (choice : Nat) : Option (Nat × α) :=
  match (t.select p).find? fun r => r.1 == choice with
  | some r => some r
  | none => (t.select p).head?

theorem put_row : (t.put i a).row j = if j = i then some a else t.row j := by
  simp only [Table.put, Function.update_apply]

theorem lt_next_of_row (h : t.row i = some a) : i < t.next := by
  by_contra hge
  have hnone := t.fresh i (by omega)
  rw [h] at hnone
  cases hnone

theorem mem_select : (i, a) ∈ t.select p ↔ t.row i = some a ∧ p a = true := by
  simp only [Table.select, List.mem_filterMap, List.mem_range, Option.bind_eq_some_iff]
  constructor
  · rintro ⟨j, -, b, hb, hp⟩
    split_ifs at hp with hpb
    cases hp
    exact ⟨hb, hpb⟩
  · rintro ⟨hrow, hp⟩
    exact ⟨i, lt_next_of_row hrow, a, hrow, by rw [if_pos hp]⟩

theorem mem_select_of_firstOf {r : Nat × α} {choice : Nat} (h : t.firstOf p choice = some r) :
    r ∈ t.select p := by
  unfold Table.firstOf at h
  split at h
  · cases h
    exact List.mem_of_find?_eq_some ‹_›
  · exact List.mem_of_mem_head? h

theorem firstOf_eq_none {choice : Nat} : t.firstOf p choice = none ↔ t.select p = [] := by
  unfold Table.firstOf
  split
  · rename_i r hr
    simp only [reduceCtorEq, false_iff]
    intro hnil
    rw [hnil] at hr
    cases hr
  · exact List.head?_eq_none_iff

theorem firstOf_choice (h : (i, a) ∈ t.select p) : t.firstOf p i = some (i, a) := by
  unfold Table.firstOf
  cases hf : (t.select p).find? fun r => r.1 == i with
  | none =>
    have hne := List.find?_eq_none.mp hf (i, a) h
    simp at hne
  | some r =>
    obtain ⟨j, b⟩ := r
    have hj : j = i := by simpa using List.find?_some hf
    subst hj
    have hb := (mem_select.mp (List.mem_of_find?_eq_some hf)).1
    rw [(mem_select.mp h).1] at hb
    cases hb
    rfl

end Tables
