import Mathlib.Data.List.Basic
import Mathlib.Data.List.Nodup
import Mathlib.Tactic.Common

/-! Objects as scripts have them: properties of different names, in the order in
which they were set, over any type of names. -/

namespace Objects

structure Object (K V : Type*) where
  entries : List (K × V)
  nodup : (entries.map Prod.fst).Nodup

variable {K V : Type*} [DecidableEq K] {o : Object K V} {j k : K} {v w : V}

namespace Object

def empty : Object K V := ⟨[], List.nodup_nil⟩

def keys (o : Object K V) : List K := o.entries.map Prod.fst

def get (o : Object K V) (k : K) : Option V := o.entries.lookup k

theorem map_fst_replace (l : List (K × V)) (k : K) (v : V) :
    (l.map fun e => if e.1 = k then (k, v) else e).map Prod.fst = l.map Prod.fst := by
  rw [List.map_map]
  refine List.map_congr_left fun e _ => ?_
  dsimp only [Function.comp]
  split
  next h => exact h.symm
  · rfl

/-- A property that is there keeps its place. -/
def set (o : Object K V) (k : K) (v : V) : Object K V :=
  if h : k ∈ o.keys then
    ⟨o.entries.map fun e => if e.1 = k then (k, v) else e, by
      rw [map_fst_replace]
      exact o.nodup⟩
  else
    ⟨o.entries ++ [(k, v)], by
      rw [List.map_append, List.map_singleton]
      exact List.nodup_append.mpr ⟨o.nodup, List.nodup_singleton k, fun a ha b hb hab => by
        obtain rfl : a = k := hab.trans (List.mem_singleton.mp hb)
        exact h ha⟩⟩

def delete (o : Object K V) (k : K) : Object K V where
  entries := o.entries.filter fun e => e.1 ≠ k
  nodup := o.nodup.sublist (List.filter_sublist.map Prod.fst)

end Object

theorem mem_entries : (k, v) ∈ o.entries ↔ o.get k = some v := by
  obtain ⟨entries, nodup⟩ := o
  simp only [Object.get]
  induction entries with
  | nil => simp
  | cons e es ih =>
    obtain ⟨hne, hes⟩ := List.nodup_cons.mp nodup
    rw [List.mem_cons, ih hes, List.lookup_cons]
    by_cases h : k = e.1
    · have hnone : List.lookup k es = none := by
        rw [List.lookup_eq_none_iff]
        intro p hp
        simpa using fun heq : k = p.1 => hne (h ▸ heq ▸ List.mem_map_of_mem hp)
      obtain ⟨k', v'⟩ := e
      dsimp only at h
      subst h
      simp [hnone, eq_comm]
    · have hbeq : (k == e.1) = false := by simpa using h
      obtain ⟨k', v'⟩ := e
      dsimp only at h hbeq
      simp [hbeq, h]

theorem mem_keys : k ∈ o.keys ↔ ∃ v, o.get k = some v := by
  simp only [Object.keys, List.mem_map, ← mem_entries]
  constructor
  · rintro ⟨⟨k', v⟩, h, rfl⟩
    exact ⟨v, h⟩
  · rintro ⟨v, h⟩
    exact ⟨(k, v), h, rfl⟩

theorem get_eq_none : o.get k = none ↔ k ∉ o.keys := by
  rw [mem_keys, Option.eq_none_iff_forall_ne_some, not_exists]

omit [DecidableEq K] in
theorem nodup_keys (o : Object K V) : o.keys.Nodup := o.nodup

@[simp] theorem get_empty : (Object.empty : Object K V).get k = none := rfl

@[simp] theorem get_set : (o.set k v).get j = if j = k then some v else o.get j := by
  apply Option.ext
  intro w
  rw [← mem_entries]
  unfold Object.set
  split
  next h =>
    simp only [List.mem_map]
    constructor
    · rintro ⟨e, he, heq⟩
      split at heq
      · obtain ⟨rfl, rfl⟩ := by simpa using heq
        simp
      next hne =>
        subst heq
        rw [if_neg hne]
        exact mem_entries.mp he
    · intro hw
      by_cases hjk : j = k
      · obtain ⟨u, hu⟩ := mem_keys.mp h
        rw [if_pos hjk] at hw
        obtain rfl := by simpa using hw
        exact ⟨(k, u), mem_entries.mpr hu, by rw [if_pos rfl, hjk]⟩
      · rw [if_neg hjk] at hw
        exact ⟨(j, w), mem_entries.mpr hw, if_neg hjk⟩
  next h =>
    rw [List.mem_append, List.mem_singleton, mem_entries]
    by_cases hjk : j = k
    · subst hjk
      simp [get_eq_none.mpr h, eq_comm]
    · simp [hjk]

@[simp] theorem get_delete : (o.delete k).get j = if j = k then none else o.get j := by
  apply Option.ext
  intro w
  rw [← mem_entries, Object.delete, List.mem_filter, mem_entries]
  by_cases hjk : j = k <;> simp [hjk]

theorem entries_set_of_not_mem (h : k ∉ o.keys) : (o.set k v).entries = o.entries ++ [(k, v)] := by
  rw [Object.set, dif_neg h]

end Objects
