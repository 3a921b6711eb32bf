import Mathlib.Data.List.Basic
import Mathlib.Tactic.Common

/-! Replacement of a part of a text, and of single letters, over any alphabet. -/

namespace Texts

variable {α : Type*} [DecidableEq α] {pat rep s a b : List α} {x c : α} {f : α → List α} {k : Nat}

/-- Every occurrence of `pat` from left to right, with `k` letters of one left. -/
def replaceFrom (pat rep : List α) : Nat → List α → List α
  | _, [] => []
  | 0, c :: s =>
    if pat.isPrefixOf (c :: s) then rep ++ replaceFrom pat rep (pat.length - 1) s
    else c :: replaceFrom pat rep 0 s
  | k + 1, _ :: s => replaceFrom pat rep k s

def replaceAll (pat rep s : List α) : List α := replaceFrom pat rep 0 s

/-- The same for a pattern of one letter. -/
def replaceLetter (c : α) (rep s : List α) : List α := s.flatMap fun d => if d = c then rep else [d]

theorem replaceFrom_skip (hk : k ≤ s.length) :
    replaceFrom pat rep k s = replaceFrom pat rep 0 (s.drop k) := by
  induction k generalizing s with
  | zero => rfl
  | succ k ih =>
    cases s with
    | nil => simp at hk
    | cons c s => exact ih (by simpa using hk)

/-- At an occurrence the replacement goes on behind it. -/
theorem replaceAll_pattern (hpat : pat ≠ []) (s : List α) :
    replaceAll pat rep (pat ++ s) = rep ++ replaceAll pat rep s := by
  obtain ⟨c, p, rfl⟩ := List.exists_cons_of_ne_nil hpat
  have hpre : (c :: p).isPrefixOf (c :: (p ++ s)) = true := by
    rw [List.isPrefixOf_iff_prefix, ← List.cons_append]
    exact List.prefix_append _ s
  rw [replaceAll, List.cons_append, replaceFrom, if_pos hpre, replaceFrom_skip (by simp)]
  simp [replaceAll]

theorem replaceAll_cons (h : ¬ pat <+: c :: s) :
    replaceAll pat rep (c :: s) = c :: replaceAll pat rep s := by
  rw [replaceAll, replaceFrom, if_neg (by rwa [List.isPrefixOf_iff_prefix])]
  rfl

/-- The induction that the replacement itself goes through. -/
theorem replaceAll_induction {P : List α → Prop} (hpat : pat ≠ []) (hnil : P [])
    (hpre : ∀ s, P s → P (pat ++ s)) (hcons : ∀ c s, ¬ pat <+: c :: s → P s → P (c :: s)) :
    ∀ s, P s := by
  intro s
  induction hn : s.length using Nat.strongRecOn generalizing s with
  | ind n ih =>
    by_cases h : pat <+: s
    · obtain ⟨t, rfl⟩ := h
      have hpos := List.length_pos_of_ne_nil hpat
      rw [List.length_append] at hn
      exact hpre t (ih _ (by omega) t rfl)
    · cases s with
      | nil => exact hnil
      | cons c s => exact hcons c s h (ih s.length (by rw [← hn]; simp) s rfl)

/-- A reading that does not tell the pattern from the replacement reads the same
before and after. -/
theorem flatMap_replaceAll (hpat : pat ≠ []) (h : rep.flatMap f = pat.flatMap f) (s : List α) :
    (replaceAll pat rep s).flatMap f = s.flatMap f := by
  induction s using replaceAll_induction hpat with
  | hnil => rfl
  | hpre s ih => rw [replaceAll_pattern hpat, List.flatMap_append, List.flatMap_append, h, ih]
  | hcons c s hne ih => rw [replaceAll_cons hne, List.flatMap_cons, List.flatMap_cons, ih]

theorem mem_replaceAll (hpat : pat ≠ []) (h : x ∈ replaceAll pat rep s) : x ∈ rep ∨ x ∈ s := by
  induction s using replaceAll_induction hpat with
  | hnil => exact .inr h
  | hpre s ih =>
    rw [replaceAll_pattern hpat, List.mem_append] at h
    rcases h with h | h
    · exact .inl h
    · exact (ih h).imp_right (List.mem_append_right pat)
  | hcons c s hne ih =>
    rw [replaceAll_cons hne, List.mem_cons] at h
    rcases h with rfl | h
    · exact .inr List.mem_cons_self
    · exact (ih h).imp_right (List.mem_cons_of_mem c)

omit [DecidableEq α] in
theorem prefix_of_not_mem (hx : x ∉ pat) (h : pat <+: a ++ x :: b) : pat <+: a := by
  rcases Nat.le_total pat.length a.length with hle | hge
  · exact List.prefix_of_prefix_length_le h (List.prefix_append a _) hle
  · rcases Nat.eq_or_lt_of_le hge with heq | hlt
    · exact List.prefix_of_prefix_length_le h (List.prefix_append a _) (Nat.le_of_eq heq.symm)
    · have hpre : a ++ [x] <+: a ++ x :: b := (List.prefix_append_right_inj a).mpr ⟨b, rfl⟩
      have hmem := List.prefix_of_prefix_length_le hpre h (by simp; omega)
      exact absurd (hmem.subset (by simp)) hx

/-- No occurrence goes across a letter that is not in the pattern. -/
theorem replaceAll_append_cons (hpat : pat ≠ []) (hx : x ∉ pat) (a b : List α) :
    replaceAll pat rep (a ++ x :: b) = replaceAll pat rep a ++ x :: replaceAll pat rep b := by
  induction a using replaceAll_induction hpat with
  | hnil =>
    refine replaceAll_cons fun h => hx ?_
    obtain ⟨c, p, rfl⟩ := List.exists_cons_of_ne_nil hpat
    exact (List.cons_prefix_cons.mp h).1 ▸ List.mem_cons_self
  | hpre s ih => rw [List.append_assoc, replaceAll_pattern hpat, replaceAll_pattern hpat, ih,
      List.append_assoc]
  | hcons c s hne ih =>
    have hne' : ¬ pat <+: c :: (s ++ x :: b) := fun h => hne (prefix_of_not_mem hx h)
    rw [List.cons_append, replaceAll_cons hne', replaceAll_cons hne, ih, List.cons_append]

theorem splitOn_append_of_not_mem (h : x ∉ a) (s : List α) :
    (a ++ s).splitOn x = (s.splitOn x).modifyHead (a ++ ·) := by
  induction a with
  | nil =>
    obtain ⟨l, ls, hls⟩ := List.exists_cons_of_ne_nil (List.splitOn_ne_nil x s)
    rw [List.nil_append, hls]
    rfl
  | cons c a ih =>
    obtain ⟨hc, ha⟩ : x ≠ c ∧ x ∉ a := by simpa using h
    obtain ⟨l, ls, hls⟩ := List.exists_cons_of_ne_nil (List.splitOn_ne_nil x s)
    rw [List.cons_append, List.splitOn_cons_eq_if_modifyHead, ih ha, hls, if_neg (by simpa using hc.symm)]
    rfl

/-- The parts of a text are those of what its letters stand for. -/
theorem splitOn_flatMap (hx : f x = [x]) (hf : ∀ c, c ≠ x → x ∉ f c) (s : List α) :
    (s.flatMap f).splitOn x = (s.splitOn x).map (List.flatMap f) := by
  induction s with
  | nil => simp
  | cons c s ih =>
    obtain ⟨l, ls, hls⟩ := List.exists_cons_of_ne_nil (List.splitOn_ne_nil x s)
    rw [List.flatMap_cons, List.splitOn_cons_eq_if_modifyHead]
    by_cases hc : c = x
    · subst hc
      rw [hx, List.singleton_append, List.splitOn_cons_eq_if_modifyHead, ih]
      simp
    · rw [splitOn_append_of_not_mem (hf c hc), ih, hls, if_neg (by simpa using hc)]
      simp

end Texts
