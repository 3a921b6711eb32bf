import Mathlib.Tactic.Common
import Mathlib.Algebra.Order.Ring.Nat

/-! Loops over a list that write one entry a step, may break after a step and
may fail in one, over any states, elements, entries and faults. -/

namespace Loops

variable {σ α β φ : Type*}

/-- `step` gives the entry of one element and whether the loop breaks after
it, `next` the state for the element that follows. -/
def loop (step : σ → α → Except φ (β × Bool)) (next : σ → α → σ) :
    σ → List α → Except φ (List β)
  | _, [] => .ok []
  | s, a :: as =>
    match step s a with
    | .error f => .error f
    | .ok (x, true) => .ok [x]
    | .ok (x, false) => (loop step next (next s a) as).map (x :: ·)

def stateAt (next : σ → α → σ) (s : σ) (as : List α) (i : Nat) : σ := (as.take i).foldl next s

def Stops (step : σ → α → Except φ (β × Bool)) (next : σ → α → σ) (s : σ) (as : List α)
    (i : Nat) : Prop :=
  ∃ a x, as[i]? = some a ∧ step (stateAt next s as i) a = .ok (x, true)

def FirstAt (P : Nat → Prop) (i : Nat) : Prop := P i ∧ ∀ j, j < i → ¬ P j

/-- A loop over `n` elements that breaks after the first that meets `P` takes
`k` steps. -/
def Breaks (P : Nat → Prop) (n k : Nat) : Prop :=
  (∃ i, i < n ∧ FirstAt P i ∧ k = i + 1) ∨ (∀ i, i < n → ¬ P i) ∧ k = n

section Breaking

variable {P Q : Nat → Prop} {n k l i j : Nat}

theorem FirstAt.unique (hi : FirstAt P i) (hj : FirstAt P j) : i = j := by
  rcases Nat.lt_trichotomy i j with hlt | heq | hlt
  · exact absurd hi.1 (hj.2 i hlt)
  · exact heq
  · exact absurd hj.1 (hi.2 j hlt)

theorem Breaks.le (h : Breaks P n k) : k ≤ n := by
  rcases h with ⟨i, hi, -, rfl⟩ | ⟨-, rfl⟩ <;> omega

theorem Breaks.head (h : P 0) : Breaks P (n + 1) 1 :=
  .inl ⟨0, Nat.succ_pos n, ⟨h, fun j hj => absurd hj (Nat.not_lt_zero j)⟩, rfl⟩

theorem Breaks.tail (h0 : ¬ P 0) (h : Breaks (fun i => P (i + 1)) n k) :
    Breaks P (n + 1) (k + 1) := by
  rcases h with ⟨i, hi, ⟨hp, hfirst⟩, rfl⟩ | ⟨hnone, rfl⟩
  · refine .inl ⟨i + 1, by omega, ⟨hp, fun j hj => ?_⟩, rfl⟩
    cases j with
    | zero => exact h0
    | succ j => exact hfirst j (by omega)
  · refine .inr ⟨fun i hi => ?_, rfl⟩
    cases i with
    | zero => exact h0
    | succ i => exact hnone i (by omega)

/-- A loop that breaks less often takes as many steps exactly when it breaks
with the other, or that one has come to its last element. -/
theorem Breaks.eq_iff (hQP : ∀ i, Q i → P i) (hk : Breaks P n k) (hl : Breaks Q n l) :
    k = l ↔ ∀ i, i + 1 < n → FirstAt P i → Q i := by
  rcases hk with ⟨i, hi, hfirst, rfl⟩ | ⟨hnone, rfl⟩
  · rcases hl with ⟨j, hj, ⟨hq, hbefore⟩, rfl⟩ | ⟨hnone, rfl⟩
    · have hle : i ≤ j := by
        by_contra hlt
        exact hfirst.2 j (by omega) (hQP j hq)
      constructor
      · intro heq i' _ hi'
        obtain rfl : i' = i := hi'.unique hfirst
        obtain rfl : i' = j := by omega
        exact hq
      · intro h
        by_cases hlast : i + 1 < n
        · have hqi := h i hlast hfirst
          have : ¬ i < j := fun hlt => hbefore i hlt hqi
          omega
        · omega
    · constructor
      · intro heq i' hi' hfirst'
        obtain rfl : i' = i := hfirst'.unique hfirst
        omega
      · intro h
        by_contra hne
        exact hnone i hi (h i (by omega) hfirst)
  · rcases hl with ⟨j, hj, ⟨hq, -⟩, rfl⟩ | ⟨-, rfl⟩
    · exact absurd (hQP j hq) (hnone j hj)
    · exact iff_of_true rfl fun i hi hfirst => absurd hfirst.1 (hnone i (by omega))

end Breaking

section Loop

variable {step : σ → α → Except φ (β × Bool)} {next : σ → α → σ} {s : σ} {a : α} {as : List α}
  {l : List β} {i : Nat}

@[simp] theorem stateAt_zero : stateAt next s as 0 = s := rfl

@[simp] theorem stateAt_succ : stateAt next s (a :: as) (i + 1) = stateAt next (next s a) as i := rfl

theorem stateAt_of_getElem? (h : as[i]? = some a) :
    stateAt next s as (i + 1) = next (stateAt next s as i) a := by
  induction as generalizing s i with
  | nil => simp at h
  | cons d as ih =>
    cases i with
    | zero =>
      obtain rfl : d = a := by simpa using h
      rfl
    | succ i => exact ih (by simpa using h)

theorem stops_zero : Stops step next s (a :: as) 0 ↔ ∃ x, step s a = .ok (x, true) := by
  simp [Stops]

/-- The length and the entries of a loop that does not fail. -/
theorem loop_spec (h : loop step next s as = .ok l) :
    Breaks (Stops step next s as) as.length l.length ∧
      ∀ i x, l[i]? = some x →
        ∃ a b, as[i]? = some a ∧ step (stateAt next s as i) a = .ok (x, b) := by
  induction as generalizing s l with
  | nil =>
    obtain rfl : [] = l := Except.ok.inj h
    exact ⟨.inr ⟨fun i hi => absurd hi (Nat.not_lt_zero i), rfl⟩, by simp⟩
  | cons a as ih =>
    unfold loop at h
    split at h
    · cases h
    next x hstep =>
      obtain rfl := Except.ok.inj h
      refine ⟨.head (stops_zero.mpr ⟨x, hstep⟩), fun i y hy => ?_⟩
      cases i with
      | zero =>
        obtain rfl : x = y := by simpa using hy
        exact ⟨a, true, rfl, hstep⟩
      | succ i => simp at hy
    next x hstep =>
      cases hrest : loop step next (next s a) as with
      | error f =>
        rw [hrest] at h
        cases h
      | ok l' =>
        rw [hrest] at h
        obtain rfl : x :: l' = l := Except.ok.inj h
        obtain ⟨hbreaks, hentries⟩ := ih hrest
        have h0 : ¬ Stops step next s (a :: as) 0 := by
          rw [stops_zero, hstep]
          simp
        refine ⟨.tail h0 hbreaks, fun i y hy => ?_⟩
        cases i with
        | zero =>
          obtain rfl : x = y := by simpa using hy
          exact ⟨a, false, rfl, hstep⟩
        | succ i => exact hentries i y (by simpa using hy)

/-- A loop gives good entries only, exactly when every step it comes to does. -/
theorem loop_good_iff (Good : β → Prop) :
    (∃ l, loop step next s as = .ok l ∧ ∀ x ∈ l, Good x) ↔
      ∀ i a, as[i]? = some a → (∀ j, j < i → ¬ Stops step next s as j) →
        ∃ x b, step (stateAt next s as i) a = .ok (x, b) ∧ Good x := by
  induction as generalizing s with
  | nil => simp [loop]
  | cons a as ih =>
    constructor
    · rintro ⟨l, hl, hgood⟩ i a' ha' hbefore
      unfold loop at hl
      split at hl
      · cases hl
      next x hstep =>
        obtain rfl := Except.ok.inj hl
        cases i with
        | zero =>
          obtain rfl : a = a' := by simpa using ha'
          exact ⟨x, true, hstep, hgood x List.mem_cons_self⟩
        | succ i => exact absurd (stops_zero.mpr ⟨x, hstep⟩) (hbefore 0 (Nat.succ_pos i))
      next x hstep =>
        cases hrest : loop step next (next s a) as with
        | error f =>
          rw [hrest] at hl
          cases hl
        | ok l' =>
          rw [hrest] at hl
          obtain rfl : x :: l' = l := Except.ok.inj hl
          cases i with
          | zero =>
            obtain rfl : a = a' := by simpa using ha'
            exact ⟨x, false, hstep, hgood x List.mem_cons_self⟩
          | succ i =>
            exact ih.mp ⟨l', hrest, fun y hy => hgood y (List.mem_cons_of_mem x hy)⟩ i a'
              (by simpa using ha') fun j hj => hbefore (j + 1) (by omega)
    · intro h
      obtain ⟨x, b, hstep, hx⟩ := h 0 a rfl fun j hj => absurd hj (Nat.not_lt_zero j)
      rw [stateAt_zero] at hstep
      cases b with
      | true => exact ⟨[x], by simp [loop, hstep], by simpa using hx⟩
      | false =>
        have h0 : ¬ Stops step next s (a :: as) 0 := by
          rw [stops_zero, hstep]
          simp
        obtain ⟨l, hl, hgood⟩ := ih.mpr fun i a' ha' hbefore =>
          h (i + 1) a' (by simpa using ha') fun j hj => by
            cases j with
            | zero => exact h0
            | succ j => exact hbefore j (by omega)
        refine ⟨x :: l, by simp [loop, hstep, hl, Except.map], fun y hy => ?_⟩
        rcases List.mem_cons.mp hy with rfl | hy
        · exact hx
        · exact hgood y hy

end Loop

end Loops
