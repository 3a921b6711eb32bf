import Mathlib.Tactic.Common
import Mathlib.Data.List.Induction

/-! Runs of a partial deterministic machine, over any state, event and fault
types. A property of a run may look at the events that led to a state. -/

namespace Machine

variable {σ ε φ ω : Type*}

def run (step : σ → ε → Except φ σ) (s : σ) : List ε → Except φ σ
  | [] => .ok s
  | e :: es => (step s e).bind fun t => run step t es

/-- `P` holds at every state the run reaches. -/
def Always (step : σ → ε → Except φ σ) (P : List ε → σ → Prop) (s : σ) (es : List ε) : Prop :=
  ∀ p t, p <+: es → run step s p = .ok t → P p t

/-- `C` holds of every step the run takes. -/
def Throughout (step : σ → ε → Except φ σ) (C : σ → ε → Prop) (s : σ) (es : List ε) : Prop :=
  ∀ p e t t', p ++ [e] <+: es → run step s p = .ok t → step t e = .ok t' → C t e

/-- What the steps of a run put out, in order. -/
def outputs (step : σ → ε → Except φ σ) (out : σ → ε → σ → List ω) (s : σ) : List ε → List ω
  | [] => []
  | e :: es =>
    match step s e with
    | .ok t => out s e t ++ outputs step out t es
    | .error _ => []

variable {step : σ → ε → Except φ σ} {s t t' : σ} {e : ε} {es p : List ε}

@[simp] theorem run_nil : run step s [] = .ok s := rfl

theorem run_cons_of_ok (h : step s e = .ok t) : run step s (e :: es) = run step t es := by
  simp [run, h, Except.bind]

theorem run_append (p q : List ε) :
    run step s (p ++ q) = (run step s p).bind fun t => run step t q := by
  induction p generalizing s with
  | nil => rfl
  | cons e p ih =>
    cases h : step s e with
    | error f => simp [run, h, Except.bind]
    | ok t => simpa [run, h, Except.bind] using ih

theorem run_append_of_ok (h : run step s p = .ok t) (q : List ε) :
    run step s (p ++ q) = run step t q := by
  simp [run_append, h, Except.bind]

theorem run_concat_of_ok (h : run step s p = .ok t) (hs : step t e = .ok t') :
    run step s (p ++ [e]) = .ok t' := by
  rw [run_append_of_ok h, run_cons_of_ok hs, run_nil]

theorem run_concat_eq_ok (h : run step s (p ++ [e]) = .ok t') :
    ∃ t, run step s p = .ok t ∧ step t e = .ok t' := by
  cases hp : run step s p with
  | error f => simp [run_append, hp, Except.bind] at h
  | ok t =>
    rw [run_append_of_ok hp] at h
    cases hs : step t e with
    | error f => simp [run, hs, Except.bind] at h
    | ok u =>
      rw [run_cons_of_ok hs] at h
      exact ⟨t, rfl, by simpa [hs] using h⟩

theorem outputs_append_of_ok {out : σ → ε → σ → List ω} (h : run step s p = .ok t)
    (q : List ε) :
    outputs step out s (p ++ q) = outputs step out s p ++ outputs step out t q := by
  induction p generalizing s with
  | nil =>
    obtain rfl : s = t := by simpa using h
    rfl
  | cons d p ih =>
    cases hd : step s d with
    | error f => simp [run, hd, Except.bind] at h
    | ok u =>
      rw [run_cons_of_ok hd] at h
      simp [outputs, hd, ih h]

theorem outputs_concat {out : σ → ε → σ → List ω} (h : run step s p = .ok t)
    (hs : step t e = .ok t') :
    outputs step out s (p ++ [e]) = outputs step out s p ++ out t e t' := by
  rw [outputs_append_of_ok h]
  simp [outputs, hs]

theorem outputs_mono {out : σ → ε → σ → List ω} (h : p <+: es) :
    outputs step out s p <+: outputs step out s es := by
  obtain ⟨q, rfl⟩ := h
  induction p generalizing s with
  | nil => exact List.nil_prefix
  | cons e p ih =>
    cases he : step s e with
    | error f => simp [outputs, he]
    | ok u => simpa [outputs, he] using ih

theorem exists_run_prefix (step : σ → ε → Except φ σ) (s : σ) (es : List ε) :
    ∃ p t, p <+: es ∧ run step s p = .ok t ∧
      ∀ {ω : Type*} (out : σ → ε → σ → List ω), outputs step out s es = outputs step out s p := by
  induction es generalizing s with
  | nil => exact ⟨[], s, List.prefix_refl _, rfl, fun _ => rfl⟩
  | cons e es ih =>
    cases he : step s e with
    | error f => exact ⟨[], s, List.nil_prefix, rfl, fun out => by simp [outputs, he]⟩
    | ok u =>
      obtain ⟨p, t, hp, ht, hout⟩ := ih u
      exact ⟨e :: p, t, (List.prefix_cons_inj e).mpr hp, (run_cons_of_ok he).trans ht,
        fun out => by simp [outputs, he, hout]⟩

/-- Two states stay related, and put out the same, along every run whose events
keep the relation. -/
theorem run_bisim {R : σ → σ → Prop} {C : ε → Prop} {out : σ → ε → σ → List ω}
    (hstep : ∀ t u e, R t u → C e → ∃ t' u', step t e = .ok t' ∧ step u e = .ok u' ∧
      R t' u' ∧ out t e t' = out u e u')
    {t u : σ} (h : R t u) {es : List ε} (hC : ∀ e ∈ es, C e) :
    ∃ t' u', run step t es = .ok t' ∧ run step u es = .ok u' ∧ R t' u' ∧
      outputs step out t es = outputs step out u es := by
  induction es generalizing t u with
  | nil => exact ⟨t, u, rfl, rfl, h, rfl⟩
  | cons e es ih =>
    obtain ⟨he, hes⟩ := List.forall_mem_cons.mp hC
    obtain ⟨t₁, u₁, ht₁, hu₁, h₁, hout⟩ := hstep t u e h he
    obtain ⟨t', u', ht', hu', h', houts⟩ := ih h₁ hes
    refine ⟨t', u', (run_cons_of_ok ht₁).trans ht', (run_cons_of_ok hu₁).trans hu', h', ?_⟩
    simp only [outputs, ht₁, hu₁, hout, houts]

theorem Always.of_step {I : List ε → σ → Prop} (h0 : I [] s)
    (hstep : ∀ p e t t', p ++ [e] <+: es → run step s p = .ok t → I p t →
      step t e = .ok t' → I (p ++ [e]) t') : Always step I s es := by
  intro p
  induction p using List.reverseRecOn with
  | nil =>
    intro t _ ht
    obtain rfl : s = t := by simpa using ht
    exact h0
  | append_singleton p e ih =>
    intro t' hp ht'
    obtain ⟨t, ht, hs⟩ := run_concat_eq_ok ht'
    exact hstep p e t t' hp ht (ih t ((List.prefix_append p [e]).trans hp) ht) hs

theorem Always.of_throughout {I : List ε → σ → Prop} {C : σ → ε → Prop} (h0 : I [] s)
    (hstep : ∀ p e t t', p ++ [e] <+: es → run step s p = .ok t → I p t →
      step t e = .ok t' → C t e → I (p ++ [e]) t')
    (h : Throughout step C s es) : Always step I s es :=
  Always.of_step h0 fun p e t t' hp ht hi hs => hstep p e t t' hp ht hi hs (h p e t t' hp ht hs)

theorem Throughout.nil {C : σ → ε → Prop} : Throughout step C s [] := by
  intro p e t t' hp
  exact absurd (List.prefix_nil.mp hp) (by simp)

theorem Throughout.cons {C : σ → ε → Prop} (hs : step s e = .ok t) (hc : C s e)
    (h : Throughout step C t es) : Throughout step C s (e :: es) := by
  intro p d u u' hp hu hd
  cases p with
  | nil =>
    obtain rfl : s = u := by simpa using hu
    obtain rfl : d = e := by simpa using List.prefix_cons_iff.mp hp
    exact hc
  | cons e' p =>
    obtain ⟨rfl, hrest⟩ := List.cons_prefix_cons.mp hp
    rw [run_cons_of_ok hs] at hu
    exact h p d u u' hrest hu hd

/-- A property is decided step by step: the steps that meet `C` keep an
invariant that gives the property, and a step that does not meet `C` breaks the
property at once. -/
theorem always_iff_throughout {P I : List ε → σ → Prop} {C : σ → ε → Prop} (h0 : I [] s)
    (hP : ∀ p t, p <+: es → run step s p = .ok t → I p t → P p t)
    (hgood : ∀ p e t t', p ++ [e] <+: es → run step s p = .ok t → I p t →
      step t e = .ok t' → C t e → I (p ++ [e]) t')
    (hbad : ∀ p e t t', p ++ [e] <+: es → run step s p = .ok t → I p t →
      step t e = .ok t' → ¬ C t e → ¬ P (p ++ [e]) t') :
    Always step P s es ↔ Throughout step C s es := by
  constructor
  · intro h
    have hstepC : ∀ p e t t', p ++ [e] <+: es → run step s p = .ok t → I p t →
        step t e = .ok t' → C t e := by
      intro p e t t' hp ht hi hs
      by_contra hc
      exact hbad p e t t' hp ht hi hs hc (h _ t' hp (run_concat_of_ok ht hs))
    have hinv : Always step I s es := Always.of_step h0 fun p e t t' hp ht hi hs =>
      hgood p e t t' hp ht hi hs (hstepC p e t t' hp ht hi hs)
    exact fun p e t t' hp ht hs =>
      hstepC p e t t' hp ht (hinv p t ((List.prefix_append p [e]).trans hp) ht) hs
  · intro h
    have hinv : Always step I s es := Always.of_throughout h0 hgood h
    exact fun p t hp ht => hP p t hp ht (hinv p t hp ht)

end Machine
