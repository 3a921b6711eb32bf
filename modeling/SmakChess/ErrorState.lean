import SmakChess.Run

/-! The two records of where the machine is, `state_val` and the framework's
current state, and what an error leaves untouched. -/

namespace SmakChess

open Machine

/-- White has lifted the attacker and the victim, and the event is not the
put-down that completes the capture. -/
def missesCapture (st : ChessState) (e : Event) : Prop :=
  active st = some .whiteCapture ∧
    ¬ (e.isUp = false ∧ (st.y = e.pinNumber ∨ enPassantAt st e.pinNumber = true))

def InStep (st : ChessState) : Prop :=
  st.isStarted = true → st.ctx.current = some st.stateVal

def ErrorFinal (st : ChessState) : Prop :=
  st.stateVal = .error →
    ∀ es u, run step st es = .ok u → u.stateVal = .error ∧ SameGame st u

structure Tracked (st : ChessState) : Prop where
  fresh : st.isStarted = false → st.stateVal = .white
  inStep : InStep st
  stopped : st.isStarted = true → st.ctx.terminate = true → st.stateVal = .error

section Step

variable {st : ChessState} {e : Event} {s : States}

theorem reaction_eq_derail : reaction st e = .derail ↔ missesCapture st e := by
  constructor
  · intro h
    rcases reaction_reacts st e with ⟨-, hr⟩ | ⟨s, hs, hr⟩
    · rw [h] at hr
      cases hr
    · rw [h] at hr
      cases hr with
      | derail hm => exact ⟨hs, hm⟩
  · rintro ⟨hs, hm⟩
    rw [reaction_eq_stateReaction hs, stateReaction, captureReaction, if_neg hm]
    rfl

theorem Tracked.resume_current (h : Tracked st) : (resume st).current = some st.stateVal := by
  cases hst : st.isStarted with
  | false => simp [resume, hst, h.fresh hst]
  | true => rw [resume_of_isStarted hst, h.inStep hst]

theorem Tracked.active_eq (h : Tracked st) (hs : active st = some s) : st.stateVal = s :=
  Option.some.inj (h.resume_current.symm.trans (active_eq_some.mp hs).2)

theorem Tracked.active_none (h : Tracked st) (hs : active st = none) : st.stateVal = .error := by
  cases hst : st.isStarted with
  | false => simp [active, resume, hst] at hs
  | true =>
    have hc := h.inStep hst
    apply h.stopped hst
    simpa [active, resume_of_isStarted hst, hc] using hs

theorem tracked_resetFsm (st₀ : ChessState) : Tracked (resetFsm st₀) where
  fresh _ := rfl
  inStep h := by cases h
  stopped h := by cases h

theorem Tracked.stops (h : Tracked st) (herr : st.stateVal = .error) (e : Event) :
    reaction st e = .ignore ∨ reaction st e = .halt := by
  cases ha : active st with
  | none => exact .inl (by rw [reaction, ha])
  | some s =>
    obtain rfl : s = .error := (h.active_eq ha).symm.trans herr
    exact .inr (reaction_eq_stateReaction ha)

theorem tracked_next (h : Tracked st) (hm : ¬ missesCapture st e) : Tracked (next st e) := by
  have hr : reaction st e ≠ .derail := fun hd => hm (reaction_eq_derail.mp hd)
  refine ⟨fun hs => ?_, fun _ => ?_, fun _ ht => ?_⟩
  · simp at hs
  · rw [next_current, next_stateVal]
    cases hd : reaction st e with
    | derail => exact absurd hd hr
    | ignore => exact h.resume_current
    | halt => exact h.resume_current
    | _ => rfl
  · have herr : st.stateVal = .error := by
      cases ha : active st with
      | none => exact h.active_none ha
      | some s =>
        obtain ⟨hterm, -⟩ := active_eq_some.mp ha
        rw [next_terminate, hterm, Bool.false_or, beq_iff_eq] at ht
        have hre := stateReaction_reacts s st e
        rw [← reaction_eq_stateReaction ha, ht] at hre
        cases hre
        exact h.active_eq ha
    rw [next_stateVal]
    rcases h.stops herr e with hi | hi <;> rw [hi] <;> exact herr

theorem not_inStep_of_missesCapture (h : missesCapture st e) : ¬ InStep (next st e) := by
  intro hs
  have hd := reaction_eq_derail.mpr h
  have hc := hs next_isStarted
  rw [next_current, next_stateVal, hd] at hc
  cases hc

theorem next_of_error (h : Tracked st) (herr : st.stateVal = .error) :
    Tracked (next st e) ∧ (next st e).stateVal = .error ∧ SameGame st (next st e) := by
  have hi := h.stops herr e
  have hm : ¬ missesCapture st e := by
    rw [← reaction_eq_derail]
    rcases hi with hi | hi <;> rw [hi] <;> exact Reaction.noConfusion
  have hp : plyOf st e = none := by
    rcases hi with hi | hi <;> rw [plyOf, hi]
  refine ⟨tracked_next h hm, ?_, next_frame hp⟩
  rw [next_stateVal]
  rcases hi with hi | hi <;> rw [hi] <;> exact herr

theorem errorFinal_of_tracked (hw : WellFormed st) (h : Tracked st) : ErrorFinal st := by
  intro herr es u hu
  have hinv : Always step
      (fun _ u => WellFormed u ∧ Tracked u ∧ u.stateVal = .error ∧ SameGame st u) st es := by
    refine Always.of_step ⟨hw, h, herr, .refl st⟩ ?_
    rintro p e t t' - - ⟨hwt, ht, hte, hsame⟩ hs
    obtain ⟨hp, rfl⟩ := step_eq_ok hwt hs
    obtain ⟨ht', hte', hsame'⟩ := next_of_error (e := e) ht hte
    exact ⟨wellFormed_next hwt hp, ht', hte', hsame.trans hsame'⟩
  exact (hinv es u (List.prefix_refl es) hu).2.2

end Step

/-- In every state of a run `state_val` names the current state and an error is
final, exactly when no event of the run misses a capture by white. -/
theorem error_final_iff_no_missed_capture (st₀ : ChessState) (es : List Event) :
    Always step (fun _ t => InStep t ∧ ErrorFinal t) (resetFsm st₀) es ↔
      Throughout step (fun t e => ¬ missesCapture t e) (resetFsm st₀) es := by
  refine always_iff_of_next (I := fun _ t => Tracked t) (tracked_resetFsm st₀) ?_ ?_ ?_
  · exact fun p t ht hi => ⟨hi.inStep, errorFinal_of_tracked (wellFormed_of_run ht) hi⟩
  · exact fun p e t _ _ _ hi hc => tracked_next hi hc
  · intro p e t _ _ _ _ hc hP
    exact not_inStep_of_missesCapture (not_not.mp hc) hP.1

/-- White lifts e2 and e7 and puts a piece down on e4. -/
theorem missed_capture_not_final :
    ¬ Always step (fun _ t => InStep t ∧ ErrorFinal t) (resetFsm powerOn)
      [lift 52, lift 12, put 36] := by
  intro h
  have hr := run_eq_foldl [lift 52, lift 12, put 36] (wellFormed_resetFsm powerOn)
    (by decide)
  have hc := (h _ _ (List.prefix_refl _) hr).1 rfl
  exact absurd hc (by decide)

end SmakChess
