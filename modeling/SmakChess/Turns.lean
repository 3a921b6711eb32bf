import SmakChess.Effects
import SmakChess.ErrorState

/-! Turns: the side of the current state, the parity of `ply`, and the events
that hand the move over. -/

namespace SmakChess

open Machine

def Color.parity : Color → Nat
  | .white => 0
  | .black => 1

theorem Color.parity_inj {c d : Color} (h : c.parity = d.parity) : c = d := by
  cases c <;> cases d <;> first | rfl | cases h

def ParityOfSide (st : ChessState) : Prop :=
  ∀ c p, st.ctx.current = some (.of c p) → st.ply % 2 = c.parity

def sideToMove (st : ChessState) : Option Color :=
  match (resume st).current with
  | some (.of c _) => some c
  | _ => none

/-- The event changes the side exactly if it completes a ply, and then counts
the ply. -/
def ChangesSide (st : ChessState) (e : Event) : Prop :=
  ∀ t, step st e = .ok t →
    (∀ c d, sideToMove st = some c → sideToMove t = some d → (c ≠ d ↔ (plyOf st e).isSome)) ∧
    t.ply = if (plyOf st e).isSome then (st.ply + 1) % 256 else st.ply

section Step

variable {st : ChessState} {e : Event} {c d : Color}

theorem side_of_plyOf_none {p q : Phase} (ha : active st = some (.of c p))
    (hm : ¬ missesCapture st e) (hn : plyOf st e = none)
    (ht : (reaction st e).target (.of c p) = some (.of d q)) : d = c := by
  have hr := stateReaction_reacts (.of c p) st e
  rw [← reaction_eq_stateReaction ha] at hr
  rw [← reaction_eq_derail] at hm
  unfold plyOf at hn
  generalize reaction st e = r at hr hm hn ht
  cases hr <;> first
    | exact absurd rfl hm
    | (cases hn; done)
    | (cases ht; done)
    | (cases ht; rfl)

structure Alternates (st : ChessState) : Prop where
  tracked : Tracked st
  parity : ∀ c p, st.stateVal = .of c p → st.ply % 2 = c.parity

theorem alternates_resetFsm (st₀ : ChessState) : Alternates (resetFsm st₀) where
  tracked := tracked_resetFsm st₀
  parity c p h := by cases h; rfl

theorem Alternates.parityOfSide (h : Alternates st) (hs : st.isStarted = true) :
    ParityOfSide st := by
  intro c p hc
  rw [h.tracked.inStep hs, Option.some.injEq] at hc
  exact h.parity c p hc

/-- `reset_fsm` leaves the current state of the last game in place. -/
theorem parityOfSide_resetFsm (st₀ : ChessState) :
    ParityOfSide (resetFsm st₀) ↔ ∀ p, st₀.ctx.current ≠ some (.of .black p) := by
  constructor
  · intro h p hc
    have hply : 0 % 2 = Color.black.parity := h .black p hc
    cases hply
  · intro h c p hc
    cases c with
    | white => rfl
    | black => exact absurd hc (h p)

theorem parity_other {n : Nat} (h : n % 2 = c.parity) :
    (n + 1) % 256 % 2 = c.other.parity := by
  cases c <;> simp only [Color.parity, Color.other] at h ⊢ <;> omega

theorem Tracked.sideToMove_eq (h : Tracked st) :
    sideToMove st = match st.stateVal with | .of c _ => some c | .error => none := by
  rw [sideToMove, h.resume_current]
  cases st.stateVal <;> rfl

theorem alternates_next (h : Alternates st) (hm : ¬ missesCapture st e) :
    Alternates (next st e) := by
  have htr := tracked_next h.tracked hm
  refine ⟨htr, fun d q hq => ?_⟩
  cases ha : active st with
  | none =>
    have hn := active_next_none (e := e) ha
    rw [htr.active_none hn] at hq
    cases hq
  | some s =>
    have hs := h.tracked.active_eq ha
    rw [next_ply]
    cases hp : plyOf st e with
    | some r =>
      obtain ⟨p, hr⟩ := active_of_plyOf hp
      obtain rfl : s = .of r.color p := Option.some.inj (ha.symm.trans hr)
      have hn := htr.active_eq (active_next_of_plyOf hp)
      obtain ⟨rfl, -⟩ : r.color.other = d ∧ _ := by simpa using hn.symm.trans hq
      exact parity_other (h.parity _ _ hs)
    | none =>
      cases s with
      | error =>
        have he := (next_of_error (e := e) h.tracked hs).2.1
        cases he.symm.trans hq
      | of c p =>
        have ht : (reaction st e).target (.of c p) = some (.of d q) := by
          rw [← active_next ha]
          cases hn : active (next st e) with
          | none => cases (htr.active_none hn).symm.trans hq
          | some u => rw [← htr.active_eq hn, hq]
        rw [side_of_plyOf_none ha hm hp ht]
        exact h.parity _ _ hs

theorem side_of_alternates (h : Alternates st) (ha : Alternates (next st e))
    (hc : sideToMove st = some c) (hd : sideToMove (next st e) = some d) :
    st.ply % 2 = c.parity ∧ (next st e).ply % 2 = d.parity := by
  rw [h.tracked.sideToMove_eq] at hc
  rw [ha.tracked.sideToMove_eq] at hd
  cases hsv : st.stateVal with
  | error => simp [hsv] at hc
  | of c' p =>
    cases htv : (next st e).stateVal with
    | error => simp [htv] at hd
    | of d' q =>
      obtain rfl : c' = c := by simpa [hsv] using hc
      obtain rfl : d' = d := by simpa [htv] using hd
      exact ⟨h.parity _ _ hsv, ha.parity _ _ htv⟩

theorem changesSide_of_alternates (hw : WellFormed st) (h : Alternates st)
    (hm : ¬ missesCapture st e) : ChangesSide st e := by
  intro t ht
  obtain ⟨-, rfl⟩ := step_eq_ok hw ht
  refine ⟨fun c d hc hd => ?_, next_ply⟩
  obtain ⟨hbefore, hafter⟩ := side_of_alternates h (alternates_next h hm) hc hd
  rw [next_ply] at hafter
  cases hp : plyOf st e with
  | some r =>
    simp only [hp, Option.isSome_some, if_true] at hafter ⊢
    rw [parity_other hbefore] at hafter
    have hother : c.other = d := Color.parity_inj hafter
    subst hother
    cases c <;> simp [Color.other]
  | none =>
    simp only [hp, Option.isSome_none, Bool.false_eq_true, if_false] at hafter ⊢
    have hsame : c = d := Color.parity_inj (hbefore.symm.trans hafter)
    simpa using hsame

theorem not_parityOfSide_of_missesCapture (h : Alternates st) (hm : missesCapture st e) :
    ¬ ParityOfSide (next st e) := by
  intro hs
  have hd := reaction_eq_derail.mpr hm
  have hc : (next st e).ctx.current = some (.of .black .base) := by rw [next_current, hd]; rfl
  have hply : (next st e).ply = st.ply := by rw [next_ply, plyOf, hd]; rfl
  have hafter := hs _ _ hc
  rw [hply, h.parity _ _ (h.tracked.active_eq hm.1)] at hafter
  cases hafter

end Step

/-- The sides alternate with the plies along a run, exactly when no event of
the run misses a capture by white, and the state that is still current at the
reset, where none has been set yet, is not one of black's. -/
theorem turns_alternate_iff_no_missed_capture (st₀ : ChessState) (es : List Event) :
    (Always step (fun _ t => ParityOfSide t) (resetFsm st₀) es ∧
        Throughout step ChangesSide (resetFsm st₀) es) ↔
      (∀ p, st₀.ctx.current ≠ some (.of .black p)) ∧
        Throughout step (fun t e => ¬ missesCapture t e) (resetFsm st₀) es := by
  have hiff (h0 : ParityOfSide (resetFsm st₀)) :
      Always step (fun _ t => ParityOfSide t) (resetFsm st₀) es ↔
        Throughout step (fun t e => ¬ missesCapture t e) (resetFsm st₀) es := by
    refine always_iff_of_next (I := fun _ t => Alternates t ∧ ParityOfSide t)
      ⟨alternates_resetFsm st₀, h0⟩ (fun p t _ hi => hi.2) ?_ ?_
    · intro p e t _ _ _ hi hc
      have ha := alternates_next hi.1 hc
      exact ⟨ha, ha.parityOfSide next_isStarted⟩
    · exact fun p e t _ _ _ hi hc => not_parityOfSide_of_missesCapture hi.1 (not_not.mp hc)
  constructor
  · rintro ⟨hparity, -⟩
    have h0 : ParityOfSide (resetFsm st₀) := hparity [] _ List.nil_prefix rfl
    exact ⟨(parityOfSide_resetFsm st₀).mp h0, (hiff h0).mp hparity⟩
  · rintro ⟨hcurrent, h⟩
    have h0 := (parityOfSide_resetFsm st₀).mpr hcurrent
    refine ⟨(hiff h0).mpr h, ?_⟩
    have hinv : Always step (fun _ t => Alternates t) (resetFsm st₀) es := by
      refine Always.of_throughout (alternates_resetFsm st₀) ?_ h
      intro p e t t' _ ht hi hs hc
      obtain ⟨-, rfl⟩ := step_eq_ok (wellFormed_of_run ht) hs
      exact alternates_next hi hc
    intro p e t t' hpre ht hs
    have hi := hinv p t ((List.prefix_append p [e]).trans hpre) ht
    exact changesSide_of_alternates (wellFormed_of_run ht) hi (h p e t t' hpre ht hs)

/-- White lifts e2 and e7 and puts a piece down on e4: black is to move at ply 0. -/
theorem missed_capture_loses_turn :
    ¬ (Always step (fun _ t => ParityOfSide t) (resetFsm powerOn) [lift 52, lift 12, put 36] ∧
      Throughout step ChangesSide (resetFsm powerOn) [lift 52, lift 12, put 36]) := by
  rintro ⟨h, -⟩
  have hr := run_eq_foldl [lift 52, lift 12, put 36] (wellFormed_resetFsm powerOn)
    (by decide)
  have hc := h _ _ (List.prefix_refl _) hr .black .base rfl
  exact absurd hc (by decide)

end SmakChess
