import SmakChess.ErrorState
import SmakChess.Gestures

/-! The lift of an empty square: which states report it. -/

namespace SmakChess

open Machine

def GhostDetected (st : ChessState) (s : Nat) : Prop :=
  ∃ u, step st (lift s) = .ok u ∧ u.stateVal = .error ∧ u.ctx.current = some .error ∧
    u.board = st.board ∧ u.right = st.right ∧ u.ply = st.ply ∧ u.shellObj = st.shellObj

/-- The run functions that have no branch to `error` for the lift: those of the
two castling states pass over it, and white's capture sets the state `black`. -/
def States.missesGhost : States → Bool
  | .of .white .capture => true
  | .of _ .castling => true
  | _ => false

section Step

variable {st st₀ t : ChessState} {e : Event} {es : List Event} {s : Nat} {c : Color} {p : Phase}

theorem stateReaction_ghost (hb : st.board s = .emptySquare) :
    stateReaction (.of c p) st (lift s) =
      if p = .castling then .ignore
      else if p = .capture ∧ c = .white then .derail
      else .enter .error st.x st.y := by
  cases p with
  | base => simp [stateReaction, baseReaction, hb]
  | move => simp [stateReaction, moveReaction, hb, SmakPiece.owner]
  | capture => cases c <;> simp [stateReaction, captureReaction]
  | enemyCapture => simp [stateReaction, enemyCaptureReaction, hb, SmakPiece.owner]
  | castling => simp [stateReaction, castlingReaction, hb, SmakPiece.owner]
  | kingdown v => simp [stateReaction, kingdownReaction, hb]
  | kingupRookup v => simp [stateReaction, kingupRookupReaction]
  | kingdownRookup v => simp [stateReaction, lastDownReaction]
  | kingupRookdown v => simp [stateReaction, lastDownReaction]

/-- Once started, the machine terminates in `error` only. -/
theorem current_of_terminate (h : run step (resetFsm st₀) es = .ok t) (hs : t.isStarted = true)
    (ht : t.ctx.terminate = true) : t.ctx.current = some .error := by
  refine always_of_next (I := fun _ t => t.isStarted = true → t.ctx.terminate = true →
    t.ctx.current = some .error) ?_ ?_ es t (List.prefix_refl es) h hs ht
  · intro hs
    cases hs
  · intro q e t _ _ hi _ ht
    rw [next_current]
    rcases reaction_reacts t e with ⟨hnone, hr⟩ | ⟨s, hsome, hr⟩
    · rw [next_terminate, hr] at ht
      rw [hr]
      have hterm : (resume t).terminate = true := by simpa using ht
      have hst : t.isStarted = true := by
        by_contra hn
        simp [resume, hn] at hterm
      rw [resume_of_isStarted hst] at hterm ⊢
      exact hi hst hterm
    · obtain ⟨hterm, hcurrent⟩ := active_eq_some.mp hsome
      rw [next_terminate, hterm] at ht
      have hhalt : reaction t e = .halt := by simpa using ht
      rw [hhalt] at hr ⊢
      cases hr
      exact hcurrent

theorem exists_active (h : run step (resetFsm st₀) es = .ok t)
    (hc : t.ctx.current ≠ some .error) : ∃ c p, active t = some (.of c p) := by
  cases hs : t.isStarted with
  | false => exact ⟨.white, .base, by simp [active, resume, hs]⟩
  | true =>
    have hterm : t.ctx.terminate = false := by
      by_contra hn
      exact hc (current_of_terminate h hs (by simpa using hn))
    obtain ⟨s, hcurrent⟩ := Option.isSome_iff_exists.mp ((wellFormed_of_run h).current hs)
    have ha : active t = some s := by
      rw [active_eq_some, resume_of_isStarted hs]
      exact ⟨hterm, hcurrent⟩
    cases s with
    | error => exact absurd hcurrent hc
    | of c p => exact ⟨c, p, ha⟩

end Step

/-- The lift of an empty square is reported, exactly when the state whose run
function it calls is neither a castling state nor white's capture. -/
theorem ghostDetected_iff {st₀ t : ChessState} {es : List Event} {s : Nat}
    (h : run step (resetFsm st₀) es = .ok t) (hc : t.ctx.current ≠ some .error) (hs : s < 64)
    (hb : t.board s = .emptySquare) :
    GhostDetected t s ↔ ∀ u, active t = some u → u.missesGhost = false := by
  obtain ⟨c, p, ha⟩ := exists_active h hc
  have hr := (reaction_eq_stateReaction ha).trans (stateReaction_ghost hb)
  have hn : plyOf t (lift s) = none := by
    rw [plyOf, hr]
    split_ifs <;> rfl
  have hf := next_frame hn
  have hiff : GhostDetected t s ↔ reaction t (lift s) = .enter .error t.x t.y := by
    constructor
    · rintro ⟨u, hu, hstate, hcurrent, -⟩
      obtain ⟨-, rfl⟩ := step_eq_ok (wellFormed_of_run h) hu
      rw [next_current] at hcurrent
      obtain ⟨-, hcur⟩ := active_eq_some.mp ha
      rw [hr] at hcurrent ⊢
      split_ifs at hcurrent ⊢
      · rw [hcur] at hcurrent
        cases hcurrent
      · cases hcurrent
      · rfl
    · intro he
      have hstep := pinChange_eq (e := lift s) (wellFormed_of_run h) hs
      refine ⟨_, hstep, ?_, ?_, hf.board, hf.right, hf.ply, hf.shellObj⟩
      · rw [next_stateVal, he]
        rfl
      · rw [next_current, he]
        rfl
  rw [hiff, hr, ha]
  cases p with
  | castling => simp [States.missesGhost]
  | capture => cases c <;> simp [States.missesGhost]
  | _ => cases c <;> simp [States.missesGhost]

/-- The empty square a4 is lifted in black's second event. -/
theorem ghostDetected_iff_black_move :
    GhostDetected ([lift 52, put 36, lift 12].foldl next (resetFsm powerOn)) 32 ↔
      ∀ u, active ([lift 52, put 36, lift 12].foldl next (resetFsm powerOn)) = some u →
        u.missesGhost = false :=
  ghostDetected_iff (run_eq_foldl [lift 52, put 36, lift 12] (wellFormed_resetFsm powerOn)
    (by decide)) (by decide) (by decide) (by decide)

/-- White's king is in the air, and the lift of a4 is passed over. -/
theorem castling_misses_ghost :
    ∃ t, run step (resetFsm powerOn) [lift 60] = .ok t ∧ t.ctx.current ≠ some .error ∧
      t.board 32 = .emptySquare ∧ ¬ GhostDetected t 32 := by
  have hr := run_eq_foldl [lift 60] (wellFormed_resetFsm powerOn) (by decide)
  refine ⟨_, hr, by decide, by decide, ?_⟩
  rintro ⟨u, hu, hstate, -⟩
  obtain ⟨-, rfl⟩ := step_eq_ok (wellFormed_of_run hr) hu
  exact absurd hstate (by decide)

end SmakChess
