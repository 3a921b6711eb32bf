import SmakChess.Run

/-! The shell commands `lift` and `put`, whose arguments become pins without a
check of the characters. -/

namespace SmakChess

open Machine

inductive Command
  | lift (arg : List UInt8)
  | put (arg : List UInt8)
  deriving DecidableEq, Repr

def pieceHandler : Command → Option Event
  | .lift [fileChar, rankChar] => some (lift (pin fileChar rankChar).toNat)
  | .put [fileChar, rankChar] => some (put (pin fileChar rankChar).toNat)
  | _ => none

def shellEvents (cmds : List Command) : List Event := cmds.filterMap pieceHandler

/-- No event accesses the board outside the array, and an event whose pin is
off the board ends in `error` with the board as it was. -/
def BoardSafe (st : ChessState) (es : List Event) : Prop :=
  ∀ p e t, p ++ [e] <+: es → run step st p = .ok t →
    (∀ i, step t e ≠ .error (.board i)) ∧
    (64 ≤ e.pinNumber → ∃ u, step t e = .ok u ∧ u.ctx.current = some .error ∧ u.board = t.board)

theorem step_of_ge {st : ChessState} {e : Event} (h : ¬ e.pinNumber < 64) :
    step st e = .error (.board e.pinNumber) := pinChangeWith_fault _ _ _ h

theorem pinNumber_lt_of_boardSafe {st : ChessState} {es : List Event} (hw : WellFormed st)
    (h : BoardSafe st es) (p : List Event) (hp : p <+: es) : ∀ e ∈ p, e.pinNumber < 64 := by
  induction p using List.reverseRecOn with
  | nil => exact fun e he => absurd he List.not_mem_nil
  | append_singleton p e ih =>
    have hlt := ih ((List.prefix_append p [e]).trans hp)
    have hsafe := (h p e _ hp (run_eq_foldl _ hw hlt)).1
    intro d hd
    rcases List.mem_append.mp hd with hd | hd
    · exact hlt d hd
    · obtain rfl := List.mem_singleton.mp hd
      by_contra hge
      exact hsafe _ (step_of_ge hge)

/-- The events of the shell commands access only the board, exactly when every
pin the commands compute is on it. -/
theorem boardSafe_iff_pins_lt (st₀ : ChessState) (cmds : List Command) :
    BoardSafe (resetFsm st₀) (shellEvents cmds) ↔
      ∀ e ∈ shellEvents cmds, e.pinNumber < 64 := by
  have hw := wellFormed_resetFsm st₀
  constructor
  · exact fun h => pinNumber_lt_of_boardSafe hw h _ (List.prefix_refl _)
  · intro h p e t hpre ht
    have he : e.pinNumber < 64 := h e (hpre.subset (by simp))
    have hstep := pinChange_eq (wellFormed_of_run ht) he
    refine ⟨fun i hi => ?_, fun hge => absurd he (Nat.not_lt_of_le hge)⟩
    cases hstep.symm.trans hi

theorem lift_a0_not_boardSafe :
    ¬ BoardSafe (resetFsm powerOn) (shellEvents [.lift [97, 48]]) := by
  intro h
  exact (h [] (lift 64) _ (List.prefix_refl _) rfl).1 64 (step_of_ge (by decide))

end SmakChess
