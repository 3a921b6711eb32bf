import SmakChess.PlyNumbers

/-! What a reset leaves behind. Two states whose futures agree stay so under
every event, and any two states agree once they are reset. -/

namespace SmakChess

open Machine

/-- What the rest of the firmware can see of a state. -/
structure SameView (t u : ChessState) : Prop where
  stateVal : t.stateVal = u.stateVal
  board : t.board = u.board
  right : t.right = u.right
  enPassant : t.enPassant = u.enPassant
  ply : t.ply = u.ply
  plySincePonr : t.plySincePonr = u.plySincePonr

/-- The same view, and the same of everything that later events read. The pin,
`can_castle` and the last message may differ, and so may the framework's
context of a machine that has not started. -/
structure SameFuture (t u : ChessState) : Prop extends SameView t u where
  wellFormed_left : WellFormed t
  wellFormed_right : WellFormed u
  enPassantSquare : t.enPassantSquare = u.enPassantSquare
  x : t.x = u.x
  y : t.y = u.y
  resume : resume t = resume u

section Step

variable {t u s st₀ : ChessState} {e : Event} {es : List Event}

theorem sameFuture_resetFsm (s st₀ : ChessState) : SameFuture (resetFsm s) (resetFsm st₀) where
  stateVal := rfl
  board := rfl
  right := rfl
  enPassant := rfl
  ply := rfl
  plySincePonr := rfl
  wellFormed_left := wellFormed_resetFsm s
  wellFormed_right := wellFormed_resetFsm st₀
  enPassantSquare := rfl
  x := rfl
  y := rfl
  resume := rfl

theorem SameFuture.reaction_eq (h : SameFuture t u) (e : Event) : reaction t e = reaction u e := by
  have hactive : active t = active u := by rw [active, active, h.resume]
  have hcastle : mayCastle t = mayCastle u := by
    funext c s
    rw [mayCastle, mayCastle, h.board, h.right]
  have hep : enPassantAt t = enPassantAt u := by
    funext s
    rw [enPassantAt, enPassantAt, h.enPassant, h.enPassantSquare]
  rw [reaction, reaction, hactive]
  cases active u with
  | none => rfl
  | some s =>
    cases s with
    | error => rfl
    | of c p =>
      cases p <;>
        simp only [stateReaction, baseReaction, moveReaction, captureReaction,
          enemyCaptureReaction, castlingReaction, kingdownReaction, kingupRookupReaction,
          lastDownReaction, h.board, h.right, h.x, h.y, hcastle, hep]

theorem SameFuture.plyOf_eq (h : SameFuture t u) (e : Event) : plyOf t e = plyOf u e := by
  rw [plyOf, plyOf, h.reaction_eq, h.board, h.x, h.y]

theorem react_latched (r : Reaction) (st : ChessState) (b : Bool) (m : SmakJsonObj) :
    ∃ m', react r { st with canCastle := b, shellObj := m } =
        { react r st with canCastle := b, shellObj := m' } ∧
      ((∃ c x, r = .quiet c x) ∨ (∃ c, r = .capture c) ∨ (∃ c v, r = .castle c v) →
        m' = (react r st).shellObj) := by
  cases r with
  | quiet c x => exact ⟨_, rfl, fun _ => rfl⟩
  | capture c => exact ⟨_, rfl, fun _ => rfl⟩
  | castle c v => exact ⟨_, rfl, fun _ => rfl⟩
  | _ => exact ⟨m, rfl, by simp⟩

theorem SameFuture.sense_eq (h : SameFuture t u) (e : Event) :
    sense u e = { sense t e with canCastle := canCastleLatch u e.pinNumber, shellObj := u.shellObj } := by
  simp only [sense, h.board, h.resume, h.stateVal, h.right, h.enPassant, h.enPassantSquare,
    h.plySincePonr, h.ply, h.x, h.y, h.wellFormed_left.inRange, h.wellFormed_right.inRange]

theorem SameFuture.next_eq (h : SameFuture t u) (e : Event) :
    ∃ b m, next u e = { next t e with canCastle := b, shellObj := m } ∧
      ((plyOf u e).isSome → m = (next t e).shellObj) := by
  obtain ⟨m, hm, hply⟩ := react_latched (reaction u e) (sense t e)
    (canCastleLatch u e.pinNumber) u.shellObj
  refine ⟨canCastleLatch u e.pinNumber, m, ?_, fun hs => ?_⟩
  · rw [next, next, h.reaction_eq, h.sense_eq, hm]
  · rw [next, h.reaction_eq]
    apply hply
    unfold plyOf at hs
    split at hs <;> simp_all

theorem sameFuture_next (h : SameFuture t u) (hp : e.pinNumber < 64) :
    SameFuture (next t e) (next u e) := by
  have hl := wellFormed_next h.wellFormed_left hp
  have hr := wellFormed_next h.wellFormed_right hp
  obtain ⟨b, m, hnext, -⟩ := h.next_eq e
  rw [hnext] at hr ⊢
  exact ⟨⟨rfl, rfl, rfl, rfl, rfl, rfl⟩, hl, hr, rfl, rfl, rfl, rfl⟩

theorem SameFuture.run_eq (h : SameFuture t u) (hp : ∀ e ∈ es, e.pinNumber < 64) :
    ∃ t' u', run step t es = .ok t' ∧ run step u es = .ok u' ∧ SameFuture t' u' ∧
      messages t es = messages u es := by
  refine run_bisim (fun t u e h hp => ⟨next t e, next u e, pinChange_eq h.wellFormed_left hp,
    pinChange_eq h.wellFormed_right hp, sameFuture_next h hp, ?_⟩) h hp
  obtain ⟨b, m, hnext, hm⟩ := h.next_eq e
  rw [h.plyOf_eq]
  split_ifs with hply
  · simp only [hnext, hm hply]
  · rfl

theorem SameFuture.current_eq (h : SameFuture t u) (ht : t.isStarted = true)
    (hu : u.isStarted = true) : t.ctx.current = u.ctx.current := by
  have hresume := h.resume
  rw [resume_of_isStarted ht, resume_of_isStarted hu] at hresume
  rw [hresume]

theorem isStarted_of_run (hne : es ≠ []) (h : run step (resetFsm st₀) es = .ok t) :
    t.isStarted = true := by
  induction es using List.reverseRecOn with
  | nil => exact absurd rfl hne
  | append_singleton p e _ =>
    obtain ⟨u, hu, hs⟩ := run_concat_eq_ok h
    obtain ⟨-, rfl⟩ := step_eq_ok (wellFormed_of_run hu) hs
    exact next_isStarted

end Step

/-- Whatever state the machine was in, once reset it answers every sequence of
events as it does right after startup. -/
theorem resetFsm_complete (s st₀ : ChessState) (es : List Event)
    (hp : ∀ e ∈ es, e.pinNumber < 64) :
    ∃ t u, run step (resetFsm s) es = .ok t ∧ run step (resetFsm st₀) es = .ok u ∧
      SameView t u ∧ (es ≠ [] → t.ctx.current = u.ctx.current) ∧
      messages (resetFsm s) es = messages (resetFsm st₀) es := by
  obtain ⟨t, u, ht, hu, hsame, hmsg⟩ := (sameFuture_resetFsm s st₀).run_eq hp
  exact ⟨t, u, ht, hu, hsame.toSameView, fun hne => hsame.current_eq
    (isStarted_of_run hne ht) (isStarted_of_run hne hu), hmsg⟩

/-- Two lifts of an empty square halt the machine; the reset brings it back. -/
theorem resetFsm_complete_halted :
    ∃ t u, run step (resetFsm ([lift 20, lift 20].foldl next (resetFsm powerOn)))
        [lift 52, put 36] = .ok t ∧
      run step (resetFsm powerOn) [lift 52, put 36] = .ok u ∧ SameView t u ∧
      ([lift 52, put 36] ≠ [] → t.ctx.current = u.ctx.current) ∧
      messages (resetFsm ([lift 20, lift 20].foldl next (resetFsm powerOn))) [lift 52, put 36] =
        messages (resetFsm powerOn) [lift 52, put 36] :=
  resetFsm_complete _ powerOn _ (by decide)

end SmakChess
