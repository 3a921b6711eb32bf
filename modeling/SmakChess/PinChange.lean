import SmakChess.Reaction

/-! `pin_change` computes the closed form: one lemma for each function of the
source, then the dispatch on the current state. -/

namespace SmakChess

theorem kingStartingsquare_lt (c : Color) : kingStartingsquare c < 64 := by
  cases c <;> decide

theorem rookStartingsquare_lt (c : Color) (v : Wing) : rookStartingsquare c v < 64 := by
  cases c <;> cases v <;> decide

theorem kingCastlesquare_lt (c : Color) (v : Wing) : kingCastlesquare c v < 64 := by
  cases c <;> cases v <;> decide

theorem rookCastlesquare_lt (c : Color) (v : Wing) : rookCastlesquare c v < 64 := by
  cases c <;> cases v <;> decide

section Access

variable {st : ChessState} {i : Nat} {p : SmakPiece}

theorem read_eq (hi : i < 64) : st.read i = .ok (st.board i) := if_pos hi

theorem write_eq (hi : i < 64) :
    st.write i p = .ok { st with board := Function.update st.board i p } := if_pos hi

theorem enter_eq {s : States} (hp : st.pinNumber < 64) : st.enter s = st.goto s := by
  have hn : ¬ st.pinNumber > 64 := by omega
  simp [ChessState.enter, smfSetState, generalEntry, ChessState.goto, hn]

theorem sendMove_eq (hp : st.pinNumber < 64) : sendMove st = .ok { st with
    shellObj := ⟨0, st.ply, st.x, st.pinNumber, st.board st.pinNumber, .emptySquare, .normal⟩ } := by
  simp only [sendMove, read_eq hp]
  rfl

theorem checkEnPassant_eq (c : Color) (hi : i < 64) :
    checkEnPassant st i (.man c .pawn) = .ok { st with
      enPassant := if st.board i = .man c .pawn then twoRanks c st.x i else st.enPassant
      enPassantSquare := if st.board i = .man c .pawn then jumped c i else st.enPassantSquare } := by
  by_cases hb : st.board i = .man c .pawn <;> cases c <;>
    simp [checkEnPassant, read_eq hi, hb, twoRanks, jumped, bind, Except.bind, pure, Except.pure]

theorem handlePonr_eq (hi : i < 64) :
    handlePonr st i p = .ok { st with
      plySincePonr := if st.board i = p then 0 else (st.plySincePonr + 1) % 256 } := by
  by_cases hb : st.board i = p <;>
    simp [handlePonr, read_eq hi, hb, bind, Except.bind, pure, Except.pure]

theorem checkCastling_eq (c : Color) (hi : i < 64) :
    checkCastling st i (.man c .king) = .ok { st with
      right := rightsAfter c (st.board i) st.x st.right } := by
  by_cases hk : st.board i = .man c .king
  · simp [checkCastling, read_eq hi, hk, rightsAfter, ChessState.clearRights, bind, Except.bind,
      pure, Except.pure]
  · by_cases hr : st.board i = .man c .rook <;>
      simp [checkCastling, read_eq hi, hk, hr, rightsAfter, bind, Except.bind, pure, Except.pure]

theorem handlePromotion_eq (c : Color) (hi : i < 64) :
    handlePromotion st i (.man c .pawn) = .ok ({ st with board := promote c st.board i },
      decide (st.board i = .man c .pawn ∧ lastRank c i = true)) := by
  cases c with
  | white =>
    by_cases hb : st.board i = pWhitePawn <;> by_cases hl : i < 8 <;>
      simp [handlePromotion, read_eq hi, write_eq hi, promote, lastRank, hb, hl, bind,
        Except.bind, pure, Except.pure]
  | black =>
    by_cases hb : st.board i = pBlackPawn <;> by_cases hl : 55 < i <;>
      simp [handlePromotion, read_eq hi, write_eq hi, promote, lastRank, hb, hl, bind,
        Except.bind, pure, Except.pure]

end Access

/-- What `pin_change` has established when it calls the run function. -/
structure Latched (st : ChessState) : Prop where
  pin_lt : st.pinNumber < 64
  x_lt : st.x < 64
  y_lt : st.y < 64
  inRange : st.directToError = false
  down : st.isDown = !st.isUp
  empty : st.isEmptySquare = (st.board st.pinNumber == .emptySquare)
  owner : ∀ c, st.isPieceOf c = ((st.board st.pinNumber).owner == some c)

abbrev ChessState.event (st : ChessState) : Event := ⟨st.pinNumber, st.isUp⟩

section Runs

variable {st : ChessState} {pc : ChessState → Nat → Bool → Except Fault ChessState}
  (c : Color) (v : Wing)

theorem canCastle_eq {i : Nat} (hi : i < 64) :
    canCastle st (.of c .base) i = .ok (mayCastle st c i) := by
  cases c <;> simp [canCastle, mayCastle, read_eq hi, bind, Except.bind, pure, Except.pure]

@[simp] theorem setX_self : st.setX st.x = st := rfl

@[simp] theorem setY_self : st.setY st.y = st := rfl

@[simp] theorem setX_setY_self (x : Nat) : (st.setX x).setY st.y = st.setX x := rfl

theorem baseRun_eq (h : Latched st) :
    baseRun c st = .ok (react (baseReaction c st st.event) st) := by
  have hx : (st.setX st.pinNumber).pinNumber < 64 := h.pin_lt
  have hy : (st.setY st.pinNumber).pinNumber < 64 := h.pin_lt
  simp only [baseRun, h.inRange, h.down, h.empty, h.owner, canCastle_eq c h.pin_lt,
    enter_eq h.pin_lt, enter_eq hx, enter_eq hy, baseReaction]
  by_cases hu : st.isUp = true <;> by_cases hb : st.board st.pinNumber = .emptySquare <;>
    by_cases hm : mayCastle st c st.pinNumber = true <;>
    by_cases ho : (st.board st.pinNumber).owner = some c <;>
    simp [hu, hb, hm, ho, react, pure, Except.pure, bind, Except.bind]

theorem moveRun_quiet (h : Latched st) (hd : st.isUp = false) (hx : st.x ≠ st.pinNumber) :
    moveRun c st = .ok (quietEffect c st) := by
  have hp := h.pin_lt
  have hlt := h.x_lt
  simp [moveRun, h.down, hd, hx, enter_eq hp, read_eq hlt, write_eq hp, write_eq hlt,
    checkEnPassant_eq c hp, handlePonr_eq hp, checkCastling_eq c hp, handlePromotion_eq c hp,
    sendMove_eq, hp, bind, Except.bind, ChessState.goto, quietEffect, moved]
  exact ⟨rfl, rfl, rfl⟩

theorem moveRun_eq (h : Latched st) :
    moveRun c st = .ok (react (moveReaction c st st.event) st) := by
  have hy : (st.setY st.pinNumber).pinNumber < 64 := h.pin_lt
  by_cases hu : st.isUp = true
  · by_cases ho : (st.board st.pinNumber).owner = some c.other <;>
      simp [moveRun, moveReaction, h.down, h.owner, hu, ho, enter_eq h.pin_lt,
        enter_eq hy, react, pure, Except.pure]
  · have hd : st.isUp = false := by simpa using hu
    by_cases hx : st.x = st.pinNumber
    · simp [moveRun, moveReaction, h.down, hd, hx, enter_eq h.pin_lt, react,
        pure, Except.pure]
      rw [← hx, setX_self]
    · simp [moveRun_quiet c h hd hx, moveReaction, hd, hx, react]

theorem captureRun_completes (missed : States) (h : Latched st) (hd : st.isUp = false)
    (hs : st.y = st.pinNumber ∨ enPassantAt st st.pinNumber = true) :
    captureRun c missed st = .ok (captureEffect c st) := by
  have hp := h.pin_lt
  have hx := h.x_lt
  have hy := h.y_lt
  have he : (st.enPassant && st.enPassantSquare == st.pinNumber) =
    enPassantAt st st.pinNumber := rfl
  by_cases ha : enPassantAt st st.pinNumber = true
  · simp [captureRun, h.down, hd, he, ha, enter_eq hp, read_eq hx, read_eq hy, write_eq hp,
      write_eq hx, write_eq hy, checkCastling_eq c hp, handlePromotion_eq c hp, sendMove_eq, hp,
      bind, Except.bind, ChessState.goto, captureEffect, captured, moved]
  · have hd' : (st.y == st.pinNumber) = true := by simpa [ha] using hs
    simp only [captureRun, h.down, hd, he, ha, hd', enter_eq hp, read_eq hx, read_eq hy,
      write_eq hp, write_eq hx, checkCastling_eq c hp, handlePromotion_eq c hp, sendMove_eq, hp,
      bind, Except.bind, pure, Except.pure, ChessState.goto, captureEffect, captured, moved,
      Bool.not_false, Bool.true_and, Bool.true_or, if_true, if_false, Bool.false_eq_true]

theorem captureRun_missed (missed : States) (h : Latched st)
    (hs : ¬ (st.isUp = false ∧ (st.y = st.pinNumber ∨ enPassantAt st st.pinNumber = true))) :
    captureRun c missed st =
      .ok { st with ctx := { st.ctx with current := some missed }, stateVal := .error } := by
  have hn : ¬ st.pinNumber > 64 := by have := h.pin_lt; omega
  have hc : (st.isDown && st.y == st.pinNumber ||
      st.isDown && st.enPassant && st.enPassantSquare == st.pinNumber) = false := by
    rw [h.down]
    simp only [enPassantAt, Bool.and_eq_true, beq_iff_eq] at hs
    simp only [Bool.or_eq_false_iff, Bool.and_eq_false_iff, Bool.not_eq_false', beq_eq_false_iff_ne]
    grind
  simp [captureRun, hc, smfSetState, generalEntry, hn, pure, Except.pure]

theorem whiteCaptureRun_eq (h : Latched st) :
    whiteCaptureRun st = .ok (react (captureReaction .white st st.event) st) := by
  by_cases hs : st.isUp = false ∧ (st.y = st.pinNumber ∨ enPassantAt st st.pinNumber = true)
  · rw [whiteCaptureRun, captureRun_completes _ _ h hs.1 hs.2, captureReaction, if_pos hs]
    rfl
  · rw [whiteCaptureRun, captureRun_missed _ _ h hs, captureReaction, if_neg hs]
    rfl

theorem blackCaptureRun_eq (h : Latched st) :
    blackCaptureRun st = .ok (react (captureReaction .black st st.event) st) := by
  by_cases hs : st.isUp = false ∧ (st.y = st.pinNumber ∨ enPassantAt st st.pinNumber = true)
  · rw [blackCaptureRun, captureRun_completes _ _ h hs.1 hs.2, captureReaction, if_pos hs]
    rfl
  · rw [blackCaptureRun, captureRun_missed _ _ h hs, captureReaction, if_neg hs]
    rfl

theorem enemyCaptureRun_eq (h : Latched st) :
    enemyCaptureRun c st = react (enemyCaptureReaction c st st.event) st := by
  have hx : (st.setX st.pinNumber).pinNumber < 64 := h.pin_lt
  simp only [enemyCaptureRun, enemyCaptureReaction, h.down, h.owner,
    enter_eq h.pin_lt, enter_eq hx, Bool.and_eq_true, beq_iff_eq, Bool.not_eq_true']
  split_ifs <;> first | rfl | (exfalso; simp_all)

theorem kingdownRun_eq (h : Latched st) :
    kingdownRun c v st = .ok (react (kingdownReaction c v st st.event) st) := by
  simp only [kingdownRun, kingdownReaction, read_eq h.pin_lt,
    enter_eq h.pin_lt, bind, Except.bind, pure, Except.pure, Bool.and_eq_true, beq_iff_eq]
  split_ifs <;> first | rfl | (exfalso; tauto)

theorem kingupRookupRun_eq (h : Latched st) :
    kingupRookupRun c v st = react (kingupRookupReaction c v st st.event) st := by
  simp only [kingupRookupRun, kingupRookupReaction, h.down,
    enter_eq h.pin_lt, Bool.and_eq_true, beq_iff_eq, Bool.not_eq_true']
  split_ifs <;> rfl

theorem endCastling_eq : endCastling c v st = .ok { st.clearRights c with
    ply := (st.ply + 1) % 256
    enPassant := false
    board := castled c v st.board } := by
  simp [endCastling, write_eq (rookStartingsquare_lt c v), write_eq (rookCastlesquare_lt c v),
    write_eq (kingStartingsquare_lt c), write_eq (kingCastlesquare_lt c v), bind, Except.bind,
    castled, ChessState.clearRights]

theorem kingdownRookupRun_eq (h : Latched st) :
    kingdownRookupRun c v st =
      .ok (react (lastDownReaction c v (rookCastlesquare c v) st st.event) st) := by
  simp only [kingdownRookupRun, lastDownReaction, h.down, endCastling_eq,
    enter_eq h.pin_lt, bind, Except.bind, pure, Except.pure, Bool.and_eq_true, beq_iff_eq,
    Bool.not_eq_true']
  split_ifs
  · rw [enter_eq (by exact h.pin_lt)]
    rfl
  · rfl

theorem kingupRookdownRun_eq (h : Latched st) :
    kingupRookdownRun c v st =
      .ok (react (lastDownReaction c v (kingCastlesquare c v) st st.event) st) := by
  simp only [kingupRookdownRun, lastDownReaction, h.down, endCastling_eq,
    enter_eq h.pin_lt, bind, Except.bind, pure, Except.pure, Bool.and_eq_true, beq_iff_eq,
    Bool.not_eq_true']
  split_ifs
  · rw [enter_eq (by exact h.pin_lt)]
    rfl
  · rfl

theorem castlingRun_eq (h : Latched st)
    (hpc : st.isUp = false → st.pinNumber ≠ kingStartingsquare c →
      pc ((st.setX (kingStartingsquare c)).goto (.of c .move)) st.pinNumber st.isUp =
        .ok (quietEffect c (st.setX (kingStartingsquare c)))) :
    castlingRun c pc st = .ok (react (castlingReaction c st st.event) st) := by
  have hx : (st.setX (kingStartingsquare c)).pinNumber < 64 := h.pin_lt
  have hxy : ((st.setY st.pinNumber).setX (kingStartingsquare c)).pinNumber < 64 := h.pin_lt
  simp only [castlingRun, castlingReaction, h.down, h.owner, read_eq h.pin_lt, enter_eq h.pin_lt,
    enter_eq hx, enter_eq hxy, bind, Except.bind, pure, Except.pure, Bool.and_eq_true,
    beq_iff_eq, Bool.not_eq_true']
  split_ifs with hd hk
  all_goals try rfl
  · exact hpc hd hk
  all_goals exfalso; tauto

end Runs

theorem blackLatch (p : SmakPiece) :
    (!(p == .emptySquare) && !decide (p.toChar < 'a')) = (p.owner == some .black) := by
  cases p with
  | emptySquare => decide
  | man c k => cases c <;> cases k <;> decide

theorem whiteLatch (p : SmakPiece) :
    (!(p == .emptySquare) && !decide (p.toChar > 'a')) = (p.owner == some .white) := by
  cases p with
  | emptySquare => decide
  | man c k => cases c <;> cases k <;> decide

section Dispatch

variable {st : ChessState} {e : Event} {pc : ChessState → Nat → Bool → Except Fault ChessState}

theorem latched_sense (h : WellFormed st) (hp : e.pinNumber < 64) : Latched (sense st e) where
  pin_lt := hp
  x_lt := h.x_lt
  y_lt := h.y_lt
  inRange := h.inRange
  down := rfl
  empty := rfl
  owner c := by cases c <;> rfl

theorem latch_eq (hp : e.pinNumber < 64) : latch st e.pinNumber e.isUp =
    .ok { sense st e with ctx := st.ctx, isStarted := st.isStarted } := by
  simp only [latch, read_eq hp, blackLatch, whiteLatch, bind, Except.bind, pure, Except.pure,
    sense, canCastleLatch]
  cases hs : st.stateVal with
  | error => rfl
  | of c p =>
    cases p with
    | base => cases c <;> simp [canCastle_eq _ hp, mayCastle]
    | _ => cases c <;> rfl

theorem pinChangeWith_sense (hp : e.pinNumber < 64) :
    pinChangeWith pc st e.pinNumber e.isUp = smfRunState pc (sense st e) := by
  have hn : ¬ e.pinNumber > 64 := by omega
  cases hs : st.isStarted <;>
    simp [pinChangeWith, latch_eq hp, bind, Except.bind, hs, smfSetInitial, generalEntry, hn,
      sense, resume]

theorem smakStates_eq (s : States) (h : Latched st)
    (hpc : ∀ c, st.isUp = false → st.pinNumber ≠ kingStartingsquare c →
      pc ((st.setX (kingStartingsquare c)).goto (.of c .move)) st.pinNumber st.isUp =
        .ok (quietEffect c (st.setX (kingStartingsquare c)))) :
    smakStates pc s st = .ok (react (stateReaction s st st.event) st) := by
  cases s with
  | error => rfl
  | of c p =>
    cases p with
    | base => cases c <;> exact baseRun_eq _ h
    | move => cases c <;> exact moveRun_eq _ h
    | capture =>
      cases c with
      | white => exact whiteCaptureRun_eq h
      | black => exact blackCaptureRun_eq h
    | enemyCapture => cases c <;> exact congrArg _ (enemyCaptureRun_eq _ h)
    | castling => cases c <;> exact castlingRun_eq _ h (hpc _)
    | kingdown v => cases c <;> cases v <;> exact kingdownRun_eq _ _ h
    | kingupRookup v => cases c <;> cases v <;> exact congrArg _ (kingupRookupRun_eq _ _ h)
    | kingdownRookup v => cases c <;> cases v <;> exact kingdownRookupRun_eq _ _ h
    | kingupRookdown v => cases c <;> cases v <;> exact kingupRookdownRun_eq _ _ h

theorem stateReaction_sense (s : States) :
    stateReaction s (sense st e) e = stateReaction s st e := by
  cases s with
  | error => rfl
  | of c p => cases p <;> rfl

theorem pinChangeWith_king (c : Color) (h : WellFormed st) (hp : e.pinNumber < 64)
    (ht : (resume st).terminate = false) (hd : e.isUp = false)
    (hk : e.pinNumber ≠ kingStartingsquare c) :
    pinChangeWith pc (((sense st e).setX (kingStartingsquare c)).goto (.of c .move))
      e.pinNumber e.isUp = .ok (quietEffect c ((sense st e).setX (kingStartingsquare c))) := by
  let t := ((sense st e).setX (kingStartingsquare c)).goto (.of c .move)
  have hw : WellFormed t := ⟨kingStartingsquare_lt c, h.y_lt, h.inRange, fun _ => rfl⟩
  have hterm : (sense t e).ctx.terminate = false := ht
  have hcur : (sense t e).ctx.current = some (.of c .move) := rfl
  have hrun : smfRunState pc (sense t e) = moveRun c (sense t e) := by
    rw [smfRunState, if_neg (by simp [hterm]), hcur]
    cases c <;> rfl
  rw [pinChangeWith_sense hp, hrun, moveRun_quiet c (latched_sense hw hp) hd hk.symm]
  rfl

/-- One level of recursion is enough. -/
theorem pinChangeWith_eq (h : WellFormed st) (hp : e.pinNumber < 64) :
    pinChangeWith (pinChangeWith pc) st e.pinNumber e.isUp = .ok (next st e) := by
  rw [pinChangeWith_sense hp, smfRunState, next, reaction, active]
  cases ht : (resume st).terminate with
  | true =>
    have hs : (sense st e).ctx.terminate = true := ht
    simp [hs, react]
  | false =>
    have hs : (sense st e).ctx.terminate = false := ht
    have hcur : (resume st).current.isSome := by
      unfold resume
      split_ifs with hst
      · exact h.current hst
      · rfl
    obtain ⟨s, hc⟩ := Option.isSome_iff_exists.mp hcur
    have hsc : (sense st e).ctx.current = some s := hc
    simp only [hs, hsc, hc, Bool.false_eq_true, if_false]
    rw [← stateReaction_sense s]
    exact smakStates_eq s (latched_sense h hp) fun c hd hk => pinChangeWith_king c h hp ht hd hk

theorem pinChange_eq (h : WellFormed st) (hp : e.pinNumber < 64) :
    step st e = .ok (next st e) := pinChangeWith_eq h hp

end Dispatch

/-! The model satisfies the recursion of the source, for every state and pin. -/

theorem latch_fault (st : ChessState) (isUp : Bool) {i : Nat} (hi : ¬ i < 64) :
    latch st i isUp = .error (.board i) := by
  simp [latch, ChessState.read, hi, bind, Except.bind]

theorem pinChangeWith_fault (pc : ChessState → Nat → Bool → Except Fault ChessState)
    (st : ChessState) (isUp : Bool) {i : Nat} (hi : ¬ i < 64) :
    pinChangeWith pc st i isUp = .error (.board i) := by
  simp [pinChangeWith, latch_fault st isUp hi, bind, Except.bind]

theorem pinChangeWith_move (pc pc' : ChessState → Nat → Bool → Except Fault ChessState)
    {st : ChessState} {c : Color} (hs : st.isStarted = true)
    (hc : st.ctx.current = some (.of c .move)) (i : Nat) (isUp : Bool) :
    pinChangeWith pc st i isUp = pinChangeWith pc' st i isUp := by
  by_cases hi : i < 64
  · have hcur : (sense st ⟨i, isUp⟩).ctx.current = some (.of c .move) := by simp [sense, resume, hs, hc]
    have hrun (pc : ChessState → Nat → Bool → Except Fault ChessState) :
        smfRunState pc (sense st ⟨i, isUp⟩) = if (sense st ⟨i, isUp⟩).ctx.terminate then
          .ok (sense st ⟨i, isUp⟩) else moveRun c (sense st ⟨i, isUp⟩) := by
      rw [smfRunState, hcur]
      cases c <;> rfl
    rw [pinChangeWith_sense (e := ⟨i, isUp⟩) hi, pinChangeWith_sense (e := ⟨i, isUp⟩) hi, hrun, hrun]
  · rw [pinChangeWith_fault _ _ _ hi, pinChangeWith_fault _ _ _ hi]

theorem enter_current (st : ChessState) (s : States) : (st.enter s).ctx.current = some s := by
  unfold ChessState.enter smfSetState generalEntry
  split_ifs <;> rfl

theorem enter_isStarted (st : ChessState) (s : States) : (st.enter s).isStarted = st.isStarted := by
  unfold ChessState.enter smfSetState generalEntry
  split_ifs <;> rfl

theorem castlingRun_congr (c : Color) (pc pc' : ChessState → Nat → Bool → Except Fault ChessState)
    {st : ChessState} (hs : st.isStarted = true) :
    castlingRun c (pinChangeWith pc) st = castlingRun c (pinChangeWith pc') st := by
  have hm (i : Nat) (isUp : Bool) := pinChangeWith_move pc pc'
    ((enter_isStarted (st.setX (kingStartingsquare c)) (.of c .move)).trans hs)
    (enter_current _ _) i isUp
  simp only [castlingRun, hm]

theorem pinChange_recursive (st : ChessState) (i : Nat) (isUp : Bool) :
    pinChange st i isUp = pinChangeWith pinChange st i isUp := by
  by_cases hi : i < 64
  · have hs : (sense st ⟨i, isUp⟩).isStarted = true := rfl
    have hc (c : Color) := castlingRun_congr c (fun _ _ _ => .error .recursion) pinChangeNested hs
    rw [pinChange, pinChangeWith_sense (e := ⟨i, isUp⟩) hi, pinChangeWith_sense (e := ⟨i, isUp⟩) hi]
    unfold smfRunState
    split_ifs
    · rfl
    · cases (sense st ⟨i, isUp⟩).ctx.current with
      | none => rfl
      | some s =>
        cases s with
        | error => rfl
        | of c p =>
          cases p with
          | castling => cases c <;> exact hc _
          | kingdown v => cases c <;> cases v <;> rfl
          | kingupRookup v => cases c <;> cases v <;> rfl
          | kingdownRookup v => cases c <;> cases v <;> rfl
          | kingupRookdown v => cases c <;> cases v <;> rfl
          | _ => cases c <;> rfl
  · rw [pinChange, pinChangeWith_fault _ _ _ hi, pinChangeWith_fault _ _ _ hi]

end SmakChess
