import SmakChess.Machine
import SmakChess.PinChange

/-! Runs of the board from `reset_fsm`, the plies completed along them, and
what one event does to the state. -/

namespace SmakChess

open Machine

/-- A completed ply as the machine sees it: the piece is the one standing on
`x` before the ply. -/
inductive Ply
  | quiet (c : Color) (piece : SmakPiece) (x s : Nat)
  | capture (c : Color) (piece : SmakPiece) (x y s : Nat)
  | castle (c : Color) (v : Wing)
  deriving DecidableEq, Repr

def Ply.color : Ply → Color
  | .quiet c _ _ _ => c
  | .capture c _ _ _ _ => c
  | .castle c _ => c

def plyOf (st : ChessState) (e : Event) : Option Ply :=
  match reaction st e with
  | .quiet c x => some (.quiet c (st.board x) x e.pinNumber)
  | .capture c => some (.capture c (st.board st.x) st.x st.y e.pinNumber)
  | .castle c v => some (.castle c v)
  | _ => none

def plies (st : ChessState) (es : List Event) : List Ply :=
  outputs step (fun st e _ => (plyOf st e).toList) st es

structure SameGame (t u : ChessState) : Prop where
  board : u.board = t.board
  right : u.right = t.right
  enPassant : u.enPassant = t.enPassant
  enPassantSquare : u.enPassantSquare = t.enPassantSquare
  ply : u.ply = t.ply
  plySincePonr : u.plySincePonr = t.plySincePonr
  shellObj : u.shellObj = t.shellObj

theorem SameGame.refl (t : ChessState) : SameGame t t := ⟨rfl, rfl, rfl, rfl, rfl, rfl, rfl⟩

theorem SameGame.trans {t u w : ChessState} (h : SameGame t u) (h' : SameGame u w) :
    SameGame t w where
  board := h'.board.trans h.board
  right := h'.right.trans h.right
  enPassant := h'.enPassant.trans h.enPassant
  enPassantSquare := h'.enPassantSquare.trans h.enPassantSquare
  ply := h'.ply.trans h.ply
  plySincePonr := h'.plySincePonr.trans h.plySincePonr
  shellObj := h'.shellObj.trans h.shellObj

/-! One event. -/

section Step

variable {st t : ChessState} {e : Event} {c : Color} {v : Wing} {x y : Nat} {s : States}

theorem step_eq_ok (h : WellFormed st) (hs : step st e = .ok t) :
    e.pinNumber < 64 ∧ t = next st e := by
  by_cases hp : e.pinNumber < 64
  · rw [pinChange_eq h hp, Except.ok.injEq] at hs
    exact ⟨hp, hs.symm⟩
  · rw [step, pinChange, pinChangeWith_fault _ _ _ hp] at hs
    cases hs

theorem next_of_reaction {r : Reaction} (h : reaction st e = r) :
    next st e = react r (sense st e) := by rw [next, h]

theorem reaction_eq_stateReaction (h : active st = some s) :
    reaction st e = stateReaction s st e := by rw [reaction, h]

@[simp] theorem next_isStarted : (next st e).isStarted = true := by
  unfold next
  cases reaction st e <;> rfl

@[simp] theorem next_directToError : (next st e).directToError = st.directToError := by
  unfold next
  cases reaction st e <;> rfl

theorem next_frame (h : plyOf st e = none) : SameGame st (next st e) := by
  unfold next
  cases hr : reaction st e with
  | quiet c x => simp [plyOf, hr] at h
  | capture c => simp [plyOf, hr] at h
  | castle c v => simp [plyOf, hr] at h
  | _ => exact ⟨rfl, rfl, rfl, rfl, rfl, rfl, rfl⟩

end Step

/-! What an event can do in each state. -/

/-- `Reacts st e s r`: in state `s` the machine may answer `e` with `r`. -/
inductive Reacts (st : ChessState) (e : Event) : States → Reaction → Prop
  | halt : Reacts st e .error .halt
  | fail (c : Color) (p : Phase) : Reacts st e (.of c p) (.enter .error st.x st.y)
  | liftKing (c : Color) (hu : e.isUp = true) (hm : mayCastle st c e.pinNumber = true) :
      Reacts st e (.of c .base) (.enter (.of c .castling) st.x st.y)
  | liftOwn (c : Color) (hu : e.isUp = true) (ho : (st.board e.pinNumber).owner = some c) :
      Reacts st e (.of c .base) (.enter (.of c .move) e.pinNumber st.y)
  | liftEnemy (c : Color) (hu : e.isUp = true) (ho : (st.board e.pinNumber).owner = some c.other) :
      Reacts st e (.of c .base) (.enter (.of c .enemyCapture) st.x e.pinNumber)
  | putBack (c : Color) (hd : e.isUp = false) (hx : st.x = e.pinNumber) :
      Reacts st e (.of c .move) (.enter (.of c .base) st.x st.y)
  | quiet (c : Color) (hd : e.isUp = false) (hx : st.x ≠ e.pinNumber) :
      Reacts st e (.of c .move) (.quiet c st.x)
  | liftVictim (c : Color) (hu : e.isUp = true)
      (ho : (st.board e.pinNumber).owner = some c.other) :
      Reacts st e (.of c .move) (.enter (.of c .capture) st.x e.pinNumber)
  | capture (c : Color) (hd : e.isUp = false)
      (hs : st.y = e.pinNumber ∨ enPassantAt st e.pinNumber = true) :
      Reacts st e (.of c .capture) (.capture c)
  | derail (hs : ¬ (e.isUp = false ∧ (st.y = e.pinNumber ∨ enPassantAt st e.pinNumber = true))) :
      Reacts st e .whiteCapture .derail
  | liftAttacker (c : Color) (hu : e.isUp = true) (ho : (st.board e.pinNumber).owner = some c) :
      Reacts st e (.of c .enemyCapture) (.enter (.of c .capture) e.pinNumber st.y)
  | putEnemyBack (c : Color) (hd : e.isUp = false) (hy : e.pinNumber = st.y) :
      Reacts st e (.of c .enemyCapture) (.enter (.of c .base) st.x st.y)
  | putKingBack (c : Color) (hd : e.isUp = false) (hk : e.pinNumber = kingStartingsquare c) :
      Reacts st e (.of c .castling) (.enter (.of c .base) st.x st.y)
  | kingdown (c : Color) (v : Wing) (hd : e.isUp = false) (hk : e.pinNumber = kingCastlesquare c v)
      (hr : st.right c v = true) :
      Reacts st e (.of c .castling) (.enter (.of c (.kingdown v)) st.x st.y)
  | kingMoves (c : Color) (hd : e.isUp = false) (hk : kingStartingsquare c ≠ e.pinNumber) :
      Reacts st e (.of c .castling) (.quiet c (kingStartingsquare c))
  | rookup (c : Color) (v : Wing) (hu : e.isUp = true)
      (hb : st.board (rookStartingsquare c v) = .man c .rook)
      (hs : e.pinNumber = rookStartingsquare c v) (hr : st.right c v = true) :
      Reacts st e (.of c .castling) (.enter (.of c (.kingupRookup v)) st.x st.y)
  | kingTakes (c : Color) (hu : e.isUp = true)
      (ho : (st.board e.pinNumber).owner = some c.other) :
      Reacts st e (.of c .castling)
        (.enter (.of c .capture) (kingStartingsquare c) e.pinNumber)
  | ignore (c : Color) (hu : e.isUp = true) (hb : st.board e.pinNumber = .emptySquare) :
      Reacts st e (.of c .castling) .ignore
  | rookupLast (c : Color) (v : Wing) (hu : e.isUp = true)
      (hb : st.board (rookStartingsquare c v) = .man c .rook)
      (hs : e.pinNumber = rookStartingsquare c v) :
      Reacts st e (.of c (.kingdown v)) (.enter (.of c (.kingdownRookup v)) st.x st.y)
  | kingdownNext (c : Color) (v : Wing) (hd : e.isUp = false)
      (hs : e.pinNumber = kingCastlesquare c v) :
      Reacts st e (.of c (.kingupRookup v)) (.enter (.of c (.kingdownRookup v)) st.x st.y)
  | rookdownNext (c : Color) (v : Wing) (hd : e.isUp = false)
      (hs : e.pinNumber = rookCastlesquare c v) :
      Reacts st e (.of c (.kingupRookup v)) (.enter (.of c (.kingupRookdown v)) st.x st.y)
  | castleRook (c : Color) (v : Wing) (hd : e.isUp = false)
      (hs : e.pinNumber = rookCastlesquare c v) :
      Reacts st e (.of c (.kingdownRookup v)) (.castle c v)
  | castleKing (c : Color) (v : Wing) (hd : e.isUp = false)
      (hs : e.pinNumber = kingCastlesquare c v) :
      Reacts st e (.of c (.kingupRookdown v)) (.castle c v)

theorem owner_eq_other {p : SmakPiece} {c : Color} (he : p ≠ .emptySquare)
    (hc : p.owner ≠ some c) : p.owner = some c.other := by
  cases p with
  | emptySquare => exact absurd rfl he
  | man d k => cases c <;> cases d <;> simp_all [SmakPiece.owner, Color.other]

theorem stateReaction_reacts (s : States) (st : ChessState) (e : Event) :
    Reacts st e s (stateReaction s st e) := by
  cases s with
  | error => exact .halt
  | of c p =>
    cases p with
    | base =>
      simp only [stateReaction, baseReaction]
      split_ifs with h1 h2 h3
      · exact .fail _ _
      · exact .liftKing _ (by simp_all) h2
      · exact .liftOwn _ (by simp_all) h3
      · exact .liftEnemy _ (by simp_all) (owner_eq_other (by simp_all) h3)
    | move =>
      simp only [stateReaction, moveReaction]
      split_ifs with h1 h2 h2
      · exact .putBack _ h1 h2
      · exact .quiet _ h1 h2
      · exact .liftVictim _ (by simpa using h1) h2
      · exact .fail _ _
    | capture =>
      simp only [stateReaction, captureReaction]
      split_ifs with h1 h2
      · exact .capture _ h1.1 h1.2
      · subst h2
        exact .derail h1
      · exact .fail _ _
    | enemyCapture =>
      simp only [stateReaction, enemyCaptureReaction]
      split_ifs with h1 h2 h2
      · exact .liftAttacker _ h1 h2
      · exact .fail _ _
      · exact .putEnemyBack _ (by simpa using h1) h2
      · exact .fail _ _
    | castling =>
      simp only [stateReaction, castlingReaction]
      split_ifs with h1 h2 h3 h4 h5 h6 h7 h8
      · exact .putKingBack _ h1 h2
      · exact .kingdown _ _ h1 h3.1 h3.2
      · exact .kingdown _ _ h1 h4.1 h4.2
      · exact .kingMoves _ h1 (Ne.symm h2)
      · exact .rookup _ _ (by simpa using h1) (h6.2.1 ▸ h6.1) h6.2.1 h6.2.2
      · exact .rookup _ _ (by simpa using h1) (h7.2.1 ▸ h7.1) h7.2.1 h7.2.2
      · exact .fail _ _
      · exact .kingTakes _ (by simpa using h1) h8
      · refine .ignore _ (by simpa using h1) ?_
        by_contra hb
        exact h8 (owner_eq_other hb h5)
    | kingdown v =>
      simp only [stateReaction, kingdownReaction]
      split_ifs with h1
      · exact .rookupLast _ _ h1.1 (h1.2.2 ▸ h1.2.1) h1.2.2
      · exact .fail _ _
    | kingupRookup v =>
      simp only [stateReaction, kingupRookupReaction]
      split_ifs with h1 h2
      · exact .kingdownNext _ _ h1.1 h1.2
      · exact .rookdownNext _ _ h2.1 h2.2
      · exact .fail _ _
    | kingdownRookup v =>
      simp only [stateReaction, lastDownReaction]
      split_ifs with h1
      · exact .castleRook _ _ h1.1 h1.2
      · exact .fail _ _
    | kingupRookdown v =>
      simp only [stateReaction, lastDownReaction]
      split_ifs with h1
      · exact .castleKing _ _ h1.1 h1.2
      · exact .fail _ _

theorem reaction_reacts (st : ChessState) (e : Event) :
    (active st = none ∧ reaction st e = .ignore) ∨
      ∃ s, active st = some s ∧ Reacts st e s (reaction st e) := by
  cases ha : active st with
  | none => exact .inl ⟨rfl, by rw [reaction, ha]⟩
  | some s =>
    refine .inr ⟨s, rfl, ?_⟩
    rw [reaction, ha]
    exact stateReaction_reacts s st e

/-! Where an event leaves the machine. -/

def Reaction.target (s : States) : Reaction → Option States
  | .ignore => some s
  | .halt => none
  | .enter t _ _ => some t
  | .derail => some .black
  | .quiet c _ => some (.of c.other .base)
  | .capture c => some (.of c.other .base)
  | .castle c _ => some (.of c.other .base)

section Next

variable {st : ChessState} {e : Event} {s : States}

theorem active_eq_some :
    active st = some s ↔ (resume st).terminate = false ∧ (resume st).current = some s := by
  simp [active]

theorem resume_of_isStarted (h : st.isStarted = true) : resume st = st.ctx := if_pos h

theorem active_resetFsm (st₀ : ChessState) : active (resetFsm st₀) = some .white := rfl

theorem next_current : (next st e).ctx.current =
    match reaction st e with
    | .ignore => (resume st).current
    | .halt => (resume st).current
    | r => r.target .error := by
  unfold next
  cases reaction st e <;> rfl

theorem next_stateVal : (next st e).stateVal =
    match reaction st e with
    | .ignore => st.stateVal
    | .halt => st.stateVal
    | .derail => .error
    | r => (r.target .error).getD .error := by
  unfold next
  cases reaction st e <;> rfl

theorem next_terminate :
    (next st e).ctx.terminate = ((resume st).terminate || reaction st e == .halt) := by
  unfold next
  cases reaction st e <;> simp [react, sense, smfSetTerminate, quietEffect, captureEffect,
    castleEffect, sendMoveCastle, ChessState.goto, ChessState.setX, ChessState.setY]

theorem next_x : (next st e).x =
    match reaction st e with
    | .enter _ x _ => x
    | .quiet _ x => x
    | _ => st.x := by
  unfold next
  cases reaction st e <;> rfl

theorem next_y : (next st e).y =
    match reaction st e with
    | .enter _ _ y => y
    | _ => st.y := by
  unfold next
  cases reaction st e <;> rfl

theorem active_next (h : active st = some s) : active (next st e) = (reaction st e).target s := by
  obtain ⟨ht, hc⟩ := active_eq_some.mp h
  rw [active, resume_of_isStarted next_isStarted, next_terminate, next_current, ht, hc]
  cases reaction st e <;> simp [Reaction.target]

theorem active_next_none (h : active st = none) : active (next st e) = none := by
  have hr : reaction st e = .ignore := by rw [reaction, h]
  rw [active, resume_of_isStarted next_isStarted, next_terminate, next_current, hr]
  simpa [active] using h

theorem wellFormed_next (h : WellFormed st) (hp : e.pinNumber < 64) : WellFormed (next st e) where
  x_lt := by
    rw [next_x]
    rcases reaction_reacts st e with ⟨-, hr⟩ | ⟨s, -, hr⟩
    · rw [hr]
      exact h.x_lt
    · generalize reaction st e = r at hr ⊢
      cases hr <;> first | exact h.x_lt | exact hp | exact kingStartingsquare_lt _
  y_lt := by
    rw [next_y]
    rcases reaction_reacts st e with ⟨-, hr⟩ | ⟨s, -, hr⟩
    · rw [hr]
      exact h.y_lt
    · generalize reaction st e = r at hr ⊢
      cases hr <;> first | exact h.y_lt | exact hp
  inRange := by rw [next_directToError, h.inRange]
  current _ := by
    have hc : (resume st).current.isSome := by
      unfold resume
      split_ifs with hs
      · exact h.current hs
      · rfl
    rw [next_current]
    cases reaction st e <;> first | exact hc | rfl

theorem wellFormed_resetFsm (st₀ : ChessState) : WellFormed (resetFsm st₀) where
  x_lt := Nat.zero_lt_succ 63
  y_lt := Nat.zero_lt_succ 63
  inRange := rfl
  current h := by cases h

end Next

/-! Runs. -/

section Runs

variable {st st₀ t t' : ChessState} {e : Event} {es p : List Event}
  {P I : List Event → ChessState → Prop} {C : ChessState → Event → Prop}

/-- On the pins of the board the machine never faults. -/
theorem run_eq_foldl (es : List Event) (h : WellFormed st) (hp : ∀ e ∈ es, e.pinNumber < 64) :
    run step st es = .ok (es.foldl next st) := by
  induction es generalizing st with
  | nil => rfl
  | cons e es ih =>
    obtain ⟨he, hes⟩ := List.forall_mem_cons.mp hp
    rw [run_cons_of_ok (pinChange_eq h he)]
    exact ih (wellFormed_next h he) hes

theorem wellFormed_foldl (hw : WellFormed st) (hp : ∀ e ∈ es, e.pinNumber < 64) :
    WellFormed (es.foldl next st) := by
  induction es generalizing st with
  | nil => exact hw
  | cons e es ih =>
    obtain ⟨he, hes⟩ := List.forall_mem_cons.mp hp
    exact ih (wellFormed_next hw he) hes

theorem wellFormed_of_run (h : run step (resetFsm st₀) es = .ok t) : WellFormed t := by
  refine Always.of_step (I := fun _ t => WellFormed t) (wellFormed_resetFsm st₀)
    ?_ es t (List.prefix_refl es) h
  intro p e t t' _ _ hw hs
  obtain ⟨hp, rfl⟩ := step_eq_ok hw hs
  exact wellFormed_next hw hp

theorem always_of_next (h0 : I [] (resetFsm st₀))
    (hnext : ∀ p e t, run step (resetFsm st₀) p = .ok t → e.pinNumber < 64 → I p t →
      I (p ++ [e]) (next t e)) : Always step I (resetFsm st₀) es := by
  refine Always.of_step h0 fun p e t t' _ ht hi hs => ?_
  obtain ⟨hp, rfl⟩ := step_eq_ok (wellFormed_of_run ht) hs
  exact hnext p e t ht hp hi

/-- An example of a state before the first reset. -/
def powerOn : ChessState where
  ctx := { current := none, terminate := false }
  isUp := false
  isDown := false
  pinNumber := 0
  isEmptySquare := false
  isBlackPiece := false
  isWhitePiece := false
  directToError := false
  board := fun _ => .emptySquare
  piece := .emptySquare
  canCastle := false
  stateVal := .white
  right := fun _ _ => false
  enPassant := false
  enPassantSquare := 0
  plySincePonr := 0
  ply := 0
  y := 0
  x := 0
  isStarted := false
  shellObj := ⟨0, 0, 0, 0, .emptySquare, .emptySquare, .normal⟩

theorem always_iff_of_next (h0 : I [] (resetFsm st₀))
    (hP : ∀ p t, run step (resetFsm st₀) p = .ok t → I p t → P p t)
    (hgood : ∀ p e t, p ++ [e] <+: es → run step (resetFsm st₀) p = .ok t → e.pinNumber < 64 →
      I p t → C t e → I (p ++ [e]) (next t e))
    (hbad : ∀ p e t, p ++ [e] <+: es → run step (resetFsm st₀) p = .ok t → e.pinNumber < 64 →
      I p t → ¬ C t e → ¬ P (p ++ [e]) (next t e)) :
    Always step P (resetFsm st₀) es ↔ Throughout step C (resetFsm st₀) es := by
  refine always_iff_throughout h0 (fun p t _ => hP p t) ?_ ?_
  · intro p e t t' hpre ht hi hs hc
    obtain ⟨hp, rfl⟩ := step_eq_ok (wellFormed_of_run ht) hs
    exact hgood p e t hpre ht hp hi hc
  · intro p e t t' hpre ht hi hs hc
    obtain ⟨hp, rfl⟩ := step_eq_ok (wellFormed_of_run ht) hs
    exact hbad p e t hpre ht hp hi hc

theorem plies_concat (h : run step (resetFsm st₀) p = .ok t) (hp : e.pinNumber < 64) :
    plies (resetFsm st₀) (p ++ [e]) = plies (resetFsm st₀) p ++ (plyOf t e).toList :=
  outputs_concat h (pinChange_eq (wellFormed_of_run h) hp)

end Runs

end SmakChess
