import SmakChess.Run
import Mathlib.Data.Nat.Bitwise

/-! The exchange of the colours, which turns the board around, and the reaction
of the machine to it. -/

namespace SmakChess

open Machine

def flip (s : Nat) : Nat := s ^^^ 56

def SmakPiece.mirror : SmakPiece → SmakPiece
  | .emptySquare => .emptySquare
  | .man c k => .man c.other k

def States.mirror : States → States
  | .of c p => .of c.other p
  | .error => .error

def mirrorBoard (b : Board) : Board := fun s => (b (flip s)).mirror

def ChessState.mirror (st : ChessState) : ChessState :=
  { st with
    ctx := { st.ctx with current := st.ctx.current.map States.mirror }
    pinNumber := flip st.pinNumber
    isBlackPiece := st.isWhitePiece
    isWhitePiece := st.isBlackPiece
    board := mirrorBoard st.board
    piece := st.piece.mirror
    stateVal := st.stateVal.mirror
    right := fun c => st.right c.other
    enPassantSquare := if st.enPassant then flip st.enPassantSquare else st.enPassantSquare
    y := flip st.y
    x := flip st.x }

def Event.mirror (e : Event) : Event := { e with pinNumber := flip e.pinNumber }

/-- Equality of the fields that the exchange of the colours is about. -/
def SameBoard (t u : ChessState) : Prop :=
  t.board = u.board ∧ t.x = u.x ∧ t.y = u.y ∧ t.pinNumber = u.pinNumber ∧ t.right = u.right ∧
    t.enPassant = u.enPassant ∧ (t.enPassant = true → t.enPassantSquare = u.enPassantSquare) ∧
    t.stateVal = u.stateVal ∧ t.ctx.current = u.ctx.current ∧ t.ply = u.ply ∧
    t.plySincePonr = u.plySincePonr

/-- A side has lifted the attacker and the victim, and the event is not the
put-down that completes the capture. -/
def missesAnyCapture (st : ChessState) (e : Event) : Prop :=
  ∃ c, active st = some (.of c .capture) ∧
    ¬ (e.isUp = false ∧ (st.y = e.pinNumber ∨ enPassantAt st e.pinNumber = true))

def Reaction.mirror : Reaction → Reaction
  | .enter s x y => .enter s.mirror (flip x) (flip y)
  | .quiet c x => .quiet c.other (flip x)
  | .capture c => .capture c.other
  | .castle c v => .castle c.other v
  | r => r

section Squares

variable {s x i j : Nat} {c d : Color} {v : Wing} {k : Kind} {p q : SmakPiece} {b : Board}

@[simp] theorem flip_flip (s : Nat) : flip (flip s) = s := Nat.xor_xor_cancel_right s 56

@[simp] theorem flip_inj : flip i = flip j ↔ i = j :=
  ⟨fun h => by rw [← flip_flip i, h, flip_flip], congrArg flip⟩

theorem flip_eq_iff : flip i = j ↔ i = flip j := by rw [← flip_inj, flip_flip]

theorem flip_lt (h : s < 64) : flip s < 64 := Nat.xor_lt_two_pow (n := 6) h (by decide)

theorem flip_eq (h : s < 64) : flip s = 56 - 8 * (s / 8) + s % 8 := by
  revert s
  decide

@[simp] theorem other_other (c : Color) : c.other.other = c := by cases c <;> rfl

@[simp] theorem other_inj : c.other = d.other ↔ c = d := by cases c <;> cases d <;> decide

@[simp] theorem kingStartingsquare_other (c : Color) :
    kingStartingsquare c.other = flip (kingStartingsquare c) := by
  cases c <;> decide

@[simp] theorem rookStartingsquare_other (c : Color) (v : Wing) :
    rookStartingsquare c.other v = flip (rookStartingsquare c v) := by
  cases c <;> cases v <;> decide

@[simp] theorem kingCastlesquare_other (c : Color) (v : Wing) :
    kingCastlesquare c.other v = flip (kingCastlesquare c v) := by
  cases c <;> cases v <;> decide

@[simp] theorem rookCastlesquare_other (c : Color) (v : Wing) :
    rookCastlesquare c.other v = flip (rookCastlesquare c v) := by
  cases c <;> cases v <;> decide

@[simp] theorem mirror_eq_emptySquare : p.mirror = .emptySquare ↔ p = .emptySquare := by
  cases p <;> simp [SmakPiece.mirror]

@[simp] theorem mirror_eq_man : p.mirror = .man c.other k ↔ p = .man c k := by
  cases p <;> simp [SmakPiece.mirror]

@[simp] theorem owner_mirror : p.mirror.owner = some c.other ↔ p.owner = some c := by
  cases p <;> simp [SmakPiece.mirror, SmakPiece.owner]

theorem mirrorBoard_flip : mirrorBoard b (flip s) = (b s).mirror := by
  rw [mirrorBoard, flip_flip]

theorem mirrorBoard_update :
    mirrorBoard (Function.update b s p) = Function.update (mirrorBoard b) (flip s) p.mirror := by
  funext i
  by_cases hi : i = flip s
  · subst hi
    rw [mirrorBoard_flip, Function.update_self, Function.update_self]
  · have hne : flip i ≠ s := fun h => hi (flip_eq_iff.mp h)
    rw [mirrorBoard, Function.update_of_ne hne, Function.update_of_ne hi]
    rfl

theorem lastRank_flip (h : s < 64) : lastRank c.other (flip s) = lastRank c s := by
  have hf := flip_eq h
  cases c <;> simp only [lastRank, Color.other, decide_eq_decide] <;> omega

theorem twoRanks_flip (hx : x < 64) (hs : s < 64) :
    twoRanks c.other (flip x) (flip s) = twoRanks c x s := by
  have hfs := flip_eq hs
  have hfx := flip_eq hx
  cases c <;> rw [Bool.eq_iff_iff] <;> simp only [twoRanks, Color.other, beq_iff_eq] <;> omega

theorem jumped_flip (hx : x < 64) (hs : s < 64) (h : twoRanks c x s = true) :
    jumped c.other (flip s) = flip (jumped c s) := by
  have hfs := flip_eq hs
  cases c with
  | white =>
    simp only [twoRanks, beq_iff_eq] at h
    have hj : (s + 8) % 256 = s + 8 := Nat.mod_eq_of_lt (by omega)
    have hfj := flip_eq (s := s + 8) (by omega)
    simp only [jumped, Color.other, hj]
    omega
  | black =>
    simp only [twoRanks, beq_iff_eq] at h
    have hj : (s + 256 - 8) % 256 = s - 8 := by omega
    have hfj := flip_eq (s := s - 8) (by omega)
    simp only [jumped, Color.other, hj]
    omega

theorem mirrorBoard_moved : mirrorBoard (moved b x s) = moved (mirrorBoard b) (flip x) (flip s) := by
  rw [moved, mirrorBoard_update, mirrorBoard_update, moved, mirrorBoard_flip]
  rfl

theorem mirrorBoard_promote (h : s < 64) :
    mirrorBoard (promote c b s) = promote c.other (mirrorBoard b) (flip s) := by
  unfold promote
  simp only [mirrorBoard_flip, mirror_eq_man, lastRank_flip h]
  split_ifs
  · exact mirrorBoard_update
  · rfl

theorem mirrorBoard_castled :
    mirrorBoard (castled c v b) = castled c.other v (mirrorBoard b) := by
  simp only [castled, mirrorBoard_update, kingStartingsquare_other, rookStartingsquare_other,
    kingCastlesquare_other, rookCastlesquare_other]
  rfl

theorem rightsAfter_mirror {right : Color → Wing → Bool} :
    rightsAfter c.other p.mirror (flip x) (fun d => right d.other) =
      fun d => rightsAfter c p x right d.other := by
  funext d v
  simp only [rightsAfter, mirror_eq_man]
  split_ifs <;> by_cases hd : d = c.other
  · subst hd
    simp
  · have hd' : d.other ≠ c := fun h => hd (by rw [← h, other_other])
    rw [Function.update_of_ne hd, Function.update_of_ne hd']
  · subst hd
    simp [Bool.beq_eq_decide_eq]
  · have hd' : d.other ≠ c := fun h => hd (by rw [← h, other_other])
    rw [Function.update_of_ne hd, Function.update_of_ne hd']
  · rfl
  · rfl

end Squares

section Step

variable {st : ChessState} {e : Event} {c : Color} {v : Wing} {s x : Nat} {u : States}

theorem enPassantAt_mirror : enPassantAt st.mirror (flip s) = enPassantAt st s := by
  cases he : st.enPassant <;> rw [Bool.eq_iff_iff] <;> simp [enPassantAt, ChessState.mirror, he]

theorem mayCastle_mirror : mayCastle st.mirror c.other (flip s) = mayCastle st c s := by
  rw [Bool.eq_iff_iff]
  simp [mayCastle, ChessState.mirror, mirrorBoard_flip]

theorem active_mirror (hs : st.isStarted = true) :
    active st.mirror = (active st).map States.mirror := by
  have hm : st.mirror.isStarted = true := hs
  rw [active, active, resume_of_isStarted hs, resume_of_isStarted hm]
  cases ht : st.ctx.terminate <;> simp [ChessState.mirror, ht]

theorem wellFormed_mirror (h : WellFormed st) : WellFormed st.mirror where
  x_lt := flip_lt h.x_lt
  y_lt := flip_lt h.y_lt
  inRange := h.inRange
  current hs := by
    have hc := h.current hs
    simpa [ChessState.mirror] using hc

theorem sense_mirror (hs : st.isStarted = true) :
    sense st.mirror e.mirror = (sense st e).mirror := by
  have hm : st.mirror.isStarted = true := hs
  have hl : canCastleLatch st.mirror (flip e.pinNumber) = canCastleLatch st e.pinNumber := by
    unfold canCastleLatch
    cases hv : st.stateVal with
    | error => simp only [ChessState.mirror, hv, States.mirror]
    | of c p =>
      have hv' : st.mirror.stateVal = .of c.other p := by simp [ChessState.mirror, hv, States.mirror]
      rw [hv']
      cases p <;> first | exact mayCastle_mirror | rfl
  have he : ((st.board e.pinNumber).mirror == .emptySquare) =
      (st.board e.pinNumber == .emptySquare) := by
    rw [Bool.eq_iff_iff]
    simp
  have hb : ((st.board e.pinNumber).mirror.owner == some Color.black) =
      ((st.board e.pinNumber).owner == some .white) := by
    rw [Bool.eq_iff_iff, beq_iff_eq, beq_iff_eq]
    exact owner_mirror (c := .white)
  have hw : ((st.board e.pinNumber).mirror.owner == some Color.white) =
      ((st.board e.pinNumber).owner == some .black) := by
    rw [Bool.eq_iff_iff, beq_iff_eq, beq_iff_eq]
    exact owner_mirror (c := .black)
  simp only [sense, resume_of_isStarted hs, resume_of_isStarted hm, Event.mirror, hl]
  simp only [ChessState.mirror, mirrorBoard_flip, he, hb, hw]

theorem stateReaction_mirror (hm : ∀ c, u = .of c .capture →
      e.isUp = false ∧ (st.y = e.pinNumber ∨ enPassantAt st e.pinNumber = true)) :
    stateReaction u.mirror st.mirror e.mirror = (stateReaction u st e).mirror := by
  have hb (i : Nat) : st.mirror.board (flip i) = (st.board i).mirror := mirrorBoard_flip
  have hx : st.mirror.x = flip st.x := rfl
  have hy : st.mirror.y = flip st.y := rfl
  have hr (d : Color) (v : Wing) : st.mirror.right d.other v = st.right d v := by
    simp [ChessState.mirror]
  have hp : e.mirror.pinNumber = flip e.pinNumber := rfl
  have hu : e.mirror.isUp = e.isUp := rfl
  cases u with
  | error => rfl
  | of c p =>
    cases p with
    | base =>
      simp only [stateReaction, States.mirror, baseReaction, hp, hu, hb, hx, hy,
        mirror_eq_emptySquare, mayCastle_mirror, owner_mirror]
      split_ifs <;> rfl
    | move =>
      simp only [stateReaction, States.mirror, moveReaction, hp, hu, hb, hx, hy, flip_inj,
        owner_mirror]
      split_ifs <;> rfl
    | capture =>
      have hc := hm c rfl
      have hc' : e.mirror.isUp = false ∧
          (st.mirror.y = e.mirror.pinNumber ∨ enPassantAt st.mirror e.mirror.pinNumber = true) := by
        rw [hu, hy, hp, flip_inj, enPassantAt_mirror]
        exact hc
      simp only [stateReaction, States.mirror, captureReaction, if_pos hc, if_pos hc',
        Reaction.mirror]
    | enemyCapture =>
      simp only [stateReaction, States.mirror, enemyCaptureReaction, hp, hu, hb, hx, hy, flip_inj,
        owner_mirror]
      split_ifs <;> rfl
    | castling =>
      simp only [stateReaction, States.mirror, castlingReaction, hp, hu, hb, hx, hy, hr, flip_inj,
        owner_mirror, mirror_eq_man, kingStartingsquare_other, rookStartingsquare_other,
        kingCastlesquare_other]
      split_ifs <;> rfl
    | kingdown v =>
      simp only [stateReaction, States.mirror, kingdownReaction, hp, hu, hb, hx, hy, flip_inj,
        mirror_eq_man, rookStartingsquare_other]
      split_ifs <;> rfl
    | kingupRookup v =>
      simp only [stateReaction, States.mirror, kingupRookupReaction, hp, hu, hx, hy, flip_inj,
        kingCastlesquare_other, rookCastlesquare_other]
      split_ifs <;> rfl
    | kingdownRookup v =>
      simp only [stateReaction, States.mirror, lastDownReaction, hp, hu, hx, hy, flip_inj,
        rookCastlesquare_other]
      split_ifs <;> rfl
    | kingupRookdown v =>
      simp only [stateReaction, States.mirror, lastDownReaction, hp, hu, hx, hy, flip_inj,
        kingCastlesquare_other]
      split_ifs <;> rfl

theorem reaction_mirror (hs : st.isStarted = true) (hm : ¬ missesAnyCapture st e) :
    reaction st.mirror e.mirror = (reaction st e).mirror := by
  rw [reaction, reaction, active_mirror hs]
  cases ha : active st with
  | none => rfl
  | some u =>
    apply stateReaction_mirror
    intro c hc
    by_contra hn
    exact hm ⟨c, hc ▸ ha, hn⟩

/-! The reactions commute with the mirror. -/

theorem quietEffect_mirror (hx : st.x < 64) (hp : st.pinNumber < 64) :
    SameBoard (quietEffect c st).mirror (quietEffect c.other st.mirror) := by
  have hm : moved st.mirror.board st.mirror.x st.mirror.pinNumber =
      mirrorBoard (moved st.board st.x st.pinNumber) := mirrorBoard_moved.symm
  have hl : moved st.mirror.board st.mirror.x st.mirror.pinNumber st.mirror.pinNumber =
      (moved st.board st.x st.pinNumber st.pinNumber).mirror := by
    rw [hm]
    exact mirrorBoard_flip
  have hep : (quietEffect c st).enPassant = (quietEffect c.other st.mirror).enPassant := by
    simp only [quietEffect, hl, mirror_eq_man]
    rw [show twoRanks c.other st.mirror.x st.mirror.pinNumber = twoRanks c st.x st.pinNumber from
      twoRanks_flip hx hp]
    rfl
  refine ⟨?_, rfl, rfl, rfl, ?_, hep, fun he => ?_, rfl, rfl, rfl, ?_⟩
  · simp only [quietEffect, hm]
    exact mirrorBoard_promote hp
  · simp only [quietEffect, hl]
    exact rightsAfter_mirror.symm
  · have hsq : (quietEffect c st).mirror.enPassantSquare =
        flip (quietEffect c st).enPassantSquare := if_pos he
    have he : (quietEffect c st).enPassant = true := he
    rw [hsq]
    by_cases hpawn : moved st.board st.x st.pinNumber st.pinNumber = .man c .pawn
    · have hpm : moved st.mirror.board st.mirror.x st.mirror.pinNumber st.mirror.pinNumber =
          .man c.other .pawn := hl.trans (congrArg SmakPiece.mirror hpawn)
      simp only [quietEffect, if_pos hpawn] at he
      simp only [quietEffect, if_pos hpawn, if_pos hpm]
      exact (jumped_flip hx hp he).symm
    · have hpm : ¬ moved st.mirror.board st.mirror.x st.mirror.pinNumber st.mirror.pinNumber =
          .man c.other .pawn := by rwa [hl, mirror_eq_man]
      simp only [quietEffect, if_neg hpawn] at he
      simp only [quietEffect, if_neg hpawn, if_neg hpm]
      exact (if_pos he).symm
  · simp only [quietEffect, hl, mirror_eq_man]
    rfl

theorem captureEffect_mirror (hp : st.pinNumber < 64) :
    SameBoard (captureEffect c st).mirror (captureEffect c.other st.mirror) := by
  have hm : captured st.mirror = mirrorBoard (captured st) := by
    have hat : enPassantAt st.mirror st.mirror.pinNumber = enPassantAt st st.pinNumber :=
      enPassantAt_mirror
    simp only [captured, hat]
    split_ifs
    · rw [mirrorBoard_update, mirrorBoard_moved]
      rfl
    · exact mirrorBoard_moved.symm
  have hl : captured st.mirror st.mirror.pinNumber = (captured st st.pinNumber).mirror := by
    rw [hm]
    exact mirrorBoard_flip
  refine ⟨?_, rfl, rfl, rfl, ?_, rfl, fun he => absurd he Bool.false_ne_true, rfl, rfl, rfl, rfl⟩
  · simp only [captureEffect, hm]
    exact mirrorBoard_promote hp
  · simp only [captureEffect, hl]
    exact rightsAfter_mirror.symm

theorem castleEffect_mirror :
    SameBoard (castleEffect c v st).mirror (castleEffect c.other v st.mirror) := by
  refine ⟨mirrorBoard_castled, rfl, rfl, rfl, ?_, rfl, fun he => absurd he Bool.false_ne_true,
    rfl, rfl, rfl, rfl⟩
  funext d w
  simp only [castleEffect, sendMoveCastle, ChessState.mirror, ChessState.goto]
  by_cases hd : d = c.other
  · subst hd
    simp
  · have hd' : d.other ≠ c := fun h => hd (by rw [← h, other_other])
    rw [Function.update_of_ne hd, Function.update_of_ne hd']

theorem SameBoard.refl (t : ChessState) : SameBoard t t :=
  ⟨rfl, rfl, rfl, rfl, rfl, rfl, fun _ => rfl, rfl, rfl, rfl, rfl⟩

theorem react_mirror {r : Reaction} (hx : ∀ c x, r = .quiet c x → x < 64)
    (hp : st.pinNumber < 64) (hd : r ≠ .derail) :
    SameBoard (react r st).mirror (react r.mirror st.mirror) := by
  cases r with
  | ignore => exact .refl _
  | halt => exact .refl _
  | enter s x y => exact .refl _
  | derail => exact absurd rfl hd
  | quiet c x =>
    have hxs : (st.setX x).x < 64 := hx c x rfl
    exact quietEffect_mirror hxs hp
  | capture c => exact captureEffect_mirror hp
  | castle c v => exact castleEffect_mirror

theorem reaction_quiet_lt (hw : WellFormed st) (h : reaction st e = .quiet c x) : x < 64 := by
  rcases reaction_reacts st e with ⟨-, hr⟩ | ⟨u, -, hr⟩
  · cases hr.symm.trans h
  · rw [h] at hr
    cases hr with
    | quiet => exact hw.x_lt
    | kingMoves => exact kingStartingsquare_lt c

theorem current_mirror_of_missesAnyCapture (hs : st.isStarted = true)
    (hm : missesAnyCapture st e) :
    (next st e).mirror.ctx.current ≠ (next st.mirror e.mirror).ctx.current := by
  obtain ⟨c, ha, hn⟩ := hm
  have ham : active st.mirror = some (.of c.other .capture) := by
    rw [active_mirror hs, ha]
    rfl
  have hnm : ¬ (e.mirror.isUp = false ∧ (st.mirror.y = e.mirror.pinNumber ∨
      enPassantAt st.mirror e.mirror.pinNumber = true)) := by
    show ¬ (e.isUp = false ∧ (flip st.y = flip e.pinNumber ∨
      enPassantAt st.mirror (flip e.pinNumber) = true))
    rwa [flip_inj, enPassantAt_mirror]
  have hr : reaction st e = if c = .white then .derail else .enter .error st.x st.y := by
    rw [reaction_eq_stateReaction ha, stateReaction, captureReaction, if_neg hn]
  have hrm : reaction st.mirror e.mirror =
      if c.other = .white then .derail else .enter .error st.mirror.x st.mirror.y := by
    rw [reaction_eq_stateReaction ham, stateReaction, captureReaction, if_neg hnm]
  have hcur : (next st e).mirror.ctx.current = (next st e).ctx.current.map States.mirror := rfl
  rw [hcur, next_current, next_current, hr, hrm]
  cases c <;> simp [Color.other, Reaction.target, States.mirror]

end Step

/-- In a state of a run, the mirrored event in the mirrored state gives the
mirror of the result, exactly when the event misses no capture. -/
theorem mirror_iff_no_missed_capture (st₀ : ChessState) (es : List Event) (st : ChessState)
    (e : Event) (hrun : run step (resetFsm st₀) es = .ok st) (hs : st.isStarted = true)
    (hp : e.pinNumber < 64) :
    (∃ t u, step st e = .ok t ∧ step st.mirror e.mirror = .ok u ∧ SameBoard t.mirror u) ↔
      ¬ missesAnyCapture st e := by
  have hw := wellFormed_of_run hrun
  have hstep := pinChange_eq hw hp
  have hstepm := pinChange_eq (e := e.mirror) (wellFormed_mirror hw) (flip_lt hp)
  constructor
  · rintro ⟨t, u, ht, hu, hsame⟩ hm
    obtain rfl := Except.ok.inj (hstep.symm.trans ht)
    obtain rfl := Except.ok.inj (hstepm.symm.trans hu)
    exact current_mirror_of_missesAnyCapture hs hm hsame.2.2.2.2.2.2.2.2.1
  · intro hm
    refine ⟨_, _, hstep, hstepm, ?_⟩
    rw [next, next, reaction_mirror hs hm, sense_mirror hs]
    apply react_mirror
    · exact fun c x hr => reaction_quiet_lt hw hr
    · exact hp
    · intro hr
      rcases reaction_reacts st e with ⟨-, hi⟩ | ⟨s, hs', hi⟩
      · cases hi.symm.trans hr
      · rw [hr] at hi
        cases hi with
        | derail hn => exact hm ⟨.white, hs', hn⟩

theorem mirror_pawn_advance :
    ∃ t u, step (next (resetFsm powerOn) (lift 52)) (put 36) = .ok t ∧
      step (next (resetFsm powerOn) (lift 52)).mirror (put 36).mirror = .ok u ∧
      SameBoard t.mirror u := by
  have hr : run step (resetFsm powerOn) [lift 52] = .ok (next (resetFsm powerOn) (lift 52)) :=
    run_eq_foldl _ (wellFormed_resetFsm powerOn) (by decide)
  refine (mirror_iff_no_missed_capture powerOn [lift 52] _ (put 36) hr rfl (by decide)).mpr ?_
  rintro ⟨c, ha, -⟩
  have hmove : active (next (resetFsm powerOn) (lift 52)) = some .whiteMove := by decide +kernel
  cases hmove.symm.trans ha

theorem missed_capture_not_mirrored :
    ∃ st, run step (resetFsm powerOn) [lift 52, lift 12] = .ok st ∧ st.isStarted = true ∧
      ¬ ∃ t u, step st (put 36) = .ok t ∧ step st.mirror (put 36).mirror = .ok u ∧
        SameBoard t.mirror u := by
  have hr := run_eq_foldl [lift 52, lift 12] (wellFormed_resetFsm powerOn) (by decide)
  refine ⟨_, hr, rfl, ?_⟩
  rintro ⟨t, u, ht, hu, hsame⟩
  have hw := wellFormed_of_run hr
  obtain ⟨-, rfl⟩ := step_eq_ok hw ht
  obtain ⟨-, rfl⟩ := step_eq_ok (wellFormed_mirror hw) hu
  exact current_mirror_of_missesAnyCapture rfl ⟨.white, by decide +kernel, by decide +kernel⟩
    hsame.2.2.2.2.2.2.2.2.1

end SmakChess
