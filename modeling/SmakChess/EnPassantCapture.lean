import SmakChess.Chess
import SmakChess.EnPassant
import SmakChess.Rights

/-! The captures the machine completes on the en-passant square, against the
rule they stand for. -/

namespace SmakChess

open Machine

def Beside (x y : Nat) : Prop := x / 8 = y / 8 ∧ (x + 1 = y ∨ y + 1 = x)

/-- An en-passant capture by the rules, after the plies `ps`. -/
structure Genuine (ps : List Ply) (st : ChessState) (c : Color) (x y s : Nat) : Prop where
  attacker : st.board x = .man c .pawn
  victim : st.board y = .man c.other .pawn
  advance : ∃ x', ps.getLast? = some (.quiet c.other (.man c.other .pawn) x' y) ∧
    (Ply.quiet c.other (.man c.other .pawn) x' y).jumpedOver = some s
  beside : Beside x y

/-- A capture that the event completes elsewhere than on `y` is an en-passant
capture, and one on `y` leaves the attacker there. -/
def GenuineCaptures (ps : List Ply) (st : ChessState) (e : Event) : Prop :=
  ∀ u c k x y s, step st e = .ok u → plyOf st e = some (.capture c k x y s) →
    (s ≠ y → Genuine ps st c x y s) ∧
    (s = y → u.board y = k ∨ k = .man c .pawn ∧ u.board y = .man c .queen)

/-- The man lifted from `y` is the pawn that the last ply has moved, and the one
from `x` is a pawn too, to which `s` is open for a capture. -/
structure TakesMoved (ps : List Ply) (st : ChessState) (x y s : Nat) : Prop where
  moved : ∃ d x', ps.getLast? = some (.quiet d (.man d .pawn) x' y) ∧ lastRank d y = false
  pawn : ∃ d, st.board x = .man d .pawn
  attacks : attacks st.board x s = true

/-- What the last ply has left when it was a quiet one by a pawn. -/
structure AfterPawn (st : ChessState) (d : Color) (x y : Nat) : Prop where
  enPassant : st.enPassant = twoRanks d x y
  enPassantSquare : st.enPassantSquare = jumped d y
  landed : st.board y = .man d (if lastRank d y = true then .queen else .pawn)
  source_lt : x < 64
  target_lt : y < 64

section Step

variable {st st₀ t : ChessState} {e : Event} {es : List Event} {ps : List Ply} {c d : Color}
  {k : SmakPiece} {b : Board} {x y x' s : Nat}

theorem afterPawn_next (hw : WellFormed st) (hp : e.pinNumber < 64)
    (hq : plyOf st e = some (.quiet d (.man d .pawn) x y)) : AfterPawn (next st e) d x y := by
  obtain ⟨hb, -, hep, hsq, -⟩ := next_of_quiet hq
  obtain ⟨-, hk, hy, hne, -, hx⟩ := plyOf_quiet hq
  rw [if_pos rfl] at hep hsq
  refine ⟨hep, hsq, ?_, ?_, hy ▸ hp⟩
  · rw [hb]
    cases hlast : lastRank d y with
    | false => rw [promote_of_lastRank hlast, moved_target hne, ← hk, if_neg (by decide)]
    | true => rw [promote, if_pos ⟨by rw [moved_target hne, ← hk], hlast⟩, Function.update_self,
        if_pos rfl]
  · rcases hx with ⟨-, rfl⟩ | ⟨-, rfl⟩
    · exact hw.x_lt
    · exact kingStartingsquare_lt d

theorem AfterPawn.of_sameGame (h : AfterPawn st d x y) (hf : SameGame st t) :
    AfterPawn t d x y where
  enPassant := hf.enPassant.trans h.enPassant
  enPassantSquare := hf.enPassantSquare.trans h.enPassantSquare
  landed := hf.board ▸ h.landed
  source_lt := h.source_lt
  target_lt := h.target_lt

theorem afterPawn_of_run (h : run step (resetFsm st₀) es = .ok t)
    (hl : (plies (resetFsm st₀) es).getLast? = some (.quiet d (.man d .pawn) x y)) :
    AfterPawn t d x y := by
  refine always_of_next (I := fun p t => ∀ d x y, (plies (resetFsm st₀) p).getLast? =
    some (.quiet d (.man d .pawn) x y) → AfterPawn t d x y) ?_ ?_ es t (List.prefix_refl es) h
    d x y hl
  · intro d x y hl
    cases hl
  · intro p e t ht hp hi d x y hl
    rw [plies_concat ht hp] at hl
    cases hq : plyOf t e with
    | none =>
      rw [hq, Option.toList_none, List.append_nil] at hl
      exact (hi d x y hl).of_sameGame (next_frame hq)
    | some q =>
      rw [hq, Option.toList_some, List.getLast?_concat, Option.some.injEq] at hl
      subst hl
      exact afterPawn_next (wellFormed_of_run ht) hp hq

theorem jumped_ne (hy : y < 64) : jumped c y ≠ y := by
  cases c <;> simp only [jumped] <;> omega

theorem eq_other_of_owner (h : (SmakPiece.man d .pawn).owner = some c.other) : d = c.other :=
  Option.some.inj h

/-- A pawn beside one that has made two steps is the one that may capture on the
square between, and no other is. -/
theorem beside_iff_attacks (hx' : x' < 64) (hy : y < 64) (h2 : twoRanks c.other x' y = true)
    (hb : b x = .man c .pawn) : Beside x y ↔ attacks b x (jumped c.other y) = true := by
  cases c with
  | white =>
    simp only [Color.other, twoRanks, beq_iff_eq] at h2
    simp only [attacks, hb, Beside, Color.other, jumped, gap, fileOf, rowOf, ahead,
      Bool.and_eq_true, beq_iff_eq]
    omega
  | black =>
    simp only [Color.other, twoRanks, beq_iff_eq] at h2
    simp only [attacks, hb, Beside, Color.other, jumped, gap, fileOf, rowOf, ahead,
      Bool.and_eq_true, beq_iff_eq]
    omega

theorem promote_target : promote c b s s = b s ∨
    b s = .man c .pawn ∧ promote c b s s = .man c .queen := by
  unfold promote
  split_ifs with h
  · exact .inr ⟨h.1, Function.update_self ..⟩
  · exact .inl rfl

theorem capture_leaves_attacker (h : Held st) (hq : plyOf st e = some (.capture c k x s s))
    (hep : enPassantAt st s = false) :
    (next st e).board s = k ∨ k = .man c .pawn ∧ (next st e).board s = .man c .queen := by
  obtain ⟨hb, -⟩ := next_of_capture hq
  obtain ⟨-, -, hxs⟩ := h.owner_capture hq
  obtain ⟨-, rfl, rfl, -⟩ := plyOf_capture hq
  have hland : taken (enPassantAt st s) st.board st.x s s s = st.board st.x := by
    rw [hep, taken, if_neg (by decide), moved_target hxs]
  have htarget := promote_target (c := c) (b := taken (enPassantAt st s) st.board st.x s s) (s := s)
  rwa [hb.symm, hland] at htarget

theorem capture_erases_attacker (h : Held st) (hq : plyOf st e = some (.capture c k x s s))
    (hep : enPassantAt st s = true) : (next st e).board s = .emptySquare := by
  obtain ⟨hb, -⟩ := next_of_capture hq
  obtain ⟨-, -, hxs⟩ := h.owner_capture hq
  rw [hb, promote_eq_emptySquare]
  exact taken_erased hxs ⟨hep, .inl rfl⟩

/-- With the flag set, the last pawn's advance was one of two ranks over `s`,
and the men that are lifted with it have the colours of the capture. -/
theorem genuine_of_takesMoved (h : run step (resetFsm st₀) es = .ok t)
    (hq : plyOf t e = some (.capture c k x y s)) (hep : enPassantAt t s = true)
    (hl : TakesMoved (plies (resetFsm st₀) es) t x y s) :
    Genuine (plies (resetFsm st₀) es) t c x y s := by
  obtain ⟨⟨d, x', hlast, hrank⟩, ⟨d', hpawn⟩, hattacks⟩ := hl
  have hafter := afterPawn_of_run h hlast
  obtain ⟨hflag, hsq⟩ : t.enPassant = true ∧ t.enPassantSquare = s := by
    simpa [enPassantAt] using hep
  have htwo : twoRanks d x' y = true := by rw [← hafter.enPassant, hflag]
  obtain rfl : jumped d y = s := by rw [← hafter.enPassantSquare, hsq]
  obtain ⟨hown, henemy, -⟩ := (held_of_run h).owner_capture hq
  obtain ⟨-, rfl, rfl, -⟩ := plyOf_capture hq
  rw [hpawn] at hown
  obtain rfl := eq_of_owner hown
  have hvictim : t.board y = .man d .pawn := by rw [hafter.landed, if_neg (by simp [hrank])]
  rw [hvictim] at henemy
  obtain rfl := eq_other_of_owner henemy
  refine ⟨hpawn, hvictim, ⟨x', hlast, ?_⟩, ?_⟩
  · rw [jumpedOver_pawn hafter.target_lt, if_pos htwo]
  · exact (beside_iff_attacks hafter.source_lt hafter.target_lt htwo hpawn).mpr hattacks

theorem takesMoved_of_genuine (h : run step (resetFsm st₀) es = .ok t)
    (hg : Genuine (plies (resetFsm st₀) es) t c x y s) :
    TakesMoved (plies (resetFsm st₀) es) t x y s := by
  obtain ⟨x', hlast, hover⟩ := hg.advance
  have hafter := afterPawn_of_run h hlast
  rw [jumpedOver_pawn hafter.target_lt] at hover
  split_ifs at hover with htwo
  obtain rfl := Option.some.inj hover
  refine ⟨⟨c.other, x', hlast, ?_⟩, ⟨c, hg.attacker⟩, ?_⟩
  · by_contra hrank
    have hvictim := hafter.landed.symm.trans hg.victim
    rw [if_pos (Bool.of_not_eq_false hrank)] at hvictim
    cases hvictim
  · exact (beside_iff_attacks hafter.source_lt hafter.target_lt htwo hg.attacker).mp hg.beside

end Step

/-- The captures that an event completes are genuine, exactly when each one put
down on the en-passant square is a pawn's, of the pawn that has just moved. -/
theorem genuineCaptures_iff {st₀ t : ChessState} {es : List Event} {e : Event}
    (h : run step (resetFsm st₀) es = .ok t) (hp : e.pinNumber < 64) :
    GenuineCaptures (plies (resetFsm st₀) es) t e ↔
      ∀ c k x y s, plyOf t e = some (.capture c k x y s) → enPassantAt t s = true →
        TakesMoved (plies (resetFsm st₀) es) t x y s := by
  have hw := wellFormed_of_run h
  have hheld := held_of_run h
  constructor
  · intro hg c k x y s hq hep
    obtain ⟨hother, hself⟩ := hg _ c k x y s (pinChange_eq hw hp) hq
    by_cases hs : s = y
    · subst hs
      exfalso
      have hempty := capture_erases_attacker hheld hq hep
      have hk := ne_emptySquare_of_owner (hheld.owner_capture hq).1
      rcases hself rfl with hb | ⟨-, hb⟩
      · exact hk (hb.symm.trans hempty)
      · cases hb.symm.trans hempty
    · exact takesMoved_of_genuine h (hother hs)
  · intro hl u c k x y s hu hq
    obtain ⟨-, rfl⟩ := step_eq_ok hw hu
    obtain ⟨-, -, -, hy, -, hs, -⟩ := plyOf_capture hq
    constructor
    · intro hsy
      have hep : enPassantAt t s = true := by
        rcases hs with rfl | hep
        exacts [absurd rfl hsy, hep]
      exact genuine_of_takesMoved h hq hep (hl c k x y s hq hep)
    · rintro rfl
      cases hep : enPassantAt t s with
      | false => exact capture_leaves_attacker hheld hq hep
      | true =>
        obtain ⟨x', -, hover⟩ := (genuine_of_takesMoved h hq hep (hl c k x s s hq hep)).advance
        rw [jumpedOver_pawn (hy ▸ hw.y_lt)] at hover
        split_ifs at hover
        exact absurd (Option.some.inj hover) (jumped_ne (hy ▸ hw.y_lt))

/-- White's pawn has advanced from c2 to c4, past black's on b4. -/
def pawnOnC4 : List Event :=
  [lift 52, put 36, lift 9, put 25, lift 36, put 28, lift 25, put 33, lift 50, put 34, lift 33, lift 34]

theorem genuineCaptures_pawnOnC4 :
    plyOf (pawnOnC4.foldl next (resetFsm powerOn)) (put 42) =
        some (.capture .black (.man .black .pawn) 33 34 42) ∧
      GenuineCaptures (plies (resetFsm powerOn) pawnOnC4)
        (pawnOnC4.foldl next (resetFsm powerOn)) (put 42) := by
  have hq : plyOf (pawnOnC4.foldl next (resetFsm powerOn)) (put 42) =
      some (.capture .black (.man .black .pawn) 33 34 42) := by decide +kernel
  refine ⟨hq, (genuineCaptures_iff (run_eq_foldl pawnOnC4 (wellFormed_resetFsm powerOn)
    (by decide)) (by decide)).mpr fun c k x y s hq' _ => ?_⟩
  cases hq.symm.trans hq'
  exact ⟨⟨.white, 50, by decide +kernel⟩, ⟨.black, by decide +kernel⟩, by decide +kernel⟩

/-- 1. Nc3 e5 2. e4 Bc5 3. Qe2 Nc6 4. Qe3 and black lifts the bishop and the
queen: the flag that the advance to e4 has set still names e3. -/
def queenOnE3 : List Event :=
  [lift 57, put 42, lift 12, put 28, lift 52, put 36, lift 5, put 26, lift 59, put 52, lift 1,
    put 18, lift 52, put 44, lift 26, lift 44]

theorem bishop_takes_not_genuine :
    ∃ t, run step (resetFsm powerOn) queenOnE3 = .ok t ∧
      ¬ GenuineCaptures (plies (resetFsm powerOn) queenOnE3) t (put 44) := by
  have hr := run_eq_foldl queenOnE3 (wellFormed_resetFsm powerOn) (by decide)
  refine ⟨_, hr, fun hg => ?_⟩
  have hq : plyOf (queenOnE3.foldl next (resetFsm powerOn)) (put 44) =
      some (.capture .black (.man .black .bishop) 26 44 44) := by decide +kernel
  have hnext := pinChange_eq (e := put 44) (wellFormed_of_run hr) (by decide)
  have hempty := capture_erases_attacker (held_of_run hr) hq (by decide +kernel)
  rcases (hg _ _ _ _ _ _ hnext hq).2 rfl with hb | ⟨hk, -⟩
  · cases hb.symm.trans hempty
  · cases hk

end SmakChess
