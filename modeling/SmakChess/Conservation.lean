import SmakChess.EnPassantCapture
import Mathlib.Algebra.BigOperators.Group.Finset.Piecewise
import Mathlib.Algebra.Order.Group.Multiset
import Mathlib.Tactic.Abel

/-! The men on the board as a multiset, and what one event takes from it. -/

namespace SmakChess

open Machine

def SmakPiece.men : SmakPiece → Multiset SmakPiece
  | .emptySquare => 0
  | .man c k => {.man c k}

def menOn (b : Board) : Multiset SmakPiece := ∑ i ∈ Finset.range 64, (b i).men

def promotes (c : Color) (k : SmakPiece) (s : Nat) : Bool :=
  k == .man c .pawn && lastRank c s

/-- What a ply may take off the board: the victim of a capture, and the pawn
that reaches the last rank. -/
def Ply.removes (b : Board) : Ply → Multiset SmakPiece
  | .quiet c k _ s => if promotes c k s then k.men else 0
  | .capture c k _ y s => (b y).men + if promotes c k s then k.men else 0
  | .castle _ _ => 0

def Ply.adds : Ply → Multiset SmakPiece
  | .quiet c k _ s | .capture c k _ _ s =>
    if promotes c k s then (SmakPiece.man c .queen).men else 0
  | .castle _ _ => 0

/-- The event takes no man off the board but the enemy's on `y` when it
completes a capture, and replaces none but a pawn on the last rank. -/
def Conserves (st : ChessState) (e : Event) : Prop :=
  ∃ u, step st e = .ok u ∧
    (plyOf st e = none → menOn u.board = menOn st.board) ∧
    (∀ q, plyOf st e = some q →
      menOn u.board + q.removes st.board = menOn st.board + q.adds) ∧
    ∀ c k x y s, plyOf st e = some (.capture c k x y s) → (st.board y).owner = some c.other

/-- The squares a ply puts a man on, other than a victim's, are empty. -/
def LandsOnEmpty (st : ChessState) : Ply → Prop
  | .quiet _ _ _ s => st.board s = .emptySquare
  | .capture _ _ _ _ s => enPassantAt st s = true → st.board s = .emptySquare
  | .castle c v =>
    st.board (kingCastlesquare c v) = .emptySquare ∧ st.board (rookCastlesquare c v) = .emptySquare

section Men

variable {b : Board} {p : SmakPiece} {c : Color} {v : Wing} {x y s i : Nat}

@[simp] theorem men_emptySquare : SmakPiece.emptySquare.men = 0 := rfl

theorem men_eq_zero : p.men = 0 ↔ p = .emptySquare := by
  cases p with
  | emptySquare => simp
  | man c k => simp [SmakPiece.men]

theorem men_add_eq_zero {r : SmakPiece} :
    p.men + r.men = 0 ↔ p = .emptySquare ∧ r = .emptySquare := by
  cases p with
  | emptySquare => simp [men_eq_zero]
  | man c k => simp [SmakPiece.men]

theorem menOn_update (hi : i < 64) :
    menOn (Function.update b i p) + (b i).men = menOn b + p.men := by
  have hmem : i ∈ Finset.range 64 := Finset.mem_range.mpr hi
  have hmen : (fun j => (Function.update b i p j).men) =
      Function.update (fun j => (b j).men) i p.men := by
    funext j
    by_cases hj : j = i
    · subst hj
      simp
    · simp [Function.update_of_ne hj]
  rw [menOn, hmen, Finset.sum_update_of_mem hmem, Finset.sdiff_singleton_eq_erase, menOn,
    ← Finset.add_sum_erase _ _ hmem]
  abel

theorem menOn_remove (hi : i < 64) :
    menOn (Function.update b i .emptySquare) + (b i).men = menOn b := by
  rw [menOn_update hi, men_emptySquare, add_zero]

theorem menOn_moved (hx : x < 64) (hs : s < 64) (h : x ≠ s) :
    menOn (moved b x s) + (b s).men = menOn b := by
  have hput := menOn_update (b := b) (p := b x) hs
  have hleave := menOn_remove (b := Function.update b s (b x)) hx
  rw [Function.update_of_ne h] at hleave
  rw [← hleave, add_right_comm] at hput
  exact add_right_cancel hput

theorem menOn_moved_self (hx : x < 64) : menOn (moved b x x) + (b x).men = menOn b := by
  have hsame : Function.update b x (b x) = b := Function.update_eq_self x b
  rw [moved, hsame]
  exact menOn_remove hx

theorem menOn_promote (hs : s < 64) :
    menOn (promote c b s) + (if promotes c (b s) s then (b s).men else 0) =
      menOn b + if promotes c (b s) s then (SmakPiece.man c .queen).men else 0 := by
  by_cases h : b s = .man c .pawn ∧ lastRank c s = true
  · have hp : promotes c (b s) s = true := by simp [promotes, h]
    rw [if_pos hp, if_pos hp, promote, if_pos h]
    exact menOn_update hs
  · have hp : promotes c (b s) s = false := by simpa [promotes] using h
    rw [promote, if_neg h]
    simp [hp]

/-- A castling is the rook's move and the king's. -/
theorem castled_eq_moved (hking : b (kingStartingsquare c) = .man c .king)
    (hrook : b (rookStartingsquare c v) = .man c .rook) :
    castled c v b = moved (moved b (rookStartingsquare c v) (rookCastlesquare c v))
      (kingStartingsquare c) (kingCastlesquare c v) := by
  have hrr : rookStartingsquare c v ≠ rookCastlesquare c v := by cases c <;> cases v <;> decide
  have hkr : kingStartingsquare c ≠ rookCastlesquare c v := by cases c <;> cases v <;> decide
  have hks : kingStartingsquare c ≠ rookStartingsquare c v := by cases c <;> cases v <;> decide
  have hkk : kingStartingsquare c ≠ kingCastlesquare c v := by cases c <;> cases v <;> decide
  have hk : moved b (rookStartingsquare c v) (rookCastlesquare c v) (kingStartingsquare c) =
      .man c .king := by
    rw [moved_other hks hkr, hking]
  rw [moved, hk, moved, hrook, castled, Function.update_comm hkk, Function.update_comm hrr]

theorem menOn_castled (hking : b (kingStartingsquare c) = .man c .king)
    (hrook : b (rookStartingsquare c v) = .man c .rook) :
    menOn (castled c v b) + ((b (kingCastlesquare c v)).men + (b (rookCastlesquare c v)).men) =
      menOn b := by
  have hrr : rookStartingsquare c v ≠ rookCastlesquare c v := by cases c <;> cases v <;> decide
  have hkk : kingStartingsquare c ≠ kingCastlesquare c v := by cases c <;> cases v <;> decide
  have hkr : kingCastlesquare c v ≠ rookCastlesquare c v := by cases c <;> cases v <;> decide
  have hks : kingCastlesquare c v ≠ rookStartingsquare c v := by cases c <;> cases v <;> decide
  have hmove := menOn_moved (b := moved b (rookStartingsquare c v) (rookCastlesquare c v))
    (kingStartingsquare_lt c) (kingCastlesquare_lt c v) hkk
  rw [moved_other hks hkr] at hmove
  rw [castled_eq_moved hking hrook, ← add_assoc, hmove]
  exact menOn_moved (rookStartingsquare_lt c v) (rookCastlesquare_lt c v) hrr

/-- The put-down on the en-passant square loses the attacker when it lands on a
square the capture empties, and whatever stands there otherwise. -/
theorem menOn_taken (hx : x < 64) (hy : y < 64) (hs : s < 64) (hxy : x ≠ y) :
    menOn (taken true b x y s) + (b y).men +
      (if s = y ∨ s = x then (b x).men else (b s).men) = menOn b := by
  have hclear := menOn_remove (b := moved b x s) hy
  rw [taken, if_pos rfl]
  by_cases hsy : s = y
  · subst hsy
    rw [moved_target hxy] at hclear
    rw [if_pos (.inl rfl), add_right_comm, hclear]
    exact menOn_moved hx hs hxy
  · by_cases hsx : s = x
    · subst hsx
      rw [moved_other hxy.symm hxy.symm] at hclear
      rw [if_pos (.inr rfl), hclear]
      exact menOn_moved_self hx
    · rw [moved_other hxy.symm (Ne.symm hsy)] at hclear
      rw [if_neg (by tauto), hclear]
      exact menOn_moved hx hs (Ne.symm hsx)

theorem balance_iff {M V X B P L G : Multiset SmakPiece} (hboard : M + V + X = B)
    (hpromote : P + L = M + G) : P + (V + L) = B + G ↔ X = 0 := by
  have hleft : P + (V + L) = M + V + G := by
    rw [add_left_comm, hpromote]
    abel
  rw [hleft, ← hboard, add_left_inj, left_eq_add]

end Men

section Step

variable {st t st₀ : ChessState} {e : Event} {es : List Event} {c : Color} {v : Wing}
  {k : SmakPiece} {x y s : Nat} {q : Ply}

theorem lastRank_of_bounds (h : 8 ≤ s ∧ s < 56) : lastRank c s = false := by
  cases c <;> simp only [lastRank, decide_eq_false_iff_not] <;> omega

theorem quiet_balance_iff (hw : WellFormed st) (hp : e.pinNumber < 64)
    (hq : plyOf st e = some (.quiet c k x s)) :
    menOn (next st e).board + (Ply.quiet c k x s).removes st.board =
      menOn st.board + (Ply.quiet c k x s).adds ↔ st.board s = .emptySquare := by
  obtain ⟨hb, -⟩ := next_of_quiet hq
  obtain ⟨-, rfl, rfl, hne, -, hx⟩ := plyOf_quiet hq
  have hlt : x < 64 := by
    rcases hx with ⟨-, rfl⟩ | ⟨-, rfl⟩
    exacts [hw.x_lt, kingStartingsquare_lt c]
  have hpromote := menOn_promote (b := moved st.board x e.pinNumber) (c := c) hp
  rw [moved_target hne] at hpromote
  have hboard : menOn (moved st.board x e.pinNumber) + 0 + (st.board e.pinNumber).men =
      menOn st.board := by
    rw [add_zero, menOn_moved hlt hp hne]
  have hiff := balance_iff hboard hpromote
  rw [zero_add] at hiff
  rw [hb, ← men_eq_zero]
  exact hiff

theorem capture_on_target_balance (hw : WellFormed st) (h : Held st)
    (hq : plyOf st e = some (.capture c k x y s)) (hep : enPassantAt st s = false) :
    menOn (next st e).board + (Ply.capture c k x y s).removes st.board =
      menOn st.board + (Ply.capture c k x y s).adds := by
  obtain ⟨hb, -⟩ := next_of_capture hq
  obtain ⟨-, -, hxy⟩ := h.owner_capture hq
  obtain ⟨-, rfl, rfl, rfl, rfl, hs, -, -⟩ := plyOf_capture hq
  obtain hyp : st.y = e.pinNumber := by simpa [hep] using hs
  rw [hb, hep, ← hyp]
  have hpromote := menOn_promote (b := moved st.board st.x st.y) (c := c) hw.y_lt
  rw [moved_target hxy] at hpromote
  have hboard : menOn (moved st.board st.x st.y) + (st.board st.y).men + 0 =
      menOn st.board := by
    rw [add_zero, menOn_moved hw.x_lt hw.y_lt hxy]
  simp only [taken, Bool.false_eq_true, if_false]
  exact (balance_iff hboard hpromote).mpr rfl

/-- What lands on a square that the capture empties is lost. -/
theorem capture_erased_balance_iff (hw : WellFormed st) (h : Held st) (hp : e.pinNumber < 64)
    (hq : plyOf st e = some (.capture c k x y s)) (hep : enPassantAt st s = true)
    (her : erases st x y s) :
    menOn (next st e).board + (Ply.capture c k x y s).removes st.board =
        menOn st.board + (Ply.capture c k x y s).adds ↔ st.board s = .emptySquare := by
  obtain ⟨hb, -⟩ := next_of_capture hq
  obtain ⟨hown, henemy, hxy⟩ := h.owner_capture hq
  obtain ⟨-, rfl, rfl, rfl, rfl, -, -, -⟩ := plyOf_capture hq
  have hlost := menOn_taken (b := st.board) hw.x_lt hw.y_lt hp hxy
  have hpromote := menOn_promote (b := taken true st.board st.x st.y e.pinNumber) (c := c) hp
  have hland := taken_erased hxy her
  rw [hep] at hland
  have hrank : lastRank c e.pinNumber = false := by
    obtain ⟨hflag, hsq⟩ : st.enPassant = true ∧ st.enPassantSquare = e.pinNumber := by
      simpa [enPassantAt] using hep
    exact lastRank_of_bounds (hsq ▸ h.square hflag)
  have hnone : promotes c .emptySquare e.pinNumber = false := by simp [promotes]
  have hkeep : promotes c (st.board st.x) e.pinNumber = false := by simp [promotes, hrank]
  rw [if_pos her.2] at hlost
  simp only [hland, hnone, Bool.false_eq_true, if_false] at hpromote
  have hiff := balance_iff hlost hpromote
  simp only [Ply.removes, Ply.adds, hkeep, Bool.false_eq_true, if_false]
  rw [hb, hep, hiff, men_eq_zero]
  have hx0 := ne_emptySquare_of_owner hown
  have hy0 := ne_emptySquare_of_owner henemy
  rcases her.2 with hs' | hs' <;> simp [hs', hx0, hy0]

theorem capture_beyond_balance_iff (hw : WellFormed st) (h : Held st) (hp : e.pinNumber < 64)
    (hq : plyOf st e = some (.capture c k x y s)) (hep : enPassantAt st s = true)
    (her : ¬ erases st x y s) :
    menOn (next st e).board + (Ply.capture c k x y s).removes st.board =
        menOn st.board + (Ply.capture c k x y s).adds ↔ st.board s = .emptySquare := by
  obtain ⟨hb, -⟩ := next_of_capture hq
  obtain ⟨-, -, hxy⟩ := h.owner_capture hq
  obtain ⟨-, rfl, rfl, rfl, rfl, -, -, -⟩ := plyOf_capture hq
  have hlost := menOn_taken (b := st.board) hw.x_lt hw.y_lt hp hxy
  have hpromote := menOn_promote (b := taken true st.board st.x st.y e.pinNumber) (c := c) hp
  have hland := taken_target hxy (.inr hep) her
  rw [hep] at hland
  have hne : ¬ (e.pinNumber = st.y ∨ e.pinNumber = st.x) := fun hs' => her ⟨hep, hs'⟩
  rw [if_neg hne] at hlost
  rw [hland] at hpromote
  rw [hb, hep, ← men_eq_zero]
  exact balance_iff hlost hpromote

theorem capture_balance_iff (hw : WellFormed st) (h : Held st) (hp : e.pinNumber < 64)
    (hq : plyOf st e = some (.capture c k x y s)) :
    menOn (next st e).board + (Ply.capture c k x y s).removes st.board =
        menOn st.board + (Ply.capture c k x y s).adds ↔
      (enPassantAt st s = true → st.board s = .emptySquare) := by
  cases hep : enPassantAt st s with
  | false =>
    exact iff_of_true (capture_on_target_balance hw h hq hep) fun hfalse => absurd hfalse (by decide)
  | true =>
    rw [imp_iff_right rfl]
    by_cases her : erases st x y s
    · exact capture_erased_balance_iff hw h hp hq hep her
    · exact capture_beyond_balance_iff hw h hp hq hep her

theorem castle_balance_iff (h : Held st) (hq : plyOf st e = some (.castle c v)) :
    menOn (next st e).board + (Ply.castle c v).removes st.board =
        menOn st.board + (Ply.castle c v).adds ↔
      st.board (kingCastlesquare c v) = .emptySquare ∧
        st.board (rookCastlesquare c v) = .emptySquare := by
  obtain ⟨hking, hrook⟩ := h.home_castle hq
  have hboard := menOn_castled hking hrook
  rw [(next_of_castle hq).1, ← hboard]
  simp only [Ply.removes, Ply.adds, add_zero, left_eq_add, men_add_eq_zero]

theorem balance_next_iff (hw : WellFormed st) (h : Held st) (hp : e.pinNumber < 64)
    (hq : plyOf st e = some q) :
    menOn (next st e).board + q.removes st.board = menOn st.board + q.adds ↔
      LandsOnEmpty st q := by
  cases q with
  | quiet c k x s => exact quiet_balance_iff hw hp hq
  | capture c k x y s => exact capture_balance_iff hw h hp hq
  | castle c v => exact castle_balance_iff h hq

theorem conserves_of_held (hw : WellFormed st) (h : Held st) (hp : e.pinNumber < 64) :
    Conserves st e ↔ ∀ q, plyOf st e = some q → LandsOnEmpty st q := by
  constructor
  · rintro ⟨u, hu, -, hply, -⟩ q hq
    obtain ⟨-, rfl⟩ := step_eq_ok hw hu
    exact (balance_next_iff hw h hp hq).mp (hply q hq)
  · intro hland
    refine ⟨_, pinChange_eq hw hp, fun hn => ?_, fun q hq => ?_, fun c k x y s hq => ?_⟩
    · rw [(next_frame hn).board]
    · exact (balance_next_iff hw h hp hq).mpr (hland q hq)
    · exact (h.owner_capture hq).2.1

end Step

/-- An event conserves the men on the board, exactly when the ply it completes,
if any, lands on squares that hold no other man. -/
theorem conserves_iff {st₀ t : ChessState} {es : List Event} {e : Event}
    (h : run step (resetFsm st₀) es = .ok t) (hp : e.pinNumber < 64) :
    Conserves t e ↔ ∀ q, plyOf t e = some q → LandsOnEmpty t q :=
  conserves_of_held (wellFormed_of_run h) (held_of_run h) hp

theorem conserves_iff_first_put :
    Conserves ([lift 52].foldl next (resetFsm powerOn)) (put 36) ↔
      ∀ q, plyOf ([lift 52].foldl next (resetFsm powerOn)) (put 36) = some q →
        LandsOnEmpty ([lift 52].foldl next (resetFsm powerOn)) q :=
  conserves_iff (run_eq_foldl [lift 52] (wellFormed_resetFsm powerOn) (by decide)) (by decide)

/-- The bishop that takes the queen on e3 is taken off with it. -/
theorem bishop_takes_not_conserved :
    ∃ t, run step (resetFsm powerOn) queenOnE3 = .ok t ∧ ¬ Conserves t (put 44) := by
  have hr := run_eq_foldl queenOnE3 (wellFormed_resetFsm powerOn) (by decide)
  refine ⟨_, hr, ?_⟩
  rw [conserves_of_held (wellFormed_of_run hr) (held_of_run hr) (by decide)]
  intro hland
  have hq : plyOf (queenOnE3.foldl next (resetFsm powerOn)) (put 44) =
      some (.capture .black (.man .black .bishop) 26 44 44) := by decide +kernel
  exact absurd (hland _ hq (by decide +kernel)) (by decide +kernel)

end SmakChess
