import SmakChess.Play

/-! The machine follows a legal game as long as its flags agree with the rules,
and no further. -/

namespace SmakChess

open Machine

def VictimOnBoard (p : Position) : Prop :=
  ∀ s, p.enPassant = some s → victimSquare p.turn s < 64

/-- The relation between the game and the machine before each ply. -/
structure Simulates (p : Position) (st : ChessState) : Prop where
  wellFormed : WellFormed st
  held : Held st
  active : active st = some (.of p.turn .base)
  board : st.board = p.board
  enPassant : ∀ s, p.enPassant = some s → enPassantAt st s = true

def Performance.ply (p : Position) : Performance → Ply
  | .quiet x s => .quiet p.turn (p.board x) x s
  | .capture _ x s => .capture p.turn (p.board x) x s s
  | .enPassant _ x s => .capture p.turn (p.board x) x (victimSquare p.turn s) s
  | .castle _ v => .castle p.turn v

section Perform

variable {p : Position} {st : ChessState} {m : Performance} {c : Color} {v : Wing}
  {x y s : Nat} {victimFirst : Bool} {o : CastlingOrder}

theorem eq_man_of_owner {k : SmakPiece} (h : k.owner = some c) : ∃ l, k = .man c l := by
  cases k with
  | emptySquare => cases h
  | man d l =>
    obtain rfl := eq_of_owner h
    exact ⟨l, rfl⟩

theorem Held.enPassantAt_bounds (h : Held st) (he : enPassantAt st s = true) :
    8 ≤ s ∧ s < 56 := by
  obtain ⟨hep, hsq⟩ : st.enPassant = true ∧ st.enPassantSquare = s := by
    simpa [enPassantAt] using he
  exact hsq ▸ h.square hep

theorem victimOnBoard_play {n : Move} (hl : p.legal n) : VictimOnBoard (p.play n) := by
  intro s hs
  cases n with
  | quiet x t =>
    simp only [Position.play, Position.enPassantAfter] at hs ⊢
    split_ifs at hs with hg
    obtain ⟨⟨hx, ht, -, -, hr⟩, -⟩ := hl
    obtain rfl := Option.some.inj hs
    rw [(reaches_two hx ht hg.1 hr hg.2).2.2]
    exact ht
  | capture x t => cases hs
  | enPassant x t => cases hs
  | castle v => cases hs

theorem events_lt (hv : VictimOnBoard p) (hl : p.legal m.move) :
    ∀ e ∈ m.events p.turn, e.pinNumber < 64 := by
  cases m with
  | quiet x s =>
    obtain ⟨⟨hx, hs, -⟩, -⟩ := hl
    simp [Performance.events, hx, hs]
  | capture b x s =>
    obtain ⟨⟨hx, hs, -⟩, -⟩ := hl
    cases b <;> simp [Performance.events, Performance.takes, hx, hs]
  | enPassant b x s =>
    obtain ⟨⟨hx, hs, hep, -⟩, -⟩ := hl
    have hy := hv s hep
    cases b <;> simp [Performance.events, Performance.takes, hx, hs, hy]
  | castle o v =>
    have h1 := kingStartingsquare_lt p.turn
    have h2 := rookStartingsquare_lt p.turn v
    have h3 := kingCastlesquare_lt p.turn v
    have h4 := rookCastlesquare_lt p.turn v
    cases o <;> simp [Performance.events, Performance.castles, h1, h2, h3, h4]

theorem completes_takes (h : Simulates p st) (hx : (p.board x).owner = some p.turn)
    (hy : (p.board y).owner = some p.turn.other) (hs : y = s ∨ enPassantAt st s = true) :
    Completes st (Performance.takes victimFirst x y s) (.capture p.turn (p.board x) x y s) := by
  obtain ⟨k, hk⟩ := eq_man_of_owner hx
  obtain ⟨l, hl⟩ := eq_man_of_owner hy
  have hbx : st.board x = .man p.turn k := by rw [h.board, hk]
  have hby : st.board y = .man p.turn.other l := by rw [h.board, hl]
  rw [hk]
  cases victimFirst with
  | true => exact completes_capture_victim_first h.active hbx hby hs
  | false => exact completes_capture_attacker_first h.active hbx hby hs h.held.kingHome_base

theorem completes_castles (h : Simulates p st)
    (hk : p.board (kingStartingsquare p.turn) = .man p.turn .king)
    (hr : p.board (rookStartingsquare p.turn v) = .man p.turn .rook)
    (hv : st.right p.turn v = true) :
    Completes st (Performance.castles p.turn v o) (.castle p.turn v) := by
  rw [← h.board] at hk hr
  cases o with
  | krkr => exact completes_krkr h.active hk hr hv
  | krrk => exact completes_krrk h.active hk hr hv
  | kkrr => exact completes_kkrr h.active hk hr hv

theorem completes_events (h : Simulates p st) (hl : p.legal m.move)
    (hright : ∀ v, m.move = .castle v → st.right p.turn v = true) :
    Completes st (m.events p.turn) (m.ply p) := by
  cases m with
  | quiet x s =>
    obtain ⟨⟨hx, hs, hox, hes, hr⟩, -⟩ := hl
    obtain ⟨k, hk⟩ := eq_man_of_owner hox
    have hxs : x ≠ s := by
      rintro rfl
      rw [hk] at hes
      cases hes
    simp only [Performance.ply, hk]
    apply completes_quiet h.active (h.board ▸ hk) hxs h.held.kingHome_base
    rintro rfl v hv rfl
    have hbx : st.board x = .man p.turn .king := by rw [h.board, hk]
    obtain rfl := h.held.kingHome _ v hv x hbx
    rw [not_reaches_kingCastlesquare hk] at hr
    cases hr
  | capture b x s =>
    obtain ⟨⟨-, -, hox, hos, -⟩, -⟩ := hl
    exact completes_takes h hox hos (.inl rfl)
  | enPassant b x s =>
    obtain ⟨⟨-, -, hep, hbx, -, hby⟩, -⟩ := hl
    have hox : (p.board x).owner = some p.turn := by rw [hbx]; rfl
    have hoy : (p.board (victimSquare p.turn s)).owner = some p.turn.other := by rw [hby]; rfl
    exact completes_takes h hox hoy (.inr (h.enPassant s hep))
  | castle o v =>
    obtain ⟨⟨-, hk, hr, -⟩, -⟩ := hl
    exact completes_castles h hk hr (hright v rfl)

theorem ply_color : (m.ply p).color = p.turn := by cases m <;> rfl

theorem board_events (h : Simulates p st) (hl : p.legal m.move) (hs : Supported p st m.move)
    (hc : Completes st (m.events p.turn) (m.ply p)) :
    ((m.events p.turn).foldl next st).board = p.boardAfter m.move := by
  cases m with
  | quiet x s =>
    obtain ⟨⟨-, hs64, hox, hes, -⟩, -⟩ := hl
    have hxs : x ≠ s := by
      rintro rfl
      rw [hes] at hox
      cases hox
    rw [hc.quiet.1, h.board]
    exact promote_moved hxs hs64 hox
  | capture b x s =>
    obtain ⟨⟨-, hs64, hox, hos, -⟩, -⟩ := hl
    have hxs : x ≠ s := by
      rintro rfl
      rw [hos] at hox
      cases ht : p.turn <;> rw [ht] at hox <;> cases hox
    have hep : enPassantAt st s = false := hs
    rw [hc.capture.1, h.board, hep]
    exact promote_moved hxs hs64 hox
  | enPassant b x s =>
    obtain ⟨⟨-, hs64, hep, hbx, hat, hby⟩, -⟩ := hl
    obtain ⟨hxs, hxy⟩ := pawn_attacks hbx hat
    have hepAt := h.enPassant s hep
    obtain ⟨hge, hlt⟩ := h.held.enPassantAt_bounds hepAt
    have hys : victimSquare p.turn s ≠ s := by
      cases p.turn <;> simp only [victimSquare] <;> omega
    have hlast : lastRank p.turn s = false := by
      cases p.turn <;> simp only [lastRank, decide_eq_false_iff_not] <;> omega
    rw [hc.capture.1, h.board, hepAt, promote_of_lastRank hlast, taken, if_pos rfl, moved_comm hxs]
    exact Function.update_comm hys.symm ..
  | castle o v =>
    rw [hc.castle.1, h.board]
    exact boardAfter_castle.symm

theorem enPassant_events (hl : p.legal m.move)
    (hc : Completes st (m.events p.turn) (m.ply p)) (s : Nat)
    (hs : p.enPassantAfter m.move = some s) :
    enPassantAt ((m.events p.turn).foldl next st) s = true := by
  cases m with
  | quiet x t =>
    obtain ⟨⟨hx, ht, -, -, hr⟩, -⟩ := hl
    simp only [Performance.move, Position.enPassantAfter] at hs
    split_ifs at hs with hg
    obtain ⟨htwo, hjump, -⟩ := reaches_two hx ht hg.1 hr hg.2
    obtain rfl := Option.some.inj hs
    obtain ⟨-, -, hep, hsq⟩ := hc.quiet
    rw [if_pos hg.1] at hep hsq
    rw [enPassantAt, hep, hsq, htwo, hjump]
    simp
  | capture b x t => cases hs
  | enPassant b x t => cases hs
  | castle o v => cases hs

theorem simulates_events (h : Simulates p st) (hv : VictimOnBoard p) (hl : p.legal m.move)
    (hs : Supported p st m.move) :
    Simulates (p.play m.move) ((m.events p.turn).foldl next st) ∧
      FollowsGame (p.play m.move) ((m.events p.turn).foldl next st) := by
  have hc : Completes st (m.events p.turn) (m.ply p) := by
    apply completes_events h hl
    intro v hmv
    simpa [Supported, hmv] using hs
  have hlt := events_lt hv hl
  have hw := wellFormed_foldl h.wellFormed hlt
  have hh := held_foldl h.wellFormed h.held hlt
  have hb := board_events h hl hs hc
  have hep := enPassant_events hl hc
  obtain ⟨hact, hsv, hcur⟩ := hc.state
  rw [ply_color] at hact hsv hcur
  have hshow : ∀ s < 64, ((m.events p.turn).foldl next st).board s = (p.play m.move).board s := by
    intro s _
    rw [hb]
    rfl
  exact ⟨⟨hw, hh, hact, hb, hep⟩, hsv, hcur, hshow⟩

end Perform

/-! Where the machine leaves the game. -/

def Dead (st : ChessState) : Prop :=
  st.stateVal = .error ∧ (active st = some .error ∨ active st = none)

section Dead

variable {p : Position} {st : ChessState} {m : Performance} {e : Event} {es : List Event}
  {c : Color} {v : Wing} {x y s : Nat} {o : CastlingOrder} {t : States}

theorem dead_next (h : Dead st) : Dead (next st e) := by
  obtain ⟨hsv, ha | ha⟩ := h
  · have hr : reaction st e = .halt := reaction_eq_stateReaction ha
    refine ⟨by rw [next_stateVal, hr, hsv], .inr ?_⟩
    rw [active_next ha, hr]
    rfl
  · have hr : reaction st e = .ignore := by rw [reaction, ha]
    refine ⟨by rw [next_stateVal, hr, hsv], .inr ?_⟩
    exact active_next_none ha

theorem dead_foldl (es : List Event) (h : Dead st) : Dead (es.foldl next st) := by
  induction es generalizing st with
  | nil => exact h
  | cons e es ih => exact ih (dead_next h)

theorem dead_of_enter (ha : active st = some t)
    (h : stateReaction t st e = .enter .error st.x st.y) : Dead (next st e) := by
  have hr := (reaction_eq_stateReaction ha).trans h
  constructor
  · rw [next_stateVal, hr]
    rfl
  · left
    rw [active_next ha, hr]
    rfl

theorem not_followsGame_of_dead (h : Dead st) : ¬ FollowsGame p st := by
  rintro ⟨hsv, -⟩
  cases h.1.symm.trans hsv

theorem dead_lift_rook (ha : active st = some (.of c .base))
    (hk : st.board (kingStartingsquare c) = .man c .king)
    (hb : st.board (rookStartingsquare c v) = .man c .rook) (hv : st.right c v = false) :
    Dead (next (next st (lift (kingStartingsquare c))) (lift (rookStartingsquare c v))) := by
  cases hm : mayCastle st c (kingStartingsquare c) with
  | false =>
    obtain ⟨hn, hact, -, -⟩ := next_of_enter ha (lift_own hk hm)
    have hb' := (congrFun (next_frame hn).board _).trans hb
    have hne : c ≠ c.other := by cases c <;> decide
    apply dead_of_enter hact
    simp only [stateReaction, moveReaction, hb', SmakPiece.owner, Option.some.injEq, hne,
      if_false, Bool.true_eq_false]
  | true =>
    obtain ⟨hn, hact, -, -⟩ := next_of_enter ha (lift_king hm)
    have hb' := (congrFun (next_frame hn).board _).trans hb
    have hv' := (congrFun (congrFun (next_frame hn).right c) v).trans hv
    have hne : rookStartingsquare c .queenside ≠ rookStartingsquare c .kingside := by
      cases c <;> decide
    apply dead_of_enter hact
    cases v <;> simp [stateReaction, castlingReaction, hb', hv', hne, hne.symm, SmakPiece.owner]

theorem dead_put_king (hh : Held st) (ha : active st = some (.of c .base))
    (hk : st.board (kingStartingsquare c) = .man c .king)
    (hb : st.board (rookStartingsquare c v) = .man c .rook) (hv : st.right c v = false) :
    Dead ([lift (kingStartingsquare c), put (kingCastlesquare c v), lift (rookStartingsquare c v),
      put (rookCastlesquare c v)].foldl next st) := by
  have hne : kingStartingsquare c ≠ kingCastlesquare c v := by cases c <;> cases v <;> decide
  have hrk : rookStartingsquare c v ≠ kingStartingsquare c := by cases c <;> cases v <;> decide
  have hrc : rookStartingsquare c v ≠ kingCastlesquare c v := by cases c <;> cases v <;> decide
  have hrr : rookCastlesquare c v ≠ rookStartingsquare c v := by cases c <;> cases v <;> decide
  have hq : Completes st [lift (kingStartingsquare c), put (kingCastlesquare c v)]
      (.quiet c (.man c .king) (kingStartingsquare c) (kingCastlesquare c v)) := by
    apply completes_quiet ha hk hne hh.kingHome_base
    intro _ w hw hcw
    have hvw : v = w := by
      revert hcw
      cases c <;> cases v <;> cases w <;> decide
    rw [hvw, hw] at hv
    cases hv
  have hact := hq.state.1
  -- the other side lifts the rook as an enemy piece and cannot put it down elsewhere
  have hrook : (([lift (kingStartingsquare c), put (kingCastlesquare c v)].foldl next st).board
      (rookStartingsquare c v)) = .man c.other.other .rook := by
    rw [hq.quiet.1, promote_other hrc, moved_other hrk hrc, hb]
    cases c <;> rfl
  obtain ⟨-, hact', -, hy⟩ := next_of_enter hact (lift_enemy hrook)
  apply dead_of_enter hact'
  simp only [stateReaction, enemyCaptureReaction, if_false, Bool.false_eq_true]
  apply if_neg
  intro heq
  exact hrr (heq.trans hy)

theorem dead_castles (h : Simulates p st)
    (hk : p.board (kingStartingsquare p.turn) = .man p.turn .king)
    (hr : p.board (rookStartingsquare p.turn v) = .man p.turn .rook)
    (hv : st.right p.turn v = false) :
    Dead ((Performance.castles p.turn v o).foldl next st) := by
  rw [← h.board] at hk hr
  cases o with
  | krkr => exact dead_foldl [put _, put _] (dead_lift_rook h.active hk hr hv)
  | krrk => exact dead_foldl [put _, put _] (dead_lift_rook h.active hk hr hv)
  | kkrr => exact dead_put_king h.held h.active hk hr hv

theorem not_followsGame_of_flag (h : Simulates p st) {b : Bool}
    (hl : p.legal (.capture x s)) (hep : enPassantAt st s = true) :
    ¬ FollowsGame (p.play (.capture x s))
      (((Performance.capture b x s).events p.turn).foldl next st) := by
  have hc := completes_events (m := .capture b x s) h hl (fun v hmv => by cases hmv)
  obtain ⟨⟨-, hs, hox, -⟩, -⟩ := hl
  rintro ⟨-, -, hb⟩
  have hbs := hb s hs
  have hplay : (p.play (.capture x s)).board s = Position.crown s (p.board x) :=
    Function.update_self ..
  have hempty : (((Performance.capture b x s).events p.turn).foldl next st).board s =
      .emptySquare := by
    rw [hc.capture.1, hep, promote_eq_emptySquare, taken, if_pos rfl, Function.update_self]
  rw [hplay, hempty] at hbs
  exact crown_ne_emptySquare (ne_emptySquare_of_owner hox) hbs.symm

theorem not_followsGame_of_unsupported (h : Simulates p st) (hl : p.legal m.move)
    (hs : ¬ Supported p st m.move) :
    ¬ FollowsGame (p.play m.move) ((m.events p.turn).foldl next st) := by
  cases m with
  | quiet x s => exact absurd trivial hs
  | enPassant b x s => exact absurd trivial hs
  | capture b x s =>
    have hflag : enPassantAt st s = true := by simpa [Supported, Performance.move] using hs
    exact not_followsGame_of_flag h hl hflag
  | castle o v =>
    obtain ⟨⟨-, hk, hr, -⟩, -⟩ := hl
    have hv : st.right p.turn v = false := by simpa [Supported, Performance.move] using hs
    exact not_followsGame_of_dead (dead_castles h hk hr hv)

end Dead

/-! Games. -/

section Game

variable {p : Position} {st : ChessState} {m : Performance} {ms : List Performance}

theorem gameStep_eq (hw : WellFormed st) (hv : VictimOnBoard p) (hl : p.legal m.move) :
    gameStep (p, st) m = .ok (p.play m.move, (m.events p.turn).foldl next st) := by
  rw [gameStep, if_pos hl, run_eq_foldl _ hw (events_lt hv hl)]

theorem gameStep_illegal (hl : ¬ p.legal m.move) : gameStep (p, st) m = .error .illegal :=
  if_neg hl

theorem gameStep_eq_ok {g : Position × ChessState} (hw : WellFormed st) (hv : VictimOnBoard p)
    (h : gameStep (p, st) m = .ok g) :
    p.legal m.move ∧ g = (p.play m.move, (m.events p.turn).foldl next st) := by
  by_cases hl : p.legal m.move
  · rw [gameStep_eq hw hv hl, Except.ok.injEq] at h
    exact ⟨hl, h.symm⟩
  · rw [gameStep_illegal hl] at h
    cases h

theorem run_gameStep_ne_fsm (hw : WellFormed st) (hv : VictimOnBoard p) (f : Fault) :
    run gameStep (p, st) ms ≠ .error (.fsm f) := by
  induction ms generalizing p st with
  | nil => exact fun h => by cases h
  | cons m ms ih =>
    by_cases hl : p.legal m.move
    · rw [run_cons_of_ok (gameStep_eq hw hv hl)]
      exact ih (wellFormed_foldl hw (events_lt hv hl)) (victimOnBoard_play hl)
    · simp [run, gameStep_illegal hl, Except.bind]

def gameEvents : Color → List Performance → List Event
  | _, [] => []
  | c, m :: ms => m.events c ++ gameEvents c.other ms

theorem run_gameStep_of_legalGame (hw : WellFormed st) (hv : VictimOnBoard p)
    (hl : p.legalGame (ms.map Performance.move)) :
    run gameStep (p, st) ms =
      .ok ((ms.map Performance.move).foldl Position.play p,
        (gameEvents p.turn ms).foldl next st) := by
  induction ms generalizing p st with
  | nil => rfl
  | cons m ms ih =>
    obtain ⟨hm, hms⟩ := hl
    rw [run_cons_of_ok (gameStep_eq hw hv hm),
      ih (wellFormed_foldl hw (events_lt hv hm)) (victimOnBoard_play hm) hms, gameEvents,
      List.foldl_append]
    rfl

theorem victimOnBoard_initial : VictimOnBoard Position.initial := fun s hs => by cases hs

theorem simulates_initial (st₀ : ChessState) : Simulates Position.initial (resetFsm st₀) where
  wellFormed := wellFormed_resetFsm st₀
  held := held_resetFsm st₀
  active := active_resetFsm st₀
  board := rfl
  enPassant s hs := by cases hs

/-- However a legal game is performed from a reset, the machine never faults,
and after every ply it is in the base state of the side to move and shows the
position, exactly when every ply is supported by the flags it finds. -/
theorem follows_iff_supported (st₀ : ChessState) (ms : List Performance) :
    (∀ f, run gameStep (Position.initial, resetFsm st₀) ms ≠ .error (.fsm f)) ∧
      (Always gameStep (fun played g => played ≠ [] → FollowsGame g.1 g.2)
          (Position.initial, resetFsm st₀) ms ↔
        Throughout gameStep (fun g m => Supported g.1 g.2 m.move)
          (Position.initial, resetFsm st₀) ms) := by
  refine ⟨fun f => run_gameStep_ne_fsm (wellFormed_resetFsm st₀) victimOnBoard_initial f, ?_⟩
  refine always_iff_throughout
    (I := fun played g => (Simulates g.1 g.2 ∧ VictimOnBoard g.1) ∧
      (played ≠ [] → FollowsGame g.1 g.2))
    ⟨⟨simulates_initial st₀, victimOnBoard_initial⟩, fun h => absurd rfl h⟩
    (fun _ _ _ _ hi => hi.2) ?_ ?_
  · rintro played m ⟨p, st⟩ g - - ⟨⟨hsim, hv⟩, -⟩ hstep hs
    obtain ⟨hl, rfl⟩ := gameStep_eq_ok hsim.wellFormed hv hstep
    obtain ⟨hsim', hfol⟩ := simulates_events hsim hv hl hs
    exact ⟨⟨hsim', victimOnBoard_play hl⟩, fun _ => hfol⟩
  · rintro played m ⟨p, st⟩ g - - ⟨⟨hsim, hv⟩, -⟩ hstep hs hfol
    obtain ⟨hl, rfl⟩ := gameStep_eq_ok hsim.wellFormed hv hstep
    exact not_followsGame_of_unsupported hsim hl hs (hfol (by simp))

end Game

/-- 1. Nc3 d5 2. Nb5 Qd6 3. Nxd6: the flag of d7-d5 still names d6. -/
def staleFlagGame : List Performance :=
  [.quiet 57 42, .quiet 11 27, .quiet 42 25, .quiet 3 19, .capture false 25 19]

theorem staleFlagGame_not_followed :
    Position.initial.legalGame (staleFlagGame.map Performance.move) ∧
      ¬ Always gameStep (fun played g => played ≠ [] → FollowsGame g.1 g.2)
        (Position.initial, resetFsm powerOn) staleFlagGame := by
  have hl : Position.initial.legalGame (staleFlagGame.map Performance.move) := by decide +kernel
  refine ⟨hl, fun h => ?_⟩
  have hr := run_gameStep_of_legalGame (wellFormed_resetFsm powerOn) victimOnBoard_initial hl
  have hb := (h _ _ (List.prefix_refl _) hr (by decide)).2.2 19 (by decide)
  exact absurd hb (by decide +kernel)

end SmakChess
