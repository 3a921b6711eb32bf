import SmakChess.Play
import SmakChess.Reset

/-! Gestures that come to the same: a capture whichever piece is lifted first,
a castling in each of its orders, and a piece that is put back. -/

namespace SmakChess

open Machine
open Performance (castles)

/-- The base state of `c`, by either of the two records of the state. -/
def InBase (st : ChessState) (c : Color) : Prop :=
  st.stateVal = .of c .base ∨ active st = some (.of c .base)

structure SameOutcome (t u : ChessState) : Prop extends SameView t u where
  current : t.ctx.current = u.ctx.current
  enPassantSquare : t.enPassantSquare = u.enPassantSquare
  shellObj : t.shellObj = u.shellObj

section Base

variable {st₀ t : ChessState} {es : List Event} {c : Color} {p : Phase}

theorem active_of_stateVal (h : run step (resetFsm st₀) es = .ok t)
    (hs : t.stateVal = .of c p) : active t = some (.of c p) := by
  refine always_of_next (I := fun _ t => ∀ c p, t.stateVal = .of c p →
    active t = some (.of c p)) ?_ ?_ es t (List.prefix_refl es) h c p hs
  · intro c p h
    cases h
    rfl
  · intro q e t _ _ hi c p hs
    rw [next_stateVal] at hs
    rcases reaction_reacts t e with ⟨hnone, hr⟩ | ⟨s, hsome, hr⟩
    · rw [hr] at hs
      rw [hi c p hs] at hnone
      cases hnone
    · rw [active_next hsome]
      generalize reaction t e = r at hr hs
      cases hr with
      | halt =>
        rw [hi c p hs] at hsome
        cases hsome
      | ignore =>
        rw [hi c p hs] at hsome
        cases hsome
        rfl
      | derail => cases hs
      | fail => cases hs
      | _ =>
        cases hs
        rfl

theorem InBase.active_eq (h : run step (resetFsm st₀) es = .ok t) (hbase : InBase t c) :
    active t = some (.of c .base) := by
  rcases hbase with hs | ha
  · exact active_of_stateVal h hs
  · exact ha

end Base

/-! Captures. -/

section Captures

variable {st st₀ t u : ChessState} {es : List Event} {c : Color} {k l : Kind} {a b s x y : Nat}

theorem BothUp.sameOutcome (ht : BothUp st t c x y) (hu : BothUp st u c x y) :
    SameOutcome t u where
  stateVal := ht.stateVal.trans hu.stateVal.symm
  board := ht.game.board.trans hu.game.board.symm
  right := ht.game.right.trans hu.game.right.symm
  enPassant := ht.game.enPassant.trans hu.game.enPassant.symm
  ply := ht.game.ply.trans hu.game.ply.symm
  plySincePonr := ht.game.plySincePonr.trans hu.game.plySincePonr.symm
  current := by rw [ht.ctx, hu.ctx]
  enPassantSquare := ht.game.enPassantSquare.trans hu.game.enPassantSquare.symm
  shellObj := ht.game.shellObj.trans hu.game.shellObj.symm

theorem BothUp.sameFuture (ht : BothUp st t c x y) (hu : BothUp st u c x y) (hwt : WellFormed t)
    (hwu : WellFormed u) : SameFuture t u where
  toSameView := (ht.sameOutcome hu).toSameView
  wellFormed_left := hwt
  wellFormed_right := hwu
  enPassantSquare := (ht.sameOutcome hu).enPassantSquare
  x := ht.x.trans hu.x.symm
  y := ht.y.trans hu.y.symm
  resume := by rw [resume_of_isStarted ht.isStarted, resume_of_isStarted hu.isStarted, ht.ctx, hu.ctx]

theorem SameFuture.sameOutcome (h : SameFuture t u) (ht : t.isStarted = true)
    (hu : u.isStarted = true) (hm : t.shellObj = u.shellObj) : SameOutcome t u where
  toSameView := h.toSameView
  current := h.current_eq ht hu
  enPassantSquare := h.enPassantSquare
  shellObj := hm

/-- The put-down answers the same from both orders, whatever its square. -/
theorem BothUp.sameOutcome_put (ht : BothUp st t c x y) (hu : BothUp st u c x y)
    (hwt : WellFormed t) (hwu : WellFormed u) (hs : s < 64) :
    SameOutcome (next t (put s)) (next u (put s)) := by
  have hfuture := ht.sameFuture hu hwt hwu
  refine (sameFuture_next hfuture hs).sameOutcome next_isStarted next_isStarted ?_
  obtain ⟨b, m, hnext, hm⟩ := hfuture.next_eq (put s)
  cases hq : plyOf u (put s) with
  | some q =>
    rw [hq] at hm
    rw [hnext, hm rfl]
  | none =>
    have hq' := (hfuture.plyOf_eq (put s)).trans hq
    rw [(next_frame hq).shellObj, (next_frame hq').shellObj]
    exact (ht.sameOutcome hu).shellObj

/-- Whichever of the two pieces is lifted first, the board is in the same state
after the lifts, and after the put-down. -/
theorem capture_lifts_commute (h : run step (resetFsm st₀) es = .ok t) (hbase : InBase t c)
    (hown : t.board a = .man c k) (henemy : t.board b = .man c.other l)
    (ha : a < 64) (hb : b < 64) (hs : s < 64) :
    (∃ t₁ t₂, run step t [lift a, lift b] = .ok t₁ ∧ run step t [lift b, lift a] = .ok t₂ ∧
      SameOutcome t₁ t₂ ∧ t₁.x = t₂.x ∧ t₁.y = t₂.y) ∧
    ∃ u₁ u₂, run step t [lift a, lift b, put s] = .ok u₁ ∧
      run step t [lift b, lift a, put s] = .ok u₂ ∧ SameOutcome u₁ u₂ := by
  have hw := wellFormed_of_run h
  have hactive := hbase.active_eq h
  obtain ⟨-, -, hfirst⟩ := bothUp_attacker_first hactive hown henemy (held_of_run h).kingHome_base
  obtain ⟨-, -, hsecond⟩ := bothUp_victim_first hactive hown henemy
  have hlifts : ∀ e ∈ [lift a, lift b], e.pinNumber < 64 := by simp [ha, hb]
  have hlifts' : ∀ e ∈ [lift b, lift a], e.pinNumber < 64 := by simp [ha, hb]
  refine ⟨⟨_, _, run_eq_foldl _ hw hlifts, run_eq_foldl _ hw hlifts', hfirst.sameOutcome hsecond,
    hfirst.x.trans hsecond.x.symm, hfirst.y.trans hsecond.y.symm⟩, ?_⟩
  refine ⟨_, _, run_eq_foldl _ hw (by simp [ha, hb, hs]), run_eq_foldl _ hw (by simp [ha, hb, hs]), ?_⟩
  exact hfirst.sameOutcome_put hsecond (wellFormed_foldl hw hlifts) (wellFormed_foldl hw hlifts') hs

/-- White's king, which may still castle, takes on e7. -/
theorem king_capture_lifts_commute :
    (∃ t₁ t₂, run step (resetFsm powerOn) [lift 60, lift 12] = .ok t₁ ∧
      run step (resetFsm powerOn) [lift 12, lift 60] = .ok t₂ ∧
      SameOutcome t₁ t₂ ∧ t₁.x = t₂.x ∧ t₁.y = t₂.y) ∧
    ∃ u₁ u₂, run step (resetFsm powerOn) [lift 60, lift 12, put 12] = .ok u₁ ∧
      run step (resetFsm powerOn) [lift 12, lift 60, put 12] = .ok u₂ ∧ SameOutcome u₁ u₂ :=
  capture_lifts_commute (run_nil (s := resetFsm powerOn)) (.inl rfl) (k := .king) (l := .pawn)
    (c := .white) (by decide) (by decide) (by decide) (by decide) (by decide)

end Captures

/-! Castlings. -/

structure CastledBoard (c : Color) (v : Wing) (b b' : Board) : Prop where
  king : b' (kingCastlesquare c v) = .man c .king
  rook : b' (rookCastlesquare c v) = .man c .rook
  kingGone : b' (kingStartingsquare c) = .emptySquare
  rookGone : b' (rookStartingsquare c v) = .emptySquare
  other : ∀ i, i ≠ kingCastlesquare c v → i ≠ rookCastlesquare c v → i ≠ kingStartingsquare c →
    i ≠ rookStartingsquare c v → b' i = b i

section Castlings

variable {st st₀ t : ChessState} {e : Event} {es es' : List Event} {c : Color} {v : Wing} {b : Board}

theorem castledBoard_castled : CastledBoard c v b (castled c v b) where
  king := Function.update_self ..
  rook := by
    have hk : rookCastlesquare c v ≠ kingCastlesquare c v := by cases c <;> cases v <;> decide
    have hs : rookCastlesquare c v ≠ kingStartingsquare c := by cases c <;> cases v <;> decide
    rw [castled, Function.update_of_ne hk, Function.update_of_ne hs, Function.update_self]
  kingGone := by
    have hk : kingStartingsquare c ≠ kingCastlesquare c v := by cases c <;> cases v <;> decide
    rw [castled, Function.update_of_ne hk, Function.update_self]
  rookGone := by
    have hk : rookStartingsquare c v ≠ kingCastlesquare c v := by cases c <;> cases v <;> decide
    have hs : rookStartingsquare c v ≠ kingStartingsquare c := by cases c <;> cases v <;> decide
    have hr : rookStartingsquare c v ≠ rookCastlesquare c v := by cases c <;> cases v <;> decide
    rw [castled, Function.update_of_ne hk, Function.update_of_ne hs, Function.update_of_ne hr,
      Function.update_self]
  other i hk hr hks hrs := by
    rw [castled, Function.update_of_ne hk, Function.update_of_ne hks, Function.update_of_ne hr,
      Function.update_of_ne hrs]

theorem plySincePonr_castle (h : plyOf st e = some (.castle c v)) :
    (next st e).plySincePonr = st.plySincePonr := by
  rw [next_of_reaction (plyOf_castle h).1]
  cases c <;> rfl

theorem Completes.castle_rest (h : Completes st es (.castle c v)) :
    (es.foldl next st).enPassantSquare = st.enPassantSquare ∧
    (es.foldl next st).plySincePonr = st.plySincePonr ∧
    (es.foldl next st).shellObj = ⟨0, (st.ply + 1) % 256, kingStartingsquare c,
      if c = .white then rookStartingsquare c v else rookCastlesquare c v, .man c .king,
      .man c .rook, .castling⟩ := by
  obtain ⟨t, e, hsame, hq, ht⟩ := h.exists_plyOf
  obtain ⟨-, -, -, hsq, hmsg⟩ := next_of_castle hq
  rw [ht, hsq, plySincePonr_castle hq, hmsg, hsame.enPassantSquare, hsame.plySincePonr, hsame.ply]
  exact ⟨rfl, rfl, rfl⟩

theorem Completes.castle_sameOutcome (h : Completes st es (.castle c v))
    (h' : Completes st es' (.castle c v)) :
    SameOutcome (es.foldl next st) (es'.foldl next st) where
  stateVal := h.state.2.1.trans h'.state.2.1.symm
  board := h.castle.1.trans h'.castle.1.symm
  right := h.castle.2.1.trans h'.castle.2.1.symm
  enPassant := h.castle.2.2.trans h'.castle.2.2.symm
  ply := h.ply.trans h'.ply.symm
  plySincePonr := h.castle_rest.2.1.trans h'.castle_rest.2.1.symm
  current := h.state.2.2.trans h'.state.2.2.symm
  enPassantSquare := h.castle_rest.1.trans h'.castle_rest.1.symm
  shellObj := h.castle_rest.2.2.trans h'.castle_rest.2.2.symm

/-- The three orders of a castling agree, with any pieces on the other squares. -/
theorem castling_orders_agree (h : run step (resetFsm st₀) es = .ok t) (hbase : InBase t c)
    (hr : t.right c v = true) (hking : t.board (kingStartingsquare c) = .man c .king)
    (hrook : t.board (rookStartingsquare c v) = .man c .rook) :
    ∃ u₁ u₂ u₃, run step t (castles c v .krkr) = .ok u₁ ∧
      run step t (castles c v .krrk) = .ok u₂ ∧ run step t (castles c v .kkrr) = .ok u₃ ∧ SameOutcome u₁ u₂ ∧ SameOutcome u₁ u₃ ∧
      u₁.stateVal = .of c.other .base ∧ u₁.ctx.current = some (.of c.other .base) ∧
      CastledBoard c v t.board u₁.board := by
  have hw := wellFormed_of_run h
  have hactive := hbase.active_eq h
  have hkrkr := completes_krkr hactive hking hrook hr
  have hkrrk := completes_krrk hactive hking hrook hr
  have hkkrr := completes_kkrr hactive hking hrook hr
  have hpins : kingStartingsquare c < 64 ∧ rookStartingsquare c v < 64 ∧
      kingCastlesquare c v < 64 ∧ rookCastlesquare c v < 64 :=
    ⟨kingStartingsquare_lt c, rookStartingsquare_lt c v, kingCastlesquare_lt c v,
      rookCastlesquare_lt c v⟩
  have hevents (o : CastlingOrder) : ∀ e ∈ castles c v o, e.pinNumber < 64 := by
    cases o <;> simp [castles, hpins]
  refine ⟨_, _, _, run_eq_foldl _ hw (hevents _), run_eq_foldl _ hw (hevents _),
    run_eq_foldl _ hw (hevents _), hkrkr.castle_sameOutcome hkrrk,
    hkrkr.castle_sameOutcome hkkrr, hkrkr.state.2.1, hkrkr.state.2.2, ?_⟩
  have hboard : ((castles c v .krkr).foldl next t).board = castled c v t.board := hkrkr.castle.1
  rw [hboard]
  exact castledBoard_castled

/-- White castles on the queenside in the starting position, over its own pieces. -/
theorem starting_castling_orders_agree :
    ∃ u₁ u₂ u₃, run step (resetFsm powerOn) (castles .white .queenside .krkr) = .ok u₁ ∧
      run step (resetFsm powerOn) (castles .white .queenside .krrk) = .ok u₂ ∧
      run step (resetFsm powerOn) (castles .white .queenside .kkrr) = .ok u₃ ∧ SameOutcome u₁ u₂ ∧
      SameOutcome u₁ u₃ ∧ u₁.stateVal = .black ∧ u₁.ctx.current = some .black ∧
      CastledBoard .white .queenside startingBoard u₁.board :=
  castling_orders_agree (run_nil (s := resetFsm powerOn)) (.inl rfl) rfl (by decide) (by decide)

end Castlings

/-! A piece that is put back. -/

section Cancel

variable {st₀ t : ChessState} {es : List Event} {c : Color} {k : Kind} {s x y : Nat}

theorem put_back_own (hx : t.x = s) :
    stateReaction (.of c .move) t (put s) = .enter (.of c .base) t.x t.y := by
  simp [stateReaction, moveReaction, hx]

theorem put_back_enemy (hy : t.y = s) :
    stateReaction (.of c .enemyCapture) t (put s) = .enter (.of c .base) t.x t.y := by
  simp [stateReaction, enemyCaptureReaction, hy]

theorem put_back_king :
    stateReaction (.of c .castling) t (put (kingStartingsquare c)) =
      .enter (.of c .base) t.x t.y := by
  simp [stateReaction, castlingReaction]

/-- The board is back in the base state, and the game as before. -/
structure Restored (st t : ChessState) (c : Color) : Prop where
  game : SameGame st t
  stateVal : t.stateVal = .of c .base
  current : t.ctx.current = some (.of c .base)

theorem restored_of_enters {p : Phase} (hn : plyOf t (lift s) = none)
    (ha : active (next t (lift s)) = some (.of c p))
    (h : stateReaction (.of c p) (next t (lift s)) (put s) = .enter (.of c .base) x y) :
    Restored t ([lift s, put s].foldl next t) c := by
  obtain ⟨hn', -, -, -⟩ := next_of_enter ha h
  obtain ⟨hstate, hctx⟩ := ctx_of_enter ha h
  exact ⟨(next_frame hn).trans (next_frame hn'), hstate, by rw [List.foldl_cons, List.foldl_cons,
    List.foldl_nil, hctx]⟩

theorem restored_lift_put (ha : active t = some (.of c .base)) (hhome : KingHome t c s)
    (hocc : t.board s ≠ .emptySquare) : Restored t ([lift s, put s].foldl next t) c := by
  cases hb : t.board s with
  | emptySquare => exact absurd hb hocc
  | man d k =>
    by_cases hd : d = c
    · subst hd
      cases hm : mayCastle t d s with
      | false =>
        obtain ⟨hn, hact, hx, -⟩ := next_of_enter ha (lift_own hb hm)
        exact restored_of_enters hn hact (put_back_own hx)
      | true =>
        obtain rfl := hhome hm
        obtain ⟨hn, hact, -, -⟩ := next_of_enter ha (lift_king hm)
        exact restored_of_enters hn hact put_back_king
    · obtain rfl : d = c.other := by cases c <;> cases d <;> simp_all [Color.other]
      obtain ⟨hn, hact, -, hy⟩ := next_of_enter ha (lift_enemy hb)
      exact restored_of_enters hn hact (put_back_enemy hy)

/-- A piece that is lifted in a base state and put back leaves no trace. -/
theorem lift_put_restores (h : run step (resetFsm st₀) es = .ok t) (hbase : InBase t c)
    (hocc : t.board s ≠ .emptySquare) (hs : s < 64) :
    ∃ u, run step t [lift s, put s] = .ok u ∧ u.stateVal = .of c .base ∧
      u.ctx.current = some (.of c .base) ∧ SameGame t u := by
  have hr := restored_lift_put (hbase.active_eq h) (held_of_run h).kingHome_base hocc
  exact ⟨_, run_eq_foldl _ (wellFormed_of_run h) (by simp [hs]), hr.stateVal, hr.current, hr.game⟩

/-- White's king, which may still castle, is lifted and put back. -/
theorem king_lift_put_restores :
    ∃ u, run step (resetFsm powerOn) [lift 60, put 60] = .ok u ∧ u.stateVal = .white ∧
      u.ctx.current = some .white ∧ SameGame (resetFsm powerOn) u :=
  lift_put_restores (run_nil (s := resetFsm powerOn)) (.inl rfl) (by decide) (by decide)

end Cancel

end SmakChess
