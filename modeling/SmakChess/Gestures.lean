import SmakChess.Effects

/-! The lifts and put-downs by which a ply is performed from a base state, and
the game after them. -/

namespace SmakChess

/-- `es` completes the ply `q` with its last event, and no ply before. -/
inductive Completes : ChessState → List Event → Ply → Prop
  | last {st : ChessState} {e : Event} {q : Ply} (h : plyOf st e = some q) : Completes st [e] q
  | cons {st : ChessState} {e : Event} {es : List Event} {q : Ply} (hn : plyOf st e = none)
      (h : Completes (next st e) es q) : Completes st (e :: es) q

section Game

variable {st : ChessState} {es : List Event} {c : Color} {v : Wing} {k : SmakPiece} {x y s : Nat}
  {q : Ply}

theorem Completes.state (h : Completes st es q) :
    active (es.foldl next st) = some (.of q.color.other .base) ∧
    (es.foldl next st).stateVal = .of q.color.other .base ∧
    (es.foldl next st).ctx.current = some (.of q.color.other .base) := by
  induction h with
  | last h => exact ⟨active_next_of_plyOf h, stateVal_next_of_plyOf h⟩
  | cons _ _ ih => exact ih

theorem Completes.ply (h : Completes st es q) :
    (es.foldl next st).ply = (st.ply + 1) % 256 := by
  induction h with
  | last h => simp [next_ply, h]
  | cons hn _ ih => rw [List.foldl_cons, ih, (next_frame hn).ply]

theorem Completes.exists_plyOf (h : Completes st es q) :
    ∃ t e, SameGame st t ∧ plyOf t e = some q ∧ es.foldl next st = next t e := by
  induction h with
  | last h => exact ⟨_, _, .refl _, h, rfl⟩
  | cons hn _ ih =>
    obtain ⟨t, e, hsame, hq, ht⟩ := ih
    exact ⟨t, e, (next_frame hn).trans hsame, hq, ht⟩

theorem enPassantAt_congr {t : ChessState} (h : SameGame st t) :
    enPassantAt t s = enPassantAt st s := by
  simp only [enPassantAt, h.enPassant, h.enPassantSquare]

theorem Completes.quiet (h : Completes st es (.quiet c k x s)) :
    (es.foldl next st).board = promote c (moved st.board x s) s ∧
    (es.foldl next st).right = rightsAfter c k x st.right ∧
    (es.foldl next st).enPassant =
      (if k = .man c .pawn then twoRanks c x s else st.enPassant) ∧
    (es.foldl next st).enPassantSquare =
      (if k = .man c .pawn then jumped c s else st.enPassantSquare) := by
  obtain ⟨t, e, hsame, hq, ht⟩ := h.exists_plyOf
  obtain ⟨hb, hr, hep, hsq, -⟩ := next_of_quiet hq
  rw [ht, hb, hr, hep, hsq, hsame.board, hsame.right, hsame.enPassant, hsame.enPassantSquare]
  exact ⟨rfl, rfl, rfl, rfl⟩

theorem Completes.capture (h : Completes st es (.capture c k x y s)) :
    (es.foldl next st).board = promote c (taken (enPassantAt st s) st.board x y s) s ∧
    (es.foldl next st).right =
      rightsAfter c (taken (enPassantAt st s) st.board x y s s) x st.right ∧
    (es.foldl next st).enPassant = false := by
  obtain ⟨t, e, hsame, hq, ht⟩ := h.exists_plyOf
  obtain ⟨hb, hr, hep, -⟩ := next_of_capture hq
  rw [ht, hb, hr, hep, hsame.board, hsame.right, enPassantAt_congr hsame]
  exact ⟨rfl, rfl, rfl⟩

theorem Completes.castle (h : Completes st es (.castle c v)) :
    (es.foldl next st).board = castled c v st.board ∧
    (es.foldl next st).right = Function.update st.right c (fun _ => false) ∧
    (es.foldl next st).enPassant = false := by
  obtain ⟨t, e, hsame, hq, ht⟩ := h.exists_plyOf
  obtain ⟨hb, hr, hep, -⟩ := next_of_castle hq
  rw [ht, hb, hr, hep, hsame.board, hsame.right]
  exact ⟨rfl, rfl, rfl⟩

end Game

/-! The first events of a ply. -/

section Events

variable {st : ChessState} {e : Event} {c : Color} {v : Wing} {k l : Kind} {x y s : Nat}
  {t : States}

theorem next_of_enter (ha : active st = some t) {u : States}
    (h : stateReaction t st e = .enter u x y) :
    plyOf st e = none ∧ active (next st e) = some u ∧ (next st e).x = x ∧ (next st e).y = y := by
  have hr := (reaction_eq_stateReaction ha).trans h
  refine ⟨by rw [plyOf, hr], ?_, ?_, ?_⟩
  · rw [active_next ha, hr]
    rfl
  · rw [next_x, hr]
  · rw [next_y, hr]

theorem ctx_of_enter (ha : active st = some t) {u : States}
    (h : stateReaction t st e = .enter u x y) :
    (next st e).stateVal = u ∧ (next st e).ctx = ⟨some u, false⟩ := by
  have hr := (reaction_eq_stateReaction ha).trans h
  obtain ⟨hterm, -⟩ := active_eq_some.mp ha
  have hcurrent := @next_current st e
  have hterminate := @next_terminate st e
  rw [hr] at hcurrent
  rw [hr, hterm] at hterminate
  constructor
  · rw [next_stateVal, hr]
    rfl
  · cases hctx : (next st e).ctx with
    | mk current terminate =>
      rw [hctx] at hcurrent hterminate
      obtain rfl : current = some u := hcurrent
      obtain rfl : terminate = false := hterminate
      rfl

theorem lift_own (hb : st.board x = .man c k) (hm : mayCastle st c x = false) :
    stateReaction (.of c .base) st (lift x) = .enter (.of c .move) x st.y := by
  simp [stateReaction, baseReaction, hb, hm, SmakPiece.owner]

theorem lift_king (hm : mayCastle st c x = true) :
    stateReaction (.of c .base) st (lift x) = .enter (.of c .castling) st.x st.y := by
  have hb := (mayCastle_eq_true.mp hm).1
  simp [stateReaction, baseReaction, hb, hm]

theorem lift_enemy (hb : st.board y = .man c.other l) :
    stateReaction (.of c .base) st (lift y) = .enter (.of c .enemyCapture) st.x y := by
  have hne : c.other ≠ c := by cases c <;> decide
  have hm : mayCastle st c y = false := by
    simp [mayCastle, hb, hne]
  simp [stateReaction, baseReaction, hb, hm, SmakPiece.owner, hne]

theorem lift_victim (hb : st.board y = .man c.other l) :
    stateReaction (.of c .move) st (lift y) = .enter (.of c .capture) st.x y := by
  simp [stateReaction, moveReaction, hb, SmakPiece.owner]

theorem lift_attacker (hb : st.board x = .man c k) :
    stateReaction (.of c .enemyCapture) st (lift x) = .enter (.of c .capture) x st.y := by
  simp [stateReaction, enemyCaptureReaction, hb, SmakPiece.owner]

theorem lift_victim_king (hb : st.board y = .man c.other l) :
    stateReaction (.of c .castling) st (lift y) =
      .enter (.of c .capture) (kingStartingsquare c) y := by
  have hne : c.other ≠ c := by cases c <;> decide
  simp [stateReaction, castlingReaction, hb, SmakPiece.owner, hne]

theorem lift_rook (hb : st.board (rookStartingsquare c v) = .man c .rook)
    (hr : st.right c v = true) :
    stateReaction (.of c .castling) st (lift (rookStartingsquare c v)) =
      .enter (.of c (.kingupRookup v)) st.x st.y := by
  have hne : rookStartingsquare c .queenside ≠ rookStartingsquare c .kingside := by
    cases c <;> decide
  cases v <;> simp [stateReaction, castlingReaction, hb, hr, SmakPiece.owner, hne]

theorem put_king (hr : st.right c v = true) :
    stateReaction (.of c .castling) st (put (kingCastlesquare c v)) =
      .enter (.of c (.kingdown v)) st.x st.y := by
  have hk : kingCastlesquare c v ≠ kingStartingsquare c := by cases c <;> cases v <;> decide
  have hne : kingCastlesquare c .queenside ≠ kingCastlesquare c .kingside := by
    cases c <;> decide
  cases v <;> simp [stateReaction, castlingReaction, hr, hk, hne]

theorem lift_rook_last (hb : st.board (rookStartingsquare c v) = .man c .rook) :
    stateReaction (.of c (.kingdown v)) st (lift (rookStartingsquare c v)) =
      .enter (.of c (.kingdownRookup v)) st.x st.y := by
  simp [stateReaction, kingdownReaction, hb]

theorem put_king_next : stateReaction (.of c (.kingupRookup v)) st (put (kingCastlesquare c v)) =
    .enter (.of c (.kingdownRookup v)) st.x st.y := by
  simp [stateReaction, kingupRookupReaction]

theorem put_rook_next : stateReaction (.of c (.kingupRookup v)) st (put (rookCastlesquare c v)) =
    .enter (.of c (.kingupRookdown v)) st.x st.y := by
  have hne : rookCastlesquare c v ≠ kingCastlesquare c v := by cases c <;> cases v <;> decide
  simp [stateReaction, kingupRookupReaction, hne]

theorem plyOf_put_move (ha : active st = some (.of c .move)) (hx : st.x ≠ s) :
    plyOf st (put s) = some (.quiet c (st.board st.x) st.x s) := by
  have hr : reaction st (put s) = .quiet c st.x := by
    rw [reaction_eq_stateReaction ha]
    simp [stateReaction, moveReaction, hx]
  rw [plyOf, hr]

theorem plyOf_put_castling (ha : active st = some (.of c .castling))
    (hk : s ≠ kingStartingsquare c) (hs : ∀ v, st.right c v = true → s ≠ kingCastlesquare c v) :
    plyOf st (put s) =
      some (.quiet c (st.board (kingStartingsquare c)) (kingStartingsquare c) s) := by
  have hv (v : Wing) : ¬ (s = kingCastlesquare c v ∧ st.right c v = true) := fun h => hs v h.2 h.1
  have hr : reaction st (put s) = .quiet c (kingStartingsquare c) := by
    rw [reaction_eq_stateReaction ha]
    simp [stateReaction, castlingReaction, hk, hv]
  rw [plyOf, hr]

theorem plyOf_put_capture (ha : active st = some (.of c .capture))
    (hs : st.y = s ∨ enPassantAt st s = true) :
    plyOf st (put s) = some (.capture c (st.board st.x) st.x st.y s) := by
  have hr : reaction st (put s) = .capture c := by
    rw [reaction_eq_stateReaction ha]
    simp [stateReaction, captureReaction, hs]
  rw [plyOf, hr]

end Events

/-! The plies. -/

section Plies

variable {st : ChessState} {c : Color} {v : Wing} {k l : Kind} {x y s : Nat}

def KingHome (st : ChessState) (c : Color) (x : Nat) : Prop :=
  mayCastle st c x = true → x = kingStartingsquare c

theorem completes_quiet (ha : active st = some (.of c .base)) (hb : st.board x = .man c k)
    (hxs : x ≠ s) (hhome : KingHome st c x)
    (hs : k = .king → ∀ v, st.right c v = true → s ≠ kingCastlesquare c v) :
    Completes st [lift x, put s] (.quiet c (.man c k) x s) := by
  cases hm : mayCastle st c x with
  | false =>
    obtain ⟨hn, hact, hx, -⟩ := next_of_enter ha (lift_own hb hm)
    have hne : (next st (lift x)).x ≠ s := by rwa [hx]
    have hput := plyOf_put_move hact hne
    rw [hx, (next_frame hn).board, hb] at hput
    exact .cons hn (.last hput)
  | true =>
    obtain rfl := hhome hm
    have hking : k = .king := by
      have hk := (mayCastle_eq_true.mp hm).1
      rw [hb, SmakPiece.man.injEq] at hk
      exact hk.2
    obtain ⟨hn, hact, -, -⟩ := next_of_enter ha (lift_king hm)
    have hf := next_frame hn
    have hput := plyOf_put_castling hact hxs.symm (by rw [hf.right]; exact hs hking)
    rw [hf.board, hb] at hput
    exact .cons hn (.last hput)

/-- The attacker and the victim are in the air, and nothing else has changed. -/
structure BothUp (st t : ChessState) (c : Color) (x y : Nat) : Prop where
  game : SameGame st t
  stateVal : t.stateVal = .of c .capture
  ctx : t.ctx = ⟨some (.of c .capture), false⟩
  isStarted : t.isStarted = true
  x : t.x = x
  y : t.y = y

theorem BothUp.active_eq {t : ChessState} (h : BothUp st t c x y) :
    active t = some (.of c .capture) := by
  rw [active_eq_some, resume_of_isStarted h.isStarted, h.ctx]
  exact ⟨rfl, rfl⟩

theorem bothUp_attacker_first (ha : active st = some (.of c .base)) (hx : st.board x = .man c k)
    (hy : st.board y = .man c.other l) (hhome : KingHome st c x) :
    plyOf st (lift x) = none ∧ plyOf (next st (lift x)) (lift y) = none ∧
      BothUp st ([lift x, lift y].foldl next st) c x y := by
  cases hm : mayCastle st c x with
  | false =>
    obtain ⟨hn, hact, hxx, -⟩ := next_of_enter ha (lift_own hx hm)
    have hf := next_frame hn
    have hlift : stateReaction (.of c .move) (next st (lift x)) (lift y) = _ :=
      lift_victim (hf.board ▸ hy)
    obtain ⟨hn', -, hx', hy'⟩ := next_of_enter hact hlift
    obtain ⟨hstate, hctx⟩ := ctx_of_enter hact hlift
    exact ⟨hn, hn', hf.trans (next_frame hn'), hstate, hctx, next_isStarted, hx'.trans hxx, hy'⟩
  | true =>
    obtain rfl := hhome hm
    obtain ⟨hn, hact, -, -⟩ := next_of_enter ha (lift_king hm)
    have hf := next_frame hn
    have hlift : stateReaction (.of c .castling) (next st (lift (kingStartingsquare c)))
        (lift y) = _ := lift_victim_king (hf.board ▸ hy)
    obtain ⟨hn', -, hx', hy'⟩ := next_of_enter hact hlift
    obtain ⟨hstate, hctx⟩ := ctx_of_enter hact hlift
    exact ⟨hn, hn', hf.trans (next_frame hn'), hstate, hctx, next_isStarted, hx', hy'⟩

theorem bothUp_victim_first (ha : active st = some (.of c .base)) (hx : st.board x = .man c k)
    (hy : st.board y = .man c.other l) :
    plyOf st (lift y) = none ∧ plyOf (next st (lift y)) (lift x) = none ∧
      BothUp st ([lift y, lift x].foldl next st) c x y := by
  obtain ⟨hn, hact, -, hyy⟩ := next_of_enter ha (lift_enemy hy)
  have hf := next_frame hn
  have hlift : stateReaction (.of c .enemyCapture) (next st (lift y)) (lift x) = _ :=
    lift_attacker (hf.board ▸ hx)
  obtain ⟨hn', -, hx', hy'⟩ := next_of_enter hact hlift
  obtain ⟨hstate, hctx⟩ := ctx_of_enter hact hlift
  exact ⟨hn, hn', hf.trans (next_frame hn'), hstate, hctx, next_isStarted, hx', hy'.trans hyy⟩

/-- Once both pieces are in the air, the put-down completes the capture. -/
theorem completes_capture_last {t : ChessState} (h : BothUp st t c x y)
    (hb : st.board x = .man c k) (hs : y = s ∨ enPassantAt st s = true) :
    Completes t [put s] (.capture c (.man c k) x y s) := by
  have hs' : t.y = s ∨ enPassantAt t s = true := by rwa [h.y, enPassantAt_congr h.game]
  have hput := plyOf_put_capture h.active_eq hs'
  rw [h.x, h.y, h.game.board, hb] at hput
  exact .last hput

theorem completes_capture_attacker_first (ha : active st = some (.of c .base))
    (hb : st.board x = .man c k) (hv : st.board y = .man c.other l)
    (hs : y = s ∨ enPassantAt st s = true) (hhome : KingHome st c x) :
    Completes st [lift x, lift y, put s] (.capture c (.man c k) x y s) := by
  obtain ⟨hn, hn', hup⟩ := bothUp_attacker_first ha hb hv hhome
  exact .cons hn (.cons hn' (completes_capture_last hup hb hs))

theorem completes_capture_victim_first (ha : active st = some (.of c .base))
    (hb : st.board x = .man c k) (hv : st.board y = .man c.other l)
    (hs : y = s ∨ enPassantAt st s = true) :
    Completes st [lift y, lift x, put s] (.capture c (.man c k) x y s) := by
  obtain ⟨hn, hn', hup⟩ := bothUp_victim_first ha hb hv
  exact .cons hn (.cons hn' (completes_capture_last hup hb hs))

theorem plyOf_castle_rook (ha : active st = some (.of c (.kingdownRookup v))) :
    plyOf st (put (rookCastlesquare c v)) = some (.castle c v) := by
  have hr : reaction st (put (rookCastlesquare c v)) = .castle c v := by
    rw [reaction_eq_stateReaction ha]
    simp [stateReaction, lastDownReaction]
  rw [plyOf, hr]

theorem plyOf_castle_king (ha : active st = some (.of c (.kingupRookdown v))) :
    plyOf st (put (kingCastlesquare c v)) = some (.castle c v) := by
  have hr : reaction st (put (kingCastlesquare c v)) = .castle c v := by
    rw [reaction_eq_stateReaction ha]
    simp [stateReaction, lastDownReaction]
  rw [plyOf, hr]

section Castling

variable (ha : active st = some (.of c .base))
  (hk : st.board (kingStartingsquare c) = .man c .king)
  (hb : st.board (rookStartingsquare c v) = .man c .rook) (hr : st.right c v = true)

include ha hk hb hr

theorem completes_kkrr :
    Completes st [lift (kingStartingsquare c), put (kingCastlesquare c v),
      lift (rookStartingsquare c v), put (rookCastlesquare c v)] (.castle c v) := by
  have hm : mayCastle st c (kingStartingsquare c) = true := mayCastle_eq_true.mpr ⟨hk, v, hr⟩
  obtain ⟨hn, hact, -, -⟩ := next_of_enter ha (lift_king hm)
  have hf := next_frame hn
  have hr' : (next st (lift (kingStartingsquare c))).right c v = true := by rw [hf.right, hr]
  obtain ⟨hn', hact', -, -⟩ := next_of_enter hact (put_king hr')
  have hf' := hf.trans (next_frame hn')
  obtain ⟨hn'', hact'', -, -⟩ := next_of_enter hact' (lift_rook_last (hf'.board ▸ hb))
  exact .cons hn (.cons hn' (.cons hn'' (.last (plyOf_castle_rook hact''))))

/-- The two orders that lift the king and the rook first. -/
theorem completes_lifted {es : List Event}
    (h : ∀ t, active t = some (.of c (.kingupRookup v)) → Completes t es (.castle c v)) :
    Completes st (lift (kingStartingsquare c) :: lift (rookStartingsquare c v) :: es)
      (.castle c v) := by
  have hm : mayCastle st c (kingStartingsquare c) = true := mayCastle_eq_true.mpr ⟨hk, v, hr⟩
  obtain ⟨hn, hact, -, -⟩ := next_of_enter ha (lift_king hm)
  have hf := next_frame hn
  have hb' : (next st (lift (kingStartingsquare c))).board (rookStartingsquare c v) =
      .man c .rook := by
    rw [hf.board, hb]
  have hr' : (next st (lift (kingStartingsquare c))).right c v = true := by rw [hf.right, hr]
  obtain ⟨hn', hact', -, -⟩ := next_of_enter hact (lift_rook hb' hr')
  exact .cons hn (.cons hn' (h _ hact'))

theorem completes_krkr :
    Completes st [lift (kingStartingsquare c), lift (rookStartingsquare c v),
      put (kingCastlesquare c v), put (rookCastlesquare c v)] (.castle c v) := by
  apply completes_lifted ha hk hb hr
  intro t hact
  obtain ⟨hn, hact', -, -⟩ := next_of_enter hact put_king_next
  exact .cons hn (.last (plyOf_castle_rook hact'))

theorem completes_krrk :
    Completes st [lift (kingStartingsquare c), lift (rookStartingsquare c v),
      put (rookCastlesquare c v), put (kingCastlesquare c v)] (.castle c v) := by
  apply completes_lifted ha hk hb hr
  intro t hact
  obtain ⟨hn, hact', -, -⟩ := next_of_enter hact put_rook_next
  exact .cons hn (.last (plyOf_castle_king hact'))

end Castling

end Plies

end SmakChess
