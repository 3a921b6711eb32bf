import SmakChess.Run

/-! What a completed ply does to the game, and the facts the machine has
checked when it completes one. -/

namespace SmakChess

/-- The board of a capture before the promotion. -/
def taken (ep : Bool) (b : Board) (x y s : Nat) : Board :=
  if ep then Function.update (moved b x s) y .emptySquare else moved b x s

section Squares

variable {b : Board} {c : Color} {x y s i : Nat}

theorem moved_source : moved b x s x = .emptySquare := Function.update_self ..

theorem moved_target (h : x ≠ s) : moved b x s s = b x := by
  rw [moved, Function.update_of_ne h.symm, Function.update_self]

theorem moved_other (hx : i ≠ x) (hs : i ≠ s) : moved b x s i = b i := by
  rw [moved, Function.update_of_ne hx, Function.update_of_ne hs]

theorem promote_other (h : i ≠ s) : promote c b s i = b i := by
  unfold promote
  split_ifs
  · exact Function.update_of_ne h ..
  · rfl

theorem promote_target_eq (h : b s ≠ .man c .pawn) : promote c b s = b := by
  simp [promote, h]

theorem promote_of_lastRank (h : lastRank c s = false) : promote c b s = b := by
  simp [promote, h]

theorem owner_promote (i : Nat) : (promote c b s i).owner = (b i).owner := by
  unfold promote
  split_ifs with h
  · by_cases hi : i = s
    · subst hi
      simp [h.1, SmakPiece.owner]
    · rw [Function.update_of_ne hi]
  · rfl

theorem promote_eq_emptySquare : promote c b s i = .emptySquare ↔ b i = .emptySquare := by
  have h := owner_promote (c := c) (b := b) (s := s) i
  cases hp : promote c b s i <;> cases hb : b i <;> simp_all [SmakPiece.owner]

theorem promote_eq_man {d : Color} {k : Kind} (hq : k ≠ .queen) (h : promote c b s i = .man d k) :
    b i = .man d k := by
  unfold promote at h
  split_ifs at h
  · by_cases hi : i = s
    · subst hi
      rw [Function.update_self] at h
      cases h
      exact absurd rfl hq
    · rwa [Function.update_of_ne hi] at h
  · exact h

end Squares

section Ply

variable {st : ChessState} {e : Event} {c : Color} {v : Wing} {k : SmakPiece} {x y s : Nat}
  {q : Ply}

theorem next_ply :
    (next st e).ply = if (plyOf st e).isSome then (st.ply + 1) % 256 else st.ply := by
  unfold next plyOf
  cases reaction st e <;> rfl

theorem active_of_plyOf (h : plyOf st e = some q) : ∃ p, active st = some (.of q.color p) := by
  unfold plyOf at h
  rcases reaction_reacts st e with ⟨-, hr⟩ | ⟨s, hs, hr⟩
  · rw [hr] at h
    cases h
  · rw [hs]
    generalize reaction st e = r at hr h
    cases hr <;> cases h <;> exact ⟨_, rfl⟩

theorem active_next_of_plyOf (h : plyOf st e = some q) :
    active (next st e) = some (.of q.color.other .base) := by
  obtain ⟨p, ha⟩ := active_of_plyOf h
  rw [active_next ha]
  unfold plyOf at h
  cases hr : reaction st e <;> rw [hr] at h <;> cases h <;> rfl

theorem stateVal_next_of_plyOf (h : plyOf st e = some q) :
    (next st e).stateVal = .of q.color.other .base ∧
      (next st e).ctx.current = some (.of q.color.other .base) := by
  rw [next_stateVal, next_current]
  unfold plyOf at h
  cases hr : reaction st e <;> rw [hr] at h <;> cases h <;> exact ⟨rfl, rfl⟩

theorem plyOf_quiet (h : plyOf st e = some (.quiet c k x s)) :
    reaction st e = .quiet c x ∧ k = st.board x ∧ s = e.pinNumber ∧ x ≠ s ∧ e.isUp = false ∧
      (active st = some (.of c .move) ∧ x = st.x ∨
        active st = some (.of c .castling) ∧ x = kingStartingsquare c) := by
  unfold plyOf at h
  rcases reaction_reacts st e with ⟨-, hr⟩ | ⟨u, hu, hr⟩
  · rw [hr] at h
    cases h
  · rw [hu]
    generalize reaction st e = r at hr h
    cases hr with
    | quiet c hd hx =>
      cases h
      exact ⟨rfl, rfl, rfl, hx, hd, .inl ⟨rfl, rfl⟩⟩
    | kingMoves c hd hk =>
      cases h
      exact ⟨rfl, rfl, rfl, hk, hd, .inr ⟨rfl, rfl⟩⟩
    | _ => cases h

theorem plyOf_capture (h : plyOf st e = some (.capture c k x y s)) :
    reaction st e = .capture c ∧ k = st.board st.x ∧ x = st.x ∧ y = st.y ∧ s = e.pinNumber ∧
      (y = s ∨ enPassantAt st s = true) ∧ e.isUp = false ∧ active st = some (.of c .capture) := by
  unfold plyOf at h
  rcases reaction_reacts st e with ⟨-, hr⟩ | ⟨u, hu, hr⟩
  · rw [hr] at h
    cases h
  · rw [hu]
    generalize reaction st e = r at hr h
    cases hr with
    | capture c hd hs =>
      cases h
      exact ⟨rfl, rfl, rfl, rfl, rfl, hs, hd, rfl⟩
    | _ => cases h

theorem plyOf_castle (h : plyOf st e = some (.castle c v)) :
    reaction st e = .castle c v ∧ e.isUp = false ∧
      (active st = some (.of c (.kingdownRookup v)) ∧ e.pinNumber = rookCastlesquare c v ∨
        active st = some (.of c (.kingupRookdown v)) ∧ e.pinNumber = kingCastlesquare c v) := by
  unfold plyOf at h
  rcases reaction_reacts st e with ⟨-, hr⟩ | ⟨u, hu, hr⟩
  · rw [hr] at h
    cases h
  · rw [hu]
    generalize reaction st e = r at hr h
    cases hr with
    | castleRook c v hd hs =>
      cases h
      exact ⟨rfl, hd, .inl ⟨rfl, hs⟩⟩
    | castleKing c v hd hs =>
      cases h
      exact ⟨rfl, hd, .inr ⟨rfl, hs⟩⟩
    | _ => cases h

theorem next_of_quiet (h : plyOf st e = some (.quiet c k x s)) :
    (next st e).board = promote c (moved st.board x s) s ∧
    (next st e).right = rightsAfter c k x st.right ∧
    (next st e).enPassant = (if k = .man c .pawn then twoRanks c x s else st.enPassant) ∧
    (next st e).enPassantSquare =
      (if k = .man c .pawn then jumped c s else st.enPassantSquare) ∧
    (next st e).shellObj = ⟨0, (st.ply + 1) % 256, x, s, promote c (moved st.board x s) s s,
      .emptySquare, .normal⟩ := by
  obtain ⟨hr, rfl, rfl, hne, -, -⟩ := plyOf_quiet h
  rw [next_of_reaction hr]
  have hl : moved (sense st e).board x e.pinNumber e.pinNumber = st.board x := moved_target hne
  refine ⟨rfl, ?_, ?_, ?_, rfl⟩ <;> rw [← hl] <;> rfl

theorem next_of_capture (h : plyOf st e = some (.capture c k x y s)) :
    (next st e).board = promote c (taken (enPassantAt st s) st.board x y s) s ∧
    (next st e).right =
      rightsAfter c (taken (enPassantAt st s) st.board x y s s) x st.right ∧
    (next st e).enPassant = false ∧
    (next st e).enPassantSquare = st.enPassantSquare ∧
    (next st e).shellObj = ⟨0, (st.ply + 1) % 256, x, s,
      promote c (taken (enPassantAt st s) st.board x y s) s s, .emptySquare, .normal⟩ := by
  obtain ⟨hr, rfl, rfl, rfl, rfl, -, -, -⟩ := plyOf_capture h
  rw [next_of_reaction hr]
  exact ⟨rfl, rfl, rfl, rfl, rfl⟩

theorem next_of_castle (h : plyOf st e = some (.castle c v)) :
    (next st e).board = castled c v st.board ∧
    (next st e).right = Function.update st.right c (fun _ => false) ∧
    (next st e).enPassant = false ∧
    (next st e).enPassantSquare = st.enPassantSquare ∧
    (next st e).shellObj = ⟨0, (st.ply + 1) % 256, kingStartingsquare c,
      if c = .white then rookStartingsquare c v else rookCastlesquare c v, .man c .king,
      .man c .rook, .castling⟩ := by
  obtain ⟨hr, -, -⟩ := plyOf_castle h
  rw [next_of_reaction hr]
  cases c <;> exact ⟨rfl, rfl, rfl, rfl, rfl⟩

end Ply

end SmakChess
