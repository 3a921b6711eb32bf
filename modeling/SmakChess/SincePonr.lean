import SmakChess.LiftOrder

/-! The counter of plies since the last pawn move or capture, against the plies
of the run. -/

namespace SmakChess

open Machine

def Ply.isPonr : Ply → Bool
  | .quiet _ (.man _ .pawn) _ _ => true
  | .quiet _ _ _ _ => false
  | .capture _ _ _ _ _ => true
  | .castle _ _ => false

/-- The plies after the last pawn move or capture. -/
def sincePonr (ps : List Ply) : Nat := (ps.reverse.takeWhile fun q => !q.isPonr).length

/-- The ply is no castling, and a ply that counts finds room in the eight bits. -/
def CountsPly (st : ChessState) (q : Ply) : Prop :=
  q.isPonr = true ∨ (∀ c v, q ≠ .castle c v) ∧ st.plySincePonr < 255

section Step

variable {st : ChessState} {e : Event} {c : Color} {k : SmakPiece} {x y s : Nat} {q : Ply}
  {ps : List Ply}

theorem sincePonr_concat :
    sincePonr (ps ++ [q]) = if q.isPonr = true then 0 else sincePonr ps + 1 := by
  simp only [sincePonr, List.reverse_append, List.reverse_singleton, List.singleton_append,
    List.takeWhile_cons]
  cases q.isPonr <;> simp

theorem isPonr_quiet (ho : k.owner = some c) :
    (Ply.quiet c k x s).isPonr = true ↔ k = .man c .pawn := by
  cases k with
  | emptySquare => cases ho
  | man d k =>
    obtain rfl := eq_of_owner ho
    cases k <;> simp [Ply.isPonr]

theorem plySincePonr_quiet (h : plyOf st e = some (.quiet c k x s)) :
    (next st e).plySincePonr = if k = .man c .pawn then 0 else (st.plySincePonr + 1) % 256 := by
  obtain ⟨hr, rfl, rfl, hne, -, -⟩ := plyOf_quiet h
  have hl : moved (sense st e).board x e.pinNumber e.pinNumber = st.board x := moved_target hne
  rw [next_of_reaction hr, ← hl]
  rfl

theorem plySincePonr_capture (h : plyOf st e = some (.capture c k x y s)) :
    (next st e).plySincePonr = 0 := by
  rw [next_of_reaction (plyOf_capture h).1]
  rfl

theorem plySincePonr_next_iff (h : Held st) (hq : plyOf st e = some q) :
    (next st e).plySincePonr = (if q.isPonr = true then 0 else st.plySincePonr + 1) ↔
      CountsPly st q := by
  unfold CountsPly
  cases q with
  | quiet c k x s =>
    simp only [plySincePonr_quiet hq, isPonr_quiet (h.owner_quiet hq)]
    by_cases hk : k = .man c .pawn
    · simp [hk]
    · simp only [hk, if_false, false_or, ne_eq, reduceCtorEq, not_false_eq_true, implies_true,
        true_and]
      omega
  | capture c k x y s => simp [plySincePonr_capture hq, Ply.isPonr]
  | castle c v => simp [plySincePonr_castle hq, Ply.isPonr]

end Step

/-- The counter holds the number of plies since the last pawn move or capture,
exactly when the run has no castling and no ply that counts is made with the
counter at 255. -/
theorem plySincePonr_iff_countsPly (st₀ : ChessState) (es : List Event) :
    Always step (fun p t => t.plySincePonr = sincePonr (plies (resetFsm st₀) p))
        (resetFsm st₀) es ↔
      Throughout step (fun t e => ∀ q, plyOf t e = some q → CountsPly t q)
        (resetFsm st₀) es := by
  refine always_iff_of_next rfl (fun _ _ _ hi => hi) ?_ ?_
  · intro p e t _ ht hp hi hc
    rw [plies_concat ht hp]
    cases hq : plyOf t e with
    | none => rw [(next_frame hq).plySincePonr, hi, Option.toList_none, List.append_nil]
    | some q =>
      rw [Option.toList_some, sincePonr_concat, ← hi]
      exact (plySincePonr_next_iff (held_of_run ht) hq).mpr (hc q hq)
  · intro p e t _ ht hp hi hc hP
    simp only [not_forall] at hc
    obtain ⟨q, hq, hn⟩ := hc
    rw [plies_concat ht hp, hq, Option.toList_some, sincePonr_concat, ← hi] at hP
    exact hn ((plySincePonr_next_iff (held_of_run ht) hq).mp hP)

/-- 1. Nf3 Nf6 2. g3 g6 3. Bg2 Bg7 4. O-O -/
def castlingGame : List Event :=
  [lift 62, put 45, lift 6, put 21, lift 54, put 46, lift 14, put 22, lift 61, put 54,
    lift 5, put 14] ++ Performance.castles .white .kingside .krkr

theorem castling_leaves_plySincePonr : ¬ Always step
    (fun p t => t.plySincePonr = sincePonr (plies (resetFsm powerOn) p))
    (resetFsm powerOn) castlingGame := by
  intro h
  have hr := run_eq_foldl castlingGame (wellFormed_resetFsm powerOn) (by decide)
  have hcount := h _ _ (List.prefix_refl _) hr
  exact absurd hcount (by decide +kernel)

end SmakChess
