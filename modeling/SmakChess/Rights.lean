import SmakChess.Held

/-! The castling rights against the plies of the run. -/

namespace SmakChess

open Machine

def Ply.displaces (c : Color) (v : Wing) : Ply → Prop
  | .quiet d k x s | .capture d k x _ s =>
    d = c ∧ x ≠ s ∧ (k = .man c .king ∧ x = kingStartingsquare c ∨
      k = .man c .rook ∧ x = rookStartingsquare c v)
  | .castle d _ => d = c

/-- The put-down on the en-passant square empties it again, because it is also
the victim's square or the attacker's. -/
def erases (st : ChessState) (x y s : Nat) : Prop :=
  enPassantAt st s = true ∧ (s = y ∨ s = x)

/-- A ply by a rook finds both rights of its side lost. A piece that a capture
erases does not take a right with it. -/
def FindsRightsLost (st : ChessState) : Ply → Prop
  | .quiet c k _ _ => k = .man c .rook → ∀ v, st.right c v = false
  | .capture c k x y s =>
    (¬ erases st x y s → k = .man c .rook → ∀ v, st.right c v = false) ∧
      (erases st x y s → ∀ v, (Ply.capture c k x y s).displaces c v → st.right c v = false)
  | .castle _ _ => True

section Step

variable {st : ChessState} {e : Event} {c d : Color} {v : Wing} {k l : SmakPiece} {x y s : Nat}
  {q : Ply} {right : Color → Wing → Bool}

theorem rightsAfter_other (hd : d ≠ c) : rightsAfter c l x right d = right d := by
  unfold rightsAfter
  split_ifs <;> first | exact Function.update_of_ne hd .. | rfl

theorem rightsAfter_king : rightsAfter c (.man c .king) x right c v = false := by
  simp [rightsAfter]

theorem rightsAfter_rook :
    rightsAfter c (.man c .rook) x right c v = (right c v && x == rookStartingsquare c v) := by
  simp [rightsAfter]

theorem rightsAfter_none (hk : l ≠ .man c .king) (hr : l ≠ .man c .rook) :
    rightsAfter c l x right = right := by
  simp [rightsAfter, hk, hr]

theorem taken_erased (hxy : x ≠ y) (h : erases st x y s) :
    taken (enPassantAt st s) st.board x y s s = .emptySquare := by
  obtain ⟨he, rfl | rfl⟩ := h
  · rw [taken, if_pos he, Function.update_self]
  · rw [taken, if_pos he, Function.update_of_ne hxy, moved_source]

theorem taken_target (hxy : x ≠ y) (hs : y = s ∨ enPassantAt st s = true)
    (h : ¬ erases st x y s) : taken (enPassantAt st s) st.board x y s s = st.board x := by
  by_cases he : enPassantAt st s = true
  · obtain ⟨hy, hx⟩ : s ≠ y ∧ s ≠ x := by simpa [erases, he] using h
    rw [taken, if_pos he, Function.update_of_ne hy, moved_target hx.symm]
  · obtain rfl : y = s := by simpa [he] using hs
    rw [taken, if_neg he, moved_target hxy]

def RulesLeave (st : ChessState) (q : Ply) (right : Color → Wing → Bool) : Prop :=
  ∀ d v, right d v = true ↔ st.right d v = true ∧ ¬ q.displaces d v

theorem Held.right_king (h : Held st) (hk : st.board x = .man c .king)
    (hx : x ≠ kingStartingsquare c) : st.right c v = false := by
  by_contra hr
  exact hx (h.kingHome c v (by simpa using hr) x hk)

theorem rulesLeave_landed (h : Held st) (hd : ∀ d v, q.displaces d v ↔ d = c ∧
      (k = .man c .king ∧ x = kingStartingsquare c ∨ k = .man c .rook ∧ x = rookStartingsquare c v))
    (hk : k = st.board x) :
    RulesLeave st q (rightsAfter c k x st.right) ↔
      (k = .man c .rook → ∀ v, st.right c v = false) := by
  constructor
  · intro hrules hr v
    have hv := hrules c v
    rw [hd, hr, rightsAfter_rook] at hv
    by_contra hn
    simp [Bool.not_eq_false _ ▸ hn] at hv
  · intro hr d v
    rw [hd]
    by_cases hdc : d = c
    · subst hdc
      by_cases hking : k = .man d .king
      · rw [hking, rightsAfter_king]
        by_cases hx : x = kingStartingsquare d
        · simp [hx]
        · simp [hx, h.right_king (v := v) (hk ▸ hking) hx]
      · by_cases hrook : k = .man d .rook
        · rw [hrook, rightsAfter_rook, hr hrook v]
          simp
        · rw [rightsAfter_none hking hrook]
          simp [hking, hrook]
    · rw [rightsAfter_other hdc]
      simp [hdc]

theorem rulesLeave_next (h : Held st) (hq : plyOf st e = some q) :
    RulesLeave st q (next st e).right ↔ FindsRightsLost st q := by
  cases q with
  | quiet c k x s =>
    obtain ⟨-, hright, -⟩ := next_of_quiet hq
    obtain ⟨-, hk, -, hxs, -⟩ := plyOf_quiet hq
    rw [hright]
    refine rulesLeave_landed h (fun d v => ?_) hk
    exact ⟨fun hm => ⟨hm.1.symm, hm.1 ▸ hm.2.2⟩, fun hm => ⟨hm.1.symm, hxs, hm.1 ▸ hm.2⟩⟩
  | capture c k x y s =>
    obtain ⟨-, hright, -⟩ := next_of_capture hq
    obtain ⟨-, hk, hx, -, -, hs, -, -⟩ := plyOf_capture hq
    obtain ⟨-, -, hxy⟩ := h.owner_capture hq
    rw [← hx] at hk
    rw [hright]
    by_cases he : erases st x y s
    · rw [taken_erased hxy he, rightsAfter_none (by simp) (by simp)]
      simp only [FindsRightsLost, he, not_true_eq_false, false_implies, true_implies, true_and]
      constructor
      · intro hrules v hdis
        have hv := hrules c v
        simpa [hdis] using hv
      · intro hlost d v
        constructor
        · intro hr
          refine ⟨hr, fun hdis => ?_⟩
          obtain rfl : c = d := hdis.1
          rw [hlost v hdis] at hr
          cases hr
        · exact fun hr => hr.1
    · have hxs : x ≠ s := by
        rintro rfl
        rcases hs with hs | hs
        exacts [hxy hs.symm, he ⟨hs, .inr rfl⟩]
      rw [taken_target hxy hs he, ← hk]
      simp only [FindsRightsLost, he, not_false_eq_true, false_implies, true_implies, and_true]
      refine rulesLeave_landed h (fun d v => ?_) hk
      exact ⟨fun hm => ⟨hm.1.symm, hm.1 ▸ hm.2.2⟩, fun hm => ⟨hm.1.symm, hxs, hm.1 ▸ hm.2⟩⟩
  | castle c v =>
    obtain ⟨-, hright, -⟩ := next_of_castle hq
    simp only [FindsRightsLost, iff_true]
    intro d w
    rw [hright]
    by_cases hd : d = c
    · subst hd
      simp [Ply.displaces]
    · have hcd : ¬ c = d := fun hc => hd hc.symm
      simp [Function.update_of_ne hd, Ply.displaces, hcd]

end Step

def RightsOfPlies (ps : List Ply) (st : ChessState) : Prop :=
  ∀ c v, st.right c v = true ↔ ∀ q ∈ ps, ¬ q.displaces c v

theorem rightsOfPlies_concat {ps : List Ply} {q : Ply} {st t : ChessState}
    (h : RightsOfPlies ps st) : RightsOfPlies (ps ++ [q]) t ↔ RulesLeave st q t.right := by
  have hand (c : Color) (v : Wing) : (∀ r ∈ ps ++ [q], ¬ r.displaces c v) ↔
      st.right c v = true ∧ ¬ q.displaces c v := by
    rw [h c v]
    simp [or_imp, forall_and]
  simp only [RightsOfPlies, RulesLeave, hand]

/-- In every state of a run a castling right is set exactly if no completed ply
has displaced its king or rook, exactly when every ply of the run meets
`FindsRightsLost`. -/
theorem rights_iff_findsRightsLost (st₀ : ChessState) (es : List Event) :
    Always step (fun p t => RightsOfPlies (plies (resetFsm st₀) p) t) (resetFsm st₀) es ↔
      Throughout step (fun t e => ∀ q, plyOf t e = some q → FindsRightsLost t q)
        (resetFsm st₀) es := by
  refine always_iff_of_next ?_ (fun _ _ _ hi => hi) ?_ ?_
  · intro c v
    exact iff_of_true rfl fun q hq => absurd hq (List.not_mem_nil)
  · intro p e t _ ht hp hi hc
    rw [plies_concat ht hp]
    cases hq : plyOf t e with
    | none =>
      obtain ⟨-, hright, -⟩ := next_frame hq
      rw [Option.toList_none, List.append_nil, RightsOfPlies, hright]
      exact hi
    | some q =>
      rw [Option.toList_some, rightsOfPlies_concat hi, rulesLeave_next (held_of_run ht) hq]
      exact hc q hq
  · intro p e t _ ht hp hi hc hP
    simp only [not_forall] at hc
    obtain ⟨q, hq, hn⟩ := hc
    rw [plies_concat ht hp, hq, Option.toList_some, rightsOfPlies_concat hi,
      rulesLeave_next (held_of_run ht) hq] at hP
    exact hn hP

/-- White plays a2-a4 and, after a7-a6, the rook from a1 to a3: the right of the
other wing is lost. -/
theorem rook_loses_other_right :
    ¬ Always step (fun p t => RightsOfPlies (plies (resetFsm powerOn) p) t) (resetFsm powerOn)
      [lift 48, put 32, lift 8, put 16, lift 56, put 40] := by
  intro h
  have hr := run_eq_foldl [lift 48, put 32, lift 8, put 16, lift 56, put 40]
    (wellFormed_resetFsm powerOn) (by decide)
  have hp : plies (resetFsm powerOn) [lift 48, put 32, lift 8, put 16, lift 56, put 40] =
      [.quiet .white (.man .white .pawn) 48 32, .quiet .black (.man .black .pawn) 8 16,
        .quiet .white (.man .white .rook) 56 40] := by decide +kernel
  have hk := (h _ _ (List.prefix_refl _) hr .white .kingside).mpr
  rw [hp] at hk
  have hnone : ∀ q ∈ [Ply.quiet .white (.man .white .pawn) 48 32,
      .quiet .black (.man .black .pawn) 8 16, .quiet .white (.man .white .rook) 56 40],
      ¬ q.displaces .white .kingside := by
    simp [Ply.displaces, rookStartingsquare]
  exact absurd (hk hnone) (by decide +kernel)

end SmakChess
