import SmakChess.Conservation
import SmakChess.LiftOrder

/-! Promotion: where a piece changes its kind, over all runs. -/

namespace SmakChess

open Machine

/-- The square a single piece is put on. -/
def Ply.landing : Ply → Option Nat
  | .quiet _ _ _ s | .capture _ _ _ _ s => some s
  | .castle _ _ => none

/-- Where the piece on `i` stood before the ply. -/
def Ply.origin : Ply → Nat → Nat
  | .quiet _ _ x s, i | .capture _ _ x _ s, i => if i = s then x else i
  | .castle c v, i =>
    if i = kingCastlesquare c v then kingStartingsquare c
    else if i = rookCastlesquare c v then rookStartingsquare c v
    else i

/-- A pawn of the moving side lands on `i`, on its last rank. -/
def Ply.Promotes (b : Board) (q : Ply) (i : Nat) : Prop :=
  q.landing = some i ∧ b (q.origin i) = .man q.color .pawn ∧ lastRank q.color i = true

/-- Every piece of `b'` is of the kind it had on `b`, but for a pawn on its last
rank, which is a queen. -/
structure KeepsKinds (b : Board) (q : Ply) (b' : Board) : Prop where
  promoted : ∀ i, q.Promotes b i → b' i = .man q.color .queen
  kept : ∀ i, ¬ q.Promotes b i → b' i ≠ .emptySquare → b' i = b (q.origin i)

def NoPawnLeft (b : Board) : Prop :=
  ∀ c s, s < 64 → lastRank c s = true → b s ≠ .man c .pawn

section Board

variable {st : ChessState} {e : Event} {b b' : Board} {c : Color} {v : Wing} {k : SmakPiece}
  {x y s i : Nat} {q : Ply}

theorem promote_self : promote c b s s =
    if b s = .man c .pawn ∧ lastRank c s = true then .man c .queen else b s := by
  unfold promote
  split_ifs
  · exact Function.update_self ..
  · rfl

/-- The board of a single piece's ply before the promotion, where `b'` has the
piece of `x` on `s` or lost it on the way. -/
theorem keepsKinds_promote (hl : q.landing = some s) (ho : ∀ i, q.origin i = if i = s then x else i)
    (hs : b' s = b x ∨ b' s = .emptySquare ∧ lastRank q.color s = false)
    (hi : ∀ i, i ≠ s → b' i ≠ .emptySquare → b' i = b i) :
    KeepsKinds b q (promote q.color b' s) where
  promoted i hp := by
    obtain ⟨hland, hpawn, hrank⟩ := hp
    obtain rfl : s = i := Option.some.inj (hl.symm.trans hland)
    rw [ho, if_pos rfl] at hpawn
    rcases hs with hs | ⟨-, hs⟩
    · rw [promote_self, if_pos ⟨hs.trans hpawn, hrank⟩]
    · rw [hs] at hrank
      cases hrank
  kept i hn hne := by
    rw [ho]
    by_cases his : i = s
    · subst his
      rw [if_pos rfl]
      rcases hs with hs | ⟨hs, -⟩
      · have hno : ¬ (b' i = .man q.color .pawn ∧ lastRank q.color i = true) := by
          rintro ⟨hpawn, hrank⟩
          exact hn ⟨hl, by rw [ho, if_pos rfl, ← hs, hpawn], hrank⟩
        rw [promote_self, if_neg hno, hs]
      · exact absurd (promote_eq_emptySquare.mpr hs) hne
    · rw [if_neg his, promote_other his]
      rw [promote_other his] at hne
      exact hi i his hne

theorem keepsKinds_quiet (hq : plyOf st e = some (.quiet c k x s)) :
    KeepsKinds st.board (.quiet c k x s) (next st e).board := by
  obtain ⟨hb, -⟩ := next_of_quiet hq
  obtain ⟨-, -, -, hxs, -⟩ := plyOf_quiet hq
  rw [hb]
  refine keepsKinds_promote rfl (fun i => rfl) (.inl (moved_target hxs)) fun i his hne => ?_
  by_cases hix : i = x
  · subst hix
    exact absurd moved_source hne
  · exact moved_other hix his

theorem keepsKinds_capture (h : Held st) (hq : plyOf st e = some (.capture c k x y s)) :
    KeepsKinds st.board (.capture c k x y s) (next st e).board := by
  obtain ⟨hb, -⟩ := next_of_capture hq
  obtain ⟨-, -, hxy⟩ := h.owner_capture hq
  obtain ⟨-, -, -, -, -, hs, -, -⟩ := plyOf_capture hq
  rw [hb]
  refine keepsKinds_promote rfl (fun i => rfl) ?_ fun i his hne => ?_
  · by_cases her : erases st x y s
    · obtain ⟨hflag, hsq⟩ : st.enPassant = true ∧ st.enPassantSquare = s := by
        simpa [enPassantAt] using her.1
      exact .inr ⟨taken_erased hxy her, lastRank_of_bounds (hsq ▸ h.square hflag)⟩
    · exact .inl (taken_target hxy hs her)
  · cases hb' : taken (enPassantAt st s) st.board x y s i with
    | emptySquare => exact absurd hb' hne
    | man d l =>
      rcases moved_eq_man (taken_eq_man hb') with hbi | ⟨hi, -⟩
      · exact hbi.symm
      · exact absurd hi his

theorem keepsKinds_castle (h : Held st) (hq : plyOf st e = some (.castle c v)) :
    KeepsKinds st.board (.castle c v) (next st e).board := by
  obtain ⟨hb, -⟩ := next_of_castle hq
  obtain ⟨hking, hrook⟩ := h.home_castle hq
  rw [hb]
  refine ⟨fun i hp => absurd hp.1 (by simp [Ply.landing]), fun i _ hne => ?_⟩
  have hc := castledBoard_castled (c := c) (v := v) (b := st.board)
  simp only [Ply.origin]
  split_ifs with hk hr
  · rw [hk, hc.king, hking]
  · rw [hr, hc.rook, hrook]
  · refine hc.other i hk hr ?_ ?_
    · rintro rfl
      exact hne hc.kingGone
    · rintro rfl
      exact hne hc.rookGone

theorem keepsKinds_next (h : Held st) (hq : plyOf st e = some q) :
    KeepsKinds st.board q (next st e).board := by
  cases q with
  | quiet c k x s => exact keepsKinds_quiet hq
  | capture c k x y s => exact keepsKinds_capture h hq
  | castle c v => exact keepsKinds_castle h hq

theorem owner_landing (h : Held st) (hq : plyOf st e = some q) (hl : q.landing = some i) :
    (st.board (q.origin i)).owner = some q.color := by
  cases q with
  | quiet c k x s =>
    obtain rfl : s = i := Option.some.inj hl
    obtain ⟨-, hk, -⟩ := plyOf_quiet hq
    simpa only [Ply.origin, Ply.color, if_true, ← hk] using h.owner_quiet hq
  | capture c k x y s =>
    obtain rfl : s = i := Option.some.inj hl
    obtain ⟨-, hk, hx, -⟩ := plyOf_capture hq
    simpa only [Ply.origin, Ply.color, if_true, hx, ← hk] using (h.owner_capture hq).1
  | castle c v => cases hl

theorem origin_of_not_landing (h : Held st) (hq : plyOf st e = some q) (hl : q.landing ≠ some i)
    (hp : st.board (q.origin i) = .man c .pawn) : q.origin i = i := by
  cases q with
  | quiet d k x s => exact if_neg fun hi => hl (congrArg some hi.symm)
  | capture d k x y s => exact if_neg fun hi => hl (congrArg some hi.symm)
  | castle d v =>
    obtain ⟨hking, hrook⟩ := h.home_castle hq
    simp only [Ply.origin] at hp ⊢
    split_ifs at hp ⊢
    · rw [hking] at hp
      cases hp
    · rw [hrook] at hp
      cases hp
    · rfl

theorem noPawnLeft_next (h : Held st) (hb : NoPawnLeft st.board) : NoPawnLeft (next st e).board := by
  intro c i hi hrank hpawn
  cases hq : plyOf st e with
  | none =>
    rw [(next_frame hq).board] at hpawn
    exact hb c i hi hrank hpawn
  | some q =>
    have hk := keepsKinds_next h hq
    by_cases hp : q.Promotes st.board i
    · rw [hk.promoted i hp] at hpawn
      cases hpawn
    · have hold : st.board (q.origin i) = .man c .pawn := by
        rw [← hk.kept i hp (by rw [hpawn]; simp), hpawn]
      by_cases hl : q.landing = some i
      · have ho := owner_landing h hq hl
        rw [hold] at ho
        obtain rfl := eq_of_owner ho
        exact hp ⟨hl, hold, hrank⟩
      · rw [origin_of_not_landing h hq hl hold] at hold
        exact hb c i hi hrank hold

theorem noPawnLeft_startingBoard : NoPawnLeft startingBoard := by
  have hall : ∀ s < 64, ∀ c, lastRank c s = true → startingBoard s ≠ .man c .pawn := by
    intro s hs c
    cases c <;> revert s <;> decide
  exact fun c s hs => hall s hs c

end Board

/-- No pawn is ever left on its last rank, and a completed ply changes the kind
of no piece but a pawn of the moving side that lands there. -/
theorem promotion_never_missed (st₀ : ChessState) (es : List Event) :
    Always step (fun _ t => (∀ s, s ≤ 7 → t.board s ≠ pWhitePawn) ∧
        ∀ s, 56 ≤ s → s ≤ 63 → t.board s ≠ pBlackPawn) (resetFsm st₀) es ∧
      Throughout step (fun t e => ∀ u q, step t e = .ok u → plyOf t e = some q →
        KeepsKinds t.board q u.board) (resetFsm st₀) es := by
  have hinv : Always step (fun _ t => NoPawnLeft t.board) (resetFsm st₀) es :=
    always_of_next noPawnLeft_startingBoard fun _ _ _ ht _ hi => noPawnLeft_next (held_of_run ht) hi
  refine ⟨fun p t hp ht => ⟨fun s hs => ?_, fun s hs hs' => ?_⟩, ?_⟩
  · exact hinv p t hp ht .white s (by omega) (decide_eq_true (by omega))
  · exact hinv p t hp ht .black s (by omega) (decide_eq_true (by omega))
  · intro p e t t' _ ht _ u q hu hq
    obtain ⟨-, rfl⟩ := step_eq_ok (wellFormed_of_run ht) hu
    exact keepsKinds_next (held_of_run ht) hq

end SmakChess
