import SmakChess.Gestures

/-! The invariant of all runs: the pieces that the active state takes to be off
the board are the ones the logical board has on the scratch squares. -/

namespace SmakChess

open Machine

/-- What the board shows on the squares whose pieces are in the air. -/
def InHand (st : ChessState) (c : Color) : Phase → Prop
  | .base => True
  | .move => (st.board st.x).owner = some c
  | .capture => (st.board st.x).owner = some c ∧ (st.board st.y).owner = some c.other
  | .enemyCapture => (st.board st.y).owner = some c.other
  | .castling => st.board (kingStartingsquare c) = .man c .king ∧ ∃ v, st.right c v = true
  | .kingdown v => st.board (kingStartingsquare c) = .man c .king ∧ st.right c v = true
  | .kingupRookup v | .kingdownRookup v | .kingupRookdown v =>
    st.board (kingStartingsquare c) = .man c .king ∧ st.right c v = true ∧
      st.board (rookStartingsquare c v) = .man c .rook

structure Held (st : ChessState) : Prop where
  kingHome : ∀ c v, st.right c v = true →
    ∀ s, st.board s = .man c .king → s = kingStartingsquare c
  square : st.enPassant = true → 8 ≤ st.enPassantSquare ∧ st.enPassantSquare < 56
  inHand : ∀ c p, active st = some (.of c p) → InHand st c p

section Pieces

variable {b : Board} {right : Color → Wing → Bool} {c d : Color} {v : Wing} {k : Kind}
  {l : SmakPiece} {ep : Bool} {x y s i : Nat}

theorem eq_of_owner (h : (SmakPiece.man d k).owner = some c) : d = c := Option.some.inj h

theorem ne_emptySquare_of_owner (h : l.owner = some c) : l ≠ .emptySquare := by
  rintro rfl
  cases h

theorem rightsAfter_eq_true (h : rightsAfter c l x right d v = true) :
    right d v = true ∧ (d = c → l ≠ .man c .king) := by
  unfold rightsAfter at h
  split_ifs at h with h1 h2
  · by_cases hd : d = c
    · subst hd
      simp at h
    · rw [Function.update_of_ne hd] at h
      exact ⟨h, fun hc => absurd hc hd⟩
  · by_cases hd : d = c
    · subst hd
      simp only [Function.update_self, Bool.and_eq_true] at h
      exact ⟨h.1, fun _ => h1⟩
    · rw [Function.update_of_ne hd] at h
      exact ⟨h, fun hc => absurd hc hd⟩
  · exact ⟨h, fun _ => h1⟩

theorem moved_eq_man (h : moved b x s i = .man d k) : b i = .man d k ∨ i = s ∧ b x = .man d k := by
  by_cases hx : i = x
  · subst hx
    rw [moved_source] at h
    cases h
  · by_cases hs : i = s
    · subst hs
      rw [moved_target (Ne.symm hx)] at h
      exact .inr ⟨rfl, h⟩
    · rw [moved_other hx hs] at h
      exact .inl h

theorem taken_eq_man (h : taken ep b x y s i = .man d k) : moved b x s i = .man d k := by
  unfold taken at h
  split_ifs at h
  · by_cases hy : i = y
    · subst hy
      rw [Function.update_self] at h
      cases h
    · rwa [Function.update_of_ne hy] at h
  · exact h

theorem castled_eq_king_other (hd : d ≠ c) (h : castled c v b i = .man d k) : b i = .man d k := by
  simp only [castled, Function.update_apply] at h
  split_ifs at h
  · cases h
    exact absurd rfl hd
  · cases h
    exact absurd rfl hd
  · exact h

theorem jumped_bounds (hx : x < 64) (hs : s < 64) (h : twoRanks c x s = true) :
    8 ≤ jumped c s ∧ jumped c s < 56 := by
  cases c with
  | white =>
    simp only [twoRanks, beq_iff_eq] at h
    simp only [jumped]
    omega
  | black =>
    simp only [twoRanks, beq_iff_eq] at h
    simp only [jumped]
    omega

end Pieces

section Step

variable {st : ChessState} {e : Event} {c : Color} {v : Wing} {q : Ply}

theorem Held.owner_quiet (h : Held st) {k : SmakPiece} {x s : Nat}
    (hq : plyOf st e = some (.quiet c k x s)) : k.owner = some c := by
  obtain ⟨-, rfl, -, -, -, ha | ha⟩ := plyOf_quiet hq
  · rw [ha.2]
    exact h.inHand c _ ha.1
  · rw [ha.2, (h.inHand c _ ha.1).1]
    rfl

theorem Held.owner_capture (h : Held st) {k : SmakPiece} {x y s : Nat}
    (hq : plyOf st e = some (.capture c k x y s)) :
    k.owner = some c ∧ (st.board y).owner = some c.other ∧ x ≠ y := by
  obtain ⟨-, rfl, rfl, rfl, -, -, -, ha⟩ := plyOf_capture hq
  obtain ⟨hx, hy⟩ := h.inHand c _ ha
  refine ⟨hx, hy, fun hxy => ?_⟩
  rw [hxy, hy] at hx
  cases c <;> cases hx

theorem Held.home_castle (h : Held st) (hq : plyOf st e = some (.castle c v)) :
    st.board (kingStartingsquare c) = .man c .king ∧
      st.board (rookStartingsquare c v) = .man c .rook := by
  obtain ⟨-, -, ⟨ha, -⟩ | ⟨ha, -⟩⟩ := plyOf_castle hq
  all_goals exact ⟨(h.inHand c _ ha).1, (h.inHand c _ ha).2.2⟩

theorem startingBoard_of_ge {s : Nat} (h : 64 ≤ s) : startingBoard s = .emptySquare := by
  have hn : startingBoardInitializer[s]? = none := List.getElem?_eq_none h
  rw [startingBoard, List.getD_eq_getElem?_getD, hn]
  rfl

theorem held_resetFsm (st₀ : ChessState) : Held (resetFsm st₀) where
  kingHome c _ _ s hs := by
    have hlt : s < 64 := by
      by_contra hge
      have hb : startingBoard s = .emptySquare := startingBoard_of_ge (Nat.le_of_not_lt hge)
      cases hb.symm.trans hs
    have hstart : ∀ i < 64, startingBoard i = .man c .king → i = kingStartingsquare c := by
      cases c <;> decide
    exact hstart s hlt hs
  square h := by cases h
  inHand c p h := by cases h; trivial

theorem kingHome_next (h : Held st) (hq : plyOf st e = some q) (c : Color) (v : Wing)
    (hr : (next st e).right c v = true) (s : Nat) (hs : (next st e).board s = .man c .king) :
    s = kingStartingsquare c := by
  cases q with
  | quiet d k x t =>
    obtain ⟨hb, hright, -⟩ := next_of_quiet hq
    obtain ⟨-, hk, -⟩ := plyOf_quiet hq
    rw [hright] at hr
    rw [hb] at hs
    obtain ⟨hr, hland⟩ := rightsAfter_eq_true hr
    obtain hs | ⟨-, hs⟩ := moved_eq_man (promote_eq_man (by decide) hs)
    · exact h.kingHome c v hr s hs
    · have ho := h.owner_quiet hq
      rw [hk, hs] at ho hland
      obtain rfl := eq_of_owner ho
      exact absurd rfl (hland rfl)
  | capture d k x y t =>
    obtain ⟨hb, hright, -⟩ := next_of_capture hq
    obtain ⟨-, hk, hx, -⟩ := plyOf_capture hq
    rw [hright] at hr
    rw [hb] at hs
    obtain ⟨hr, hland⟩ := rightsAfter_eq_true hr
    have ht := promote_eq_man (by decide) hs
    obtain hs | ⟨rfl, hbx⟩ := moved_eq_man (taken_eq_man ht)
    · exact h.kingHome c v hr s hs
    · have ho := (h.owner_capture hq).1
      rw [hk, ← hx, hbx] at ho
      obtain rfl := eq_of_owner ho
      exact absurd ht (hland rfl)
  | castle d w =>
    obtain ⟨hb, hright, -⟩ := next_of_castle hq
    rw [hright] at hr
    rw [hb] at hs
    by_cases hd : c = d
    · subst hd
      simp at hr
    · rw [Function.update_of_ne hd] at hr
      exact h.kingHome c v hr s (castled_eq_king_other hd hs)

theorem square_next (hw : WellFormed st) (hp : e.pinNumber < 64) (h : Held st)
    (hq : plyOf st e = some q) (he : (next st e).enPassant = true) :
    8 ≤ (next st e).enPassantSquare ∧ (next st e).enPassantSquare < 56 := by
  cases q with
  | quiet d k x t =>
    obtain ⟨-, -, hep, hsq, -⟩ := next_of_quiet hq
    obtain ⟨-, -, rfl, -, -, hx⟩ := plyOf_quiet hq
    rw [hsq]
    rw [hep] at he
    split_ifs with hk
    · rw [if_pos hk] at he
      have hlt : x < 64 := by
        rcases hx with ⟨-, rfl⟩ | ⟨-, rfl⟩
        · exact hw.x_lt
        · exact kingStartingsquare_lt d
      exact jumped_bounds hlt hp he
    · rw [if_neg hk] at he
      exact h.square he
  | capture d k x y t =>
    obtain ⟨-, -, hep, -, -⟩ := next_of_capture hq
    cases hep.symm.trans he
  | castle d w =>
    obtain ⟨-, -, hep, -, -⟩ := next_of_castle hq
    cases hep.symm.trans he

theorem inHand_next (h : Held st) (hn : plyOf st e = none) (c : Color) (p : Phase)
    (ha : active (next st e) = some (.of c p)) : InHand (next st e) c p := by
  obtain ⟨hb, hright, -⟩ := next_frame hn
  rcases reaction_reacts st e with ⟨hs, -⟩ | ⟨s, hs, hr⟩
  · rw [active_next_none hs] at ha
    cases ha
  · rw [active_next hs] at ha
    have hx := @next_x st e
    have hy := @next_y st e
    unfold plyOf at hn
    generalize reaction st e = r at hr ha hn hx hy
    cases hr with
    | liftKing c hu hm =>
      cases ha
      obtain ⟨hk, v, hv⟩ := mayCastle_eq_true.mp hm
      have hhome : e.pinNumber = kingStartingsquare c := h.kingHome c v hv _ hk
      simp only [InHand, hb, hright]
      exact ⟨hhome ▸ hk, v, hv⟩
    | liftOwn c hu ho =>
      cases ha
      simpa only [InHand, hb, hx]
    | liftEnemy c hu ho =>
      cases ha
      simpa only [InHand, hb, hy]
    | liftVictim c hu ho =>
      cases ha
      have hown : (st.board st.x).owner = some c := h.inHand c _ hs
      simpa only [InHand, hb, hx, hy] using ⟨hown, ho⟩
    | liftAttacker c hu ho =>
      cases ha
      have henemy : (st.board st.y).owner = some c.other := h.inHand c _ hs
      simpa only [InHand, hb, hx, hy] using ⟨ho, henemy⟩
    | kingdown c v hd hk hr =>
      cases ha
      have hking := (h.inHand c _ hs).1
      simpa only [InHand, hb, hright] using ⟨hking, hr⟩
    | rookup c v hu hbr hs' hr =>
      cases ha
      have hking := (h.inHand c _ hs).1
      simpa only [InHand, hb, hright] using ⟨hking, hr, hbr⟩
    | kingTakes c hu ho =>
      cases ha
      have hk := (h.inHand c _ hs).1
      simp only [InHand, hb, hx, hy, hk]
      exact ⟨rfl, ho⟩
    | ignore c hu hbe =>
      cases ha
      simpa only [InHand, hb, hright] using h.inHand c _ hs
    | rookupLast c v hu hbr hs' =>
      cases ha
      have hk := h.inHand c _ hs
      simpa only [InHand, hb, hright] using ⟨hk.1, hk.2, hbr⟩
    | kingdownNext c v hd hs' =>
      cases ha
      simpa only [InHand, hb, hright] using h.inHand c _ hs
    | rookdownNext c v hd hs' =>
      cases ha
      simpa only [InHand, hb, hright] using h.inHand c _ hs
    | putBack => cases ha; trivial
    | putEnemyBack => cases ha; trivial
    | putKingBack => cases ha; trivial
    | derail => cases ha; trivial
    | halt => cases ha
    | fail => cases ha
    | _ => cases hn

/-- A king that may castle stands on its starting square. -/
theorem Held.kingHome_base (h : Held st) {c : Color} {x : Nat} : KingHome st c x := by
  intro hm
  obtain ⟨hk, v, hv⟩ := mayCastle_eq_true.mp hm
  exact h.kingHome c v hv x hk

theorem held_next (hw : WellFormed st) (hp : e.pinNumber < 64) (h : Held st) :
    Held (next st e) := by
  cases hq : plyOf st e with
  | none =>
    obtain ⟨hb, hright, hep, hsq, -⟩ := next_frame hq
    refine ⟨?_, ?_, inHand_next h hq⟩
    · rw [hb, hright]
      exact h.kingHome
    · rw [hep, hsq]
      exact h.square
  | some q =>
    refine ⟨kingHome_next h hq, square_next hw hp h hq, fun c p ha => ?_⟩
    rw [active_next_of_plyOf hq] at ha
    cases ha
    trivial

theorem held_foldl {es : List Event} (hw : WellFormed st) (h : Held st)
    (hp : ∀ e ∈ es, e.pinNumber < 64) : Held (es.foldl next st) := by
  induction es generalizing st with
  | nil => exact h
  | cons e es ih =>
    obtain ⟨he, hes⟩ := List.forall_mem_cons.mp hp
    exact ih (wellFormed_next hw he) (held_next hw he h) hes

theorem held_of_run {st₀ t : ChessState} {es : List Event}
    (h : run step (resetFsm st₀) es = .ok t) : Held t :=
  always_of_next (I := fun _ t => Held t) (held_resetFsm st₀)
    (fun _ _ _ ht hp hi => held_next (wellFormed_of_run ht) hp hi) es t (List.prefix_refl es) h

end Step

end SmakChess
