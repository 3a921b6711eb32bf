import SmakChess.Held

/-! The kings of a run, the pieces in the air in each state, and the square
that a castling state takes the king to be lifted from. -/

namespace SmakChess

open Machine

/-- The states the source names `*_castling*`. -/
def Phase.isCastling : Phase → Bool
  | .castling | .kingdown _ | .kingupRookup _ | .kingdownRookup _ | .kingupRookdown _ => true
  | _ => false

/-- The next event runs the function of `s`, or `state_val` names `s`, or the
framework does. After a reset it names no state until the first event. -/
def InState (st : ChessState) (s : States) : Prop :=
  active st = some s ∨ st.stateVal = s ∨ st.isStarted = true ∧ st.ctx.current = some s

def OneKing (b : Board) : Prop :=
  ∀ c s t, b s = .man c .king → b t = .man c .king → s = t

structure HeldPieces (st : ChessState) : Prop where
  kingHome : ∀ c, st.right c .kingside = true ∨ st.right c .queenside = true →
    ∀ s, s ≠ kingStartingsquare c → st.board s ≠ .man c .king
  oneKing : OneKing st.board
  attacker : ∀ c p, InState st (.of c p) → p = .move ∨ p = .capture →
    (st.board st.x).owner = some c
  victim : ∀ c p, InState st (.of c p) → p = .capture ∨ p = .enemyCapture →
    (st.board st.y).owner = some c.other
  castling : ∀ c p, InState st (.of c p) → p.isCastling = true →
    st.board (kingStartingsquare c) = .man c .king

/-- Lifting `s` took the machine from the base state of `c` to the castling
state, which it has not left since. -/
def KingLifted (st₀ : ChessState) (c : Color) (es : List Event) (s : Nat) : Prop :=
  ∃ ps qs, es = ps ++ lift s :: qs ∧
    (∃ u, run step (resetFsm st₀) ps = .ok u ∧ active u = some (.of c .base)) ∧
    ∀ rs u, rs <+: qs → run step (resetFsm st₀) (ps ++ lift s :: rs) = .ok u →
      active u = some (.of c .castling)

/-- In a castling state one square counts as lifted, the king's starting
square, and the plies and captures that go on from there have it as `x`. -/
def SubstitutesLifted (st₀ : ChessState) (es : List Event) (t : ChessState) : Prop :=
  ∀ c, active t = some (.of c .castling) →
    (∀ s, KingLifted st₀ c es s ↔ s = kingStartingsquare c) ∧
    ∀ e t', step t e = .ok t' → t'.ply ≠ t.ply ∨ active t' = some (.of c .capture) →
      t'.x = kingStartingsquare c

section Boards

variable {b b' : Board} {c : Color} {v : Wing} {x s i : Nat}

theorem OneKing.of_kings (h : OneKing b)
    (hb : ∀ c i, b' i = .man c .king → b i = .man c .king) : OneKing b' :=
  fun c s t hs ht => h c s t (hb c s hs) (hb c t ht)

theorem OneKing.moved (h : OneKing b) (x s : Nat) : OneKing (moved b x s) := by
  intro c i j hi hj
  have hsource (k : Nat) (hk : SmakChess.moved b x s k = .man c .king) : k ≠ x := by
    rintro rfl
    rw [moved_source] at hk
    cases hk
  rcases moved_eq_man hi with hi' | ⟨rfl, hix⟩
  · rcases moved_eq_man hj with hj' | ⟨-, hjx⟩
    · exact h c i j hi' hj'
    · exact absurd (h c i x hi' hjx) (hsource i hi)
  · rcases moved_eq_man hj with hj' | ⟨rfl, -⟩
    · exact absurd (h c j x hj' hix) (hsource j hj)
    · rfl

theorem OneKing.promote (h : OneKing b) (c : Color) (s : Nat) : OneKing (promote c b s) :=
  h.of_kings fun _ _ => promote_eq_man (by decide)

theorem OneKing.taken (h : OneKing b) (ep : Bool) (x y s : Nat) : OneKing (taken ep b x y s) :=
  (h.moved x s).of_kings fun _ _ => taken_eq_man

theorem castled_eq_king (h : castled c v b i = .man c .king) :
    i = kingCastlesquare c v ∨ i ≠ kingStartingsquare c ∧ b i = .man c .king := by
  simp only [castled, Function.update_apply] at h
  split_ifs at h with h1 h2 h3 h4
  · exact .inl h1
  · cases h
  · exact .inr ⟨h2, h⟩

theorem OneKing.castled (h : OneKing b) (hk : b (kingStartingsquare c) = .man c .king) (v : Wing) :
    OneKing (castled c v b) := by
  intro d i j hi hj
  by_cases hd : d = c
  · subst hd
    have hcastle (k : Nat) (hb : SmakChess.castled d v b k = .man d .king) :
        k = kingCastlesquare d v := by
      rcases castled_eq_king hb with rfl | ⟨hne, hb⟩
      · rfl
      · exact absurd (h d k _ hb hk) hne
    rw [hcastle i hi, hcastle j hj]
  · exact h d i j (castled_eq_king_other hd hi) (castled_eq_king_other hd hj)

theorem oneKing_startingBoard : OneKing startingBoard := by
  have hhome (c : Color) (s : Nat) (hs : startingBoard s = .man c .king) :
      s = kingStartingsquare c :=
    (held_resetFsm powerOn).kingHome c .kingside rfl s hs
  intro c s t hs ht
  rw [hhome c s hs, hhome c t ht]

end Boards

section Step

variable {st : ChessState} {e : Event} {c : Color} {p : Phase}

theorem oneKing_next (hk : OneKing st.board) (h : Held st) : OneKing (next st e).board := by
  cases hq : plyOf st e with
  | none =>
    obtain ⟨hb, -⟩ := next_frame hq
    rwa [hb]
  | some q =>
    cases q with
    | quiet d k x t =>
      rw [(next_of_quiet hq).1]
      exact (hk.moved x t).promote d t
    | capture d k x y t =>
      rw [(next_of_capture hq).1]
      exact (hk.taken _ x y t).promote d t
    | castle d v =>
      rw [(next_of_castle hq).1]
      exact hk.castled (h.home_castle hq).1 v

/-- Where a side's state is named, that state is the active one. -/
structure Named (st : ChessState) : Prop where
  stateVal : ∀ c p, st.stateVal = .of c p → active st = some (.of c p)
  current : ∀ c p, st.isStarted = true → st.ctx.current = some (.of c p) →
    active st = some (.of c p)

theorem Named.active (h : Named st) (hs : InState st (.of c p)) : active st = some (.of c p) := by
  rcases hs with ha | hv | ⟨hst, hc⟩
  · exact ha
  · exact h.stateVal c p hv
  · exact h.current c p hst hc

theorem Named.resume_current (h : Named st) (hc : (resume st).current = some (.of c p)) :
    SmakChess.active st = some (.of c p) := by
  cases hst : st.isStarted with
  | true => exact h.current c p hst (by rwa [resume_of_isStarted hst] at hc)
  | false =>
    have hr : resume st = { current := some .white, terminate := false } := by simp [resume, hst]
    rw [hr] at hc
    rw [active_eq_some, hr]
    exact ⟨rfl, hc⟩

theorem named_resetFsm (st₀ : ChessState) : Named (resetFsm st₀) where
  stateVal c p h := by cases h; rfl
  current c p h := by cases h

theorem named_next (h : Named st) : Named (next st e) := by
  rcases reaction_reacts st e with ⟨ha, hr⟩ | ⟨s, ha, hr⟩
  · refine ⟨fun c p hv => ?_, fun c p _ hc => ?_⟩
    · rw [next_stateVal, hr] at hv
      cases ha.symm.trans (h.stateVal c p hv)
    · rw [next_current, hr] at hc
      cases ha.symm.trans (h.resume_current hc)
  · refine ⟨fun c p hv => ?_, fun c p _ hc => ?_⟩
    · rw [next_stateVal] at hv
      rw [active_next ha]
      generalize reaction st e = r at hr hv
      cases hr with
      | halt => cases ha.symm.trans (h.stateVal c p hv)
      | ignore => exact ha.symm.trans (h.stateVal c p hv)
      | derail => cases hv
      | _ => exact congrArg some hv
    · rw [next_current] at hc
      rw [active_next ha]
      generalize reaction st e = r at hr hc
      cases hr with
      | halt => cases ha.symm.trans (h.resume_current hc)
      | ignore => exact ha.symm.trans (h.resume_current hc)
      | _ => exact hc

theorem heldPieces_of_held (h : Held st) (hk : OneKing st.board) (hn : Named st) :
    HeldPieces st where
  kingHome c hr s hs hb := by
    rcases hr with hr | hr
    · exact hs (h.kingHome c _ hr s hb)
    · exact hs (h.kingHome c _ hr s hb)
  oneKing := hk
  attacker c p hs hp := by
    have hi := h.inHand c p (hn.active hs)
    rcases hp with rfl | rfl
    · exact hi
    · exact hi.1
  victim c p hs hp := by
    have hi := h.inHand c p (hn.active hs)
    rcases hp with rfl | rfl
    · exact hi.2
    · exact hi
  castling c p hs hp := by
    have hi := h.inHand c p (hn.active hs)
    cases p <;> first
      | cases hp; done
      | exact hi.1

/-- A castling state is entered by lifting a king that may castle from the base
state of its side, and kept by lifting an empty square. -/
theorem castling_of_next (ha : active (next st e) = some (.of c .castling)) :
    active st = some (.of c .base) ∧ e.isUp = true ∧ mayCastle st c e.pinNumber = true ∨
      active st = some (.of c .castling) := by
  rcases reaction_reacts st e with ⟨hs, -⟩ | ⟨s, hs, hr⟩
  · rw [active_next_none hs] at ha
    cases ha
  · rw [active_next hs] at ha
    generalize reaction st e = r at hr ha
    cases hr with
    | liftKing d hu hm =>
      cases ha
      exact .inl ⟨hs, hu, hm⟩
    | ignore d hu hb =>
      cases ha
      exact .inr hs
    | _ => cases ha

theorem Held.pinNumber_of_castling (h : Held st) (hb : active st = some (.of c .base))
    (ha : active (next st e) = some (.of c .castling)) : e.pinNumber = kingStartingsquare c := by
  rcases castling_of_next ha with ⟨-, -, hm⟩ | hc
  · obtain ⟨hk, v, hv⟩ := mayCastle_eq_true.mp hm
    exact h.kingHome c v hv _ hk
  · cases hb.symm.trans hc

theorem x_of_castling (hc : active st = some (.of c .castling))
    (hp : (next st e).ply ≠ st.ply ∨ active (next st e) = some (.of c .capture)) :
    (next st e).x = kingStartingsquare c := by
  rw [next_ply, active_next hc] at hp
  rw [next_x]
  rcases reaction_reacts st e with ⟨hs, -⟩ | ⟨s, hs, hr⟩
  · cases hs.symm.trans hc
  · obtain rfl : s = .of c .castling := Option.some.inj (hs.symm.trans hc)
    unfold plyOf at hp
    generalize reaction st e = r at hr hp
    cases hr <;> first
      | rfl
      | rcases hp with hp | hp
        · exact absurd rfl hp
        · cases hp

end Step

section Runs

variable {st₀ t : ChessState} {c : Color} {es : List Event} {s : Nat}

theorem KingLifted.concat {e : Event} (h : KingLifted st₀ c es s)
    (hn : ∀ u, run step (resetFsm st₀) (es ++ [e]) = .ok u → active u = some (.of c .castling)) :
    KingLifted st₀ c (es ++ [e]) s := by
  obtain ⟨ps, qs, rfl, hu, hq⟩ := h
  refine ⟨ps, qs ++ [e], by simp, hu, fun rs u hrs hr => ?_⟩
  rcases List.prefix_concat_iff.mp hrs with rfl | hrs
  · exact hn u (by simpa using hr)
  · exact hq rs u hrs hr

theorem exists_kingLifted (h : run step (resetFsm st₀) es = .ok t)
    (hc : active t = some (.of c .castling)) : ∃ s, KingLifted st₀ c es s := by
  have hinv : Always step
      (fun es t => ∀ c, active t = some (.of c .castling) → ∃ s, KingLifted st₀ c es s)
      (resetFsm st₀) es := by
    refine always_of_next (fun c hc => ?_) fun ps e u hu hp ih c hc => ?_
    · rw [active_resetFsm] at hc
      cases hc
    have hstep : step u e = .ok (next u e) := pinChange_eq (wellFormed_of_run hu) hp
    have hrun := run_concat_of_ok hu hstep
    have hlast (w : ChessState) (hw : run step (resetFsm st₀) (ps ++ [e]) = .ok w) :
        active w = some (.of c .castling) := by
      obtain rfl : next u e = w := by simpa [hrun] using hw
      exact hc
    rcases castling_of_next hc with ⟨hb, hup, -⟩ | hcu
    · obtain ⟨pin, up⟩ := e
      obtain rfl : up = true := hup
      refine ⟨pin, ps, [], rfl, ⟨u, hu, hb⟩, fun rs w hrs hw => ?_⟩
      obtain rfl := List.prefix_nil.mp hrs
      exact hlast w hw
    · obtain ⟨s, hs⟩ := ih c hcu
      exact ⟨s, hs.concat hlast⟩
  exact hinv es t (List.prefix_refl es) h c hc

theorem KingLifted.eq_kingStartingsquare (h : run step (resetFsm st₀) es = .ok t)
    (hs : KingLifted st₀ c es s) : s = kingStartingsquare c := by
  obtain ⟨ps, qs, rfl, ⟨u, hu, hb⟩, hq⟩ := hs
  rw [run_append_of_ok hu] at h
  cases hstep : step u (lift s) with
  | error f => simp [run, hstep, Except.bind] at h
  | ok w =>
    have hw := hq [] w List.nil_prefix (run_concat_of_ok hu hstep)
    obtain ⟨-, rfl⟩ := step_eq_ok (wellFormed_of_run hu) hstep
    exact (held_of_run hu).pinNumber_of_castling hb hw

theorem substitutesLifted_of_run (h : run step (resetFsm st₀) es = .ok t) :
    SubstitutesLifted st₀ es t := by
  intro c hc
  refine ⟨fun s => ⟨fun hs => hs.eq_kingStartingsquare h, ?_⟩, fun e t' ht' hp => ?_⟩
  · rintro rfl
    obtain ⟨s, hs⟩ := exists_kingLifted h hc
    rwa [hs.eq_kingStartingsquare h] at hs
  · obtain ⟨-, rfl⟩ := step_eq_ok (wellFormed_of_run h) ht'
    exact x_of_castling hc hp

theorem heldPieces_always (st₀ : ChessState) (es : List Event) :
    Always step (fun es t => HeldPieces t ∧ SubstitutesLifted st₀ es t) (resetFsm st₀) es := by
  have hinv : Always step (fun _ t => OneKing t.board ∧ Named t) (resetFsm st₀) es :=
    always_of_next ⟨oneKing_startingBoard, named_resetFsm st₀⟩
      fun _ _ _ ht _ hi => ⟨oneKing_next hi.1 (held_of_run ht), named_next hi.2⟩
  intro ps t hps ht
  obtain ⟨hk, hn⟩ := hinv ps t hps ht
  exact ⟨heldPieces_of_held (held_of_run ht) hk hn, substitutesLifted_of_run ht⟩

end Runs

end SmakChess
