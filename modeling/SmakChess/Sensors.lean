import SmakChess.ErrorState
import SmakChess.Rights

/-! The occupancy sensors under the board, and the squares on which they differ
from the logical board while pieces are in the air. -/

namespace SmakChess

open Machine

abbrev Sensors := Nat → Bool

def startingSensors : Sensors := fun s => startingBoard s != .emptySquare

def Sensors.change (o : Sensors) (e : Event) : Sensors :=
  Function.update o e.pinNumber (!e.isUp)

/-- A piece is lifted from an occupied sensor and put down on an empty one. -/
def Possible : Sensors → List Event → Prop
  | _, [] => True
  | o, e :: es => (e.pinNumber < 64 ∧ o e.pinNumber = e.isUp) ∧ Possible (o.change e) es

def sensors (o : Sensors) (es : List Event) : Sensors := es.foldl Sensors.change o

/-- The logical board shows the squares that are physically occupied, whenever
the machine waits for a ply. -/
def ShowsSensors (o : Sensors) (st : ChessState) : Prop :=
  ∀ c, st.ctx.current = some (.of c .base) →
    ∀ s < 64, st.board s ≠ .emptySquare ↔ o s = true

/-! The squares a phase takes to be lifted or put down. -/

def lifted (st : ChessState) (c : Color) : Phase → List Nat
  | .base => []
  | .move => [st.x]
  | .capture => [st.x, st.y]
  | .enemyCapture => [st.y]
  | .castling => [kingStartingsquare c]
  | .kingdown _ => [kingStartingsquare c]
  | .kingupRookup v | .kingdownRookup v | .kingupRookdown v =>
    [kingStartingsquare c, rookStartingsquare c v]

def placed (c : Color) : Phase → List Nat
  | .kingdown v | .kingdownRookup v => [kingCastlesquare c v]
  | .kingupRookdown v => [rookCastlesquare c v]
  | _ => []

def Present (st : ChessState) (c : Color) (p : Phase) (s : Nat) : Prop :=
  st.board s ≠ .emptySquare ∧ s ∉ lifted st c p ∨ s ∈ placed c p

def Agrees (o : Sensors) (st : ChessState) : Prop :=
  ∀ c p, active st = some (.of c p) → ∀ s < 64, o s = true ↔ Present st c p s

section Step

variable {o : Sensors} {st t : ChessState} {e : Event} {es p q : List Event} {c d : Color}
  {v : Wing} {r : Ply} {x y s : Nat}

theorem possible_append : Possible o (p ++ q) ↔ Possible o p ∧ Possible (sensors o p) q := by
  induction p generalizing o with
  | nil => simp [Possible, sensors]
  | cons e p ih => simp [Possible, sensors, ih, and_assoc]

theorem sensors_concat : sensors o (p ++ [e]) = (sensors o p).change e := by
  simp [sensors]

theorem possible_last (h : Possible o es) (hp : p ++ [e] <+: es) :
    sensors o p e.pinNumber = e.isUp := by
  obtain ⟨q, rfl⟩ := hp
  have hlast := (possible_append.mp (possible_append.mp h).1).2
  exact hlast.1.2

theorem castled_ne_emptySquare (b : Board) :
    castled c v b s ≠ .emptySquare ↔ (s = kingCastlesquare c v ∨ s = rookCastlesquare c v ∨
      b s ≠ .emptySquare ∧ s ≠ kingStartingsquare c ∧ s ≠ rookStartingsquare c v) := by
  simp only [castled, Function.update_apply]
  have h1 : kingStartingsquare c ≠ rookCastlesquare c v := by cases c <;> cases v <;> decide
  have h2 : rookStartingsquare c v ≠ rookCastlesquare c v := by cases c <;> cases v <;> decide
  split_ifs with hk hks hr hrs <;> simp_all

theorem moved_ne_emptySquare {b : Board} (hx : b x ≠ .emptySquare) (hxs : x ≠ s) (i : Nat) :
    moved b x s i ≠ .emptySquare ↔ i ≠ x ∧ (i = s ∨ b i ≠ .emptySquare) := by
  by_cases hi : i = x
  · simp [hi, moved_source]
  · by_cases his : i = s
    · subst his
      simp [moved_target hxs, hx, Ne.symm hxs]
    · simp [moved_other hi his, hi, his]

theorem taken_ne_emptySquare {ep : Bool} {b : Board} (hx : b x ≠ .emptySquare) (hxs : x ≠ s)
    (hep : ep = true → s ≠ y) (hs : y = s ∨ ep = true) (i : Nat) :
    taken ep b x y s i ≠ .emptySquare ↔ i = s ∨ b i ≠ .emptySquare ∧ i ≠ x ∧ i ≠ y := by
  cases ep with
  | true =>
    have hsy := hep rfl
    by_cases hi : i = y
    · subst hi
      simp [taken, hsy.symm]
    · rw [taken, if_pos rfl, Function.update_of_ne hi, moved_ne_emptySquare hx hxs]
      grind
  | false =>
    obtain rfl : y = s := by simpa using hs
    rw [taken, if_neg (by simp), moved_ne_emptySquare hx hxs]
    grind

theorem agrees_resetFsm (st₀ : ChessState) : Agrees startingSensors (resetFsm st₀) := by
  intro c p ha s _
  cases ha
  simp [Present, lifted, placed, startingSensors, resetFsm]

section Change

variable {b : Board} {l l' m m' : List Nat} {i : Nat}

theorem present_lift (hu : e.isUp = true) (hm : e.pinNumber ∉ m)
    (hl : ∀ j, j ∈ l' ↔ j ∈ l ∨ j = e.pinNumber)
    (h : o i = true ↔ b i ≠ .emptySquare ∧ i ∉ l ∨ i ∈ m) :
    o.change e i = true ↔ b i ≠ .emptySquare ∧ i ∉ l' ∨ i ∈ m := by
  by_cases hi : i = e.pinNumber
  · subst hi
    simp [Sensors.change, hu, hm, hl]
  · simp [Sensors.change, h, hl, hi]

theorem present_place (hd : e.isUp = false) (hm : ∀ j, j ∈ m' ↔ j ∈ m ∨ j = e.pinNumber)
    (h : o i = true ↔ b i ≠ .emptySquare ∧ i ∉ l ∨ i ∈ m) :
    o.change e i = true ↔ b i ≠ .emptySquare ∧ i ∉ l ∨ i ∈ m' := by
  by_cases hi : i = e.pinNumber
  · subst hi
    simp [Sensors.change, hd, hm]
  · simp [Sensors.change, h, hm, hi]

theorem present_return (hd : e.isUp = false) (hb : b e.pinNumber ≠ .emptySquare)
    (h : o i = true ↔ b i ≠ .emptySquare ∧ i ∉ [e.pinNumber] ∨ i ∈ ([] : List Nat)) :
    o.change e i = true ↔ b i ≠ .emptySquare ∧ i ∉ ([] : List Nat) ∨ i ∈ ([] : List Nat) := by
  by_cases hi : i = e.pinNumber
  · subst hi
    simp [Sensors.change, hd, hb]
  · simpa [Sensors.change, hi] using h

theorem change_last_down {P : Prop} {j : Nat} (hd : e.isUp = false) (h : o i = true ↔ P ∨ i = j) :
    o.change e i = true ↔ i = e.pinNumber ∨ i = j ∨ P := by
  by_cases hi : i = e.pinNumber
  · simp [Sensors.change, hi, hd]
  · rw [Sensors.change, Function.update_of_ne hi, h]
    simp only [hi, false_or]
    exact or_comm

end Change

theorem agrees_next_of_none (hp : e.pinNumber < 64) (hh : Held st) (ha : Agrees o st)
    (ho : o e.pinNumber = e.isUp) (hm : ¬ missesCapture st e) (hn : plyOf st e = none) :
    Agrees (o.change e) (next st e) := by
  intro c p hact s hs
  obtain ⟨hb, -⟩ := next_frame hn
  rcases reaction_reacts st e with ⟨hnone, -⟩ | ⟨u, hu, hr⟩
  · rw [active_next_none hnone] at hact
    cases hact
  · rw [active_next hu] at hact
    rw [← reaction_eq_derail] at hm
    have hx := @next_x st e
    have hy := @next_y st e
    unfold plyOf at hn
    unfold Present
    rw [hb]
    generalize reaction st e = r at hr hact hm hn hx hy
    cases hr with
    | liftKing c hup hmay =>
      cases hact
      obtain ⟨hking, v, hv⟩ := mayCastle_eq_true.mp hmay
      have hk : e.pinNumber = kingStartingsquare c := hh.kingHome c v hv _ hking
      exact present_lift hup (by simp [placed]) (by simp [lifted, hk]) (ha c _ hu s hs)
    | liftOwn c hup hown =>
      cases hact
      exact present_lift hup (by simp [placed]) (by simp [lifted, hx]) (ha c _ hu s hs)
    | liftEnemy c hup hown =>
      cases hact
      exact present_lift hup (by simp [placed]) (by simp [lifted, hy]) (ha c _ hu s hs)
    | liftVictim c hup hown =>
      cases hact
      exact present_lift hup (by simp [placed]) (by simp [lifted, hx, hy]) (ha c _ hu s hs)
    | liftAttacker c hup hown =>
      cases hact
      exact present_lift hup (by simp [placed]) (by simp [lifted, hx, hy, or_comm]) (ha c _ hu s hs)
    | putBack c hd hpx =>
      cases hact
      have hin : st.board st.x ≠ .emptySquare := ne_emptySquare_of_owner (hh.inHand c _ hu)
      have hps := ha c _ hu s hs
      simp only [Present, lifted, hpx] at hps hin
      exact present_return hd hin hps
    | putEnemyBack c hd hpy =>
      cases hact
      have hin : st.board st.y ≠ .emptySquare := ne_emptySquare_of_owner (hh.inHand c _ hu)
      have hps := ha c _ hu s hs
      simp only [Present, lifted, ← hpy] at hps hin
      exact present_return hd hin hps
    | putKingBack c hd hk =>
      cases hact
      have hin : st.board (kingStartingsquare c) ≠ .emptySquare := by
        rw [(hh.inHand c _ hu).1]
        exact SmakPiece.noConfusion
      have hps := ha c _ hu s hs
      simp only [Present, lifted, ← hk] at hps hin
      exact present_return hd hin hps
    | kingdown c v hd hk hr =>
      cases hact
      exact present_place hd (by simp [placed, hk]) (ha c _ hu s hs)
    | rookup c v hup hbr hs' hr =>
      cases hact
      exact present_lift hup (by simp [placed]) (by simp [lifted, hs']) (ha c _ hu s hs)
    | kingTakes c hup hown =>
      cases hact
      exact present_lift hup (by simp [placed]) (by simp [lifted, hx, hy]) (ha c _ hu s hs)
    | ignore c hup hbe =>
      have hpin := (ha c _ hu e.pinNumber hp).mp (ho.trans hup)
      simp [Present, placed, hbe] at hpin
    | rookupLast c v hup hbr hs' =>
      cases hact
      have hne : e.pinNumber ∉ placed c (.kingdown v) := by
        rw [hs']
        cases c <;> cases v <;> decide
      exact present_lift hup hne (by simp [lifted, hs']) (ha c _ hu s hs)
    | kingdownNext c v hd hs' =>
      cases hact
      exact present_place hd (by simp [placed, hs']) (ha c _ hu s hs)
    | rookdownNext c v hd hs' =>
      cases hact
      exact present_place hd (by simp [placed, hs']) (ha c _ hu s hs)
    | derail => exact absurd rfl hm
    | halt => cases hact
    | fail => cases hact
    | _ => cases hn

theorem agrees_next_of_ply (hh : Held st) (ha : Agrees o st) (hr : plyOf st e = some r)
    (he : ∀ c k x y s, r = .capture c k x y s → ¬ erases st x y s) :
    Agrees (o.change e) (next st e) := by
  intro c p hact s hs
  rw [active_next_of_plyOf hr] at hact
  cases hact
  simp only [Present, lifted, placed, List.not_mem_nil, not_false_eq_true, and_true, or_false]
  cases r with
  | quiet c k x t =>
    obtain ⟨hb, -⟩ := next_of_quiet hr
    obtain ⟨-, hk, rfl, hxs, hd, hact⟩ := plyOf_quiet hr
    have hown : (st.board x).owner = some c := hk ▸ hh.owner_quiet hr
    have hx : st.board x ≠ .emptySquare := ne_emptySquare_of_owner hown
    have hps : o s = true ↔ st.board s ≠ .emptySquare ∧ s ≠ x := by
      rcases hact with ⟨hact, rfl⟩ | ⟨hact, rfl⟩
      · simpa [Present, lifted, placed] using ha c _ hact s hs
      · simpa [Present, lifted, placed] using ha c _ hact s hs
    rw [hb, ne_eq, promote_eq_emptySquare, ← ne_eq, moved_ne_emptySquare hx hxs]
    by_cases hsp : s = e.pinNumber
    · subst hsp
      simp [Sensors.change, hd, Ne.symm hxs]
    · simp [Sensors.change, hsp, hps, and_comm]
  | capture c k x y t =>
    obtain ⟨hb, -⟩ := next_of_capture hr
    obtain ⟨hox, hoy, hxy⟩ := hh.owner_capture hr
    obtain ⟨-, hk, rfl, rfl, rfl, hor, hd, hact⟩ := plyOf_capture hr
    have hx : st.board st.x ≠ .emptySquare := ne_emptySquare_of_owner (hk ▸ hox)
    have hne : ¬ erases st st.x st.y e.pinNumber := he c k _ _ _ rfl
    have hep : enPassantAt st e.pinNumber = true → e.pinNumber ≠ st.y ∧ e.pinNumber ≠ st.x := by
      intro hat
      simpa [erases, hat] using hne
    have hxs : st.x ≠ e.pinNumber := by
      rcases hor with hor | hor
      · exact hor ▸ hxy
      · exact (hep hor).2.symm
    have hps : o s = true ↔ st.board s ≠ .emptySquare ∧ s ≠ st.x ∧ s ≠ st.y := by
      simpa [Present, lifted, placed] using ha c _ hact s hs
    rw [hb, ne_eq, promote_eq_emptySquare, ← ne_eq,
      taken_ne_emptySquare hx hxs (fun hat => (hep hat).1) hor]
    by_cases hsp : s = e.pinNumber
    · simp [Sensors.change, hsp, hd]
    · simp [Sensors.change, hsp, hps]
  | castle c v =>
    obtain ⟨hb, -⟩ := next_of_castle hr
    obtain ⟨-, hd, hact⟩ := plyOf_castle hr
    rw [hb, castled_ne_emptySquare]
    obtain ⟨hact, hpin⟩ | ⟨hact, hpin⟩ := hact
    · have hps := ha c _ hact s hs
      simp only [Present, lifted, placed, List.mem_cons, List.not_mem_nil, or_false, not_or] at hps
      rw [change_last_down hd hps, hpin]
      exact or_left_comm
    · have hps := ha c _ hact s hs
      simp only [Present, lifted, placed, List.mem_cons, List.not_mem_nil, or_false, not_or] at hps
      rw [change_last_down hd hps, hpin]

theorem showsSensors_of_agrees (ht : Tracked st) (ha : Agrees o st) : ShowsSensors o st := by
  intro c hc s hs
  have hbase : ∃ d, active st = some (.of d .base) := by
    cases hst : st.isStarted with
    | false => exact ⟨.white, by simp [active, resume, hst]⟩
    | true =>
      have hsv := ht.inStep hst
      rw [hc, Option.some.injEq] at hsv
      refine ⟨c, ?_⟩
      cases hact : active st with
      | none => cases (ht.active_none hact).symm.trans hsv.symm
      | some s => rw [← ht.active_eq hact, hsv]
  obtain ⟨d, hd⟩ := hbase
  have hps := ha d _ hd s hs
  simpa [Present, lifted, placed, iff_comm] using hps

theorem not_showsSensors_of_missesCapture (hw : WellFormed st) (hh : Held st) (ha : Agrees o st)
    (hm : missesCapture st e) : ¬ ShowsSensors (o.change e) (next st e) := by
  have hd := reaction_eq_derail.mpr hm
  have hb : (next st e).board = st.board := (next_frame (by rw [plyOf, hd])).1
  have hc : (next st e).ctx.current = some (.of .black .base) := by rw [next_current, hd]; rfl
  obtain ⟨hox, hoy⟩ := hh.inHand _ _ hm.1
  have hx : o st.x = false := by
    simpa [Present, lifted, placed] using ha _ _ hm.1 st.x hw.x_lt
  have hy : o st.y = false := by
    simpa [Present, lifted, placed] using ha _ _ hm.1 st.y hw.y_lt
  intro hshow
  by_cases hpx : st.x = e.pinNumber
  · have hpy : st.y ≠ e.pinNumber := by
      intro hpy
      rw [hpx, ← hpy, hoy] at hox
      cases hox
    have hon := (hshow _ hc st.y hw.y_lt).mp (hb ▸ ne_emptySquare_of_owner hoy)
    rw [Sensors.change, Function.update_of_ne hpy, hy] at hon
    cases hon
  · have hon := (hshow _ hc st.x hw.x_lt).mp (hb ▸ ne_emptySquare_of_owner hox)
    rw [Sensors.change, Function.update_of_ne hpx, hx] at hon
    cases hon

theorem not_showsSensors_of_erases (hp : e.pinNumber < 64) (hh : Held st) {k : SmakPiece}
    (hr : plyOf st e = some (.capture c k x y s)) (he : erases st x y s) :
    ¬ ShowsSensors (o.change e) (next st e) := by
  obtain ⟨hb, -⟩ := next_of_capture hr
  obtain ⟨-, -, hxy⟩ := hh.owner_capture hr
  obtain ⟨-, -, -, -, rfl, -, hd, -⟩ := plyOf_capture hr
  intro hshow
  have hon : o.change e e.pinNumber = true := by simp [Sensors.change, hd]
  have hcur := (stateVal_next_of_plyOf hr).2
  have hempty : (next st e).board e.pinNumber = .emptySquare := by
    rw [hb, promote_eq_emptySquare, taken_erased hxy he]
  exact (hshow _ hcur _ hp).mpr hon hempty

end Step

def LosesNoPiece (st : ChessState) (e : Event) : Prop :=
  ¬ missesCapture st e ∧ ∀ c k x y s, plyOf st e = some (.capture c k x y s) → ¬ erases st x y s

/-- Along a physically possible run the logical board shows the sensors,
exactly when every event of the run meets `LosesNoPiece`. -/
theorem showsSensors_iff_losesNoPiece (st₀ : ChessState) (es : List Event)
    (h : Possible startingSensors es) :
    Always step (fun p t => ShowsSensors (sensors startingSensors p) t) (resetFsm st₀) es ↔
      Throughout step LosesNoPiece (resetFsm st₀) es := by
  refine always_iff_of_next
    (I := fun p t => Tracked t ∧ Agrees (sensors startingSensors p) t)
    ⟨tracked_resetFsm st₀, agrees_resetFsm st₀⟩ ?_ ?_ ?_
  · exact fun p t _ hi => showsSensors_of_agrees hi.1 hi.2
  · rintro p e t hpre ht hp ⟨hi, ha⟩ ⟨hm, hcap⟩
    refine ⟨tracked_next hi hm, ?_⟩
    rw [sensors_concat]
    have hh := held_of_run ht
    cases hq : plyOf t e with
    | none => exact agrees_next_of_none hp hh ha (possible_last h hpre) hm hq
    | some q => exact agrees_next_of_ply hh ha hq fun c k x y s hqc => hcap c k x y s (hqc ▸ hq)
  · rintro p e t hpre ht hp ⟨hi, ha⟩ hc hP
    rw [sensors_concat] at hP
    have hh := held_of_run ht
    by_cases hm : missesCapture t e
    · exact not_showsSensors_of_missesCapture (wellFormed_of_run ht) hh ha hm hP
    · simp only [LosesNoPiece, hm, not_false_eq_true, true_and, not_forall, not_not] at hc
      obtain ⟨c, k, x, y, s, hq, he⟩ := hc
      exact not_showsSensors_of_erases hp hh hq he hP

theorem showsSensors_iff_pawn_advance :
    Possible startingSensors [lift 52, put 36] ∧
      (Always step (fun p t => ShowsSensors (sensors startingSensors p) t) (resetFsm powerOn)
          [lift 52, put 36] ↔
        Throughout step LosesNoPiece (resetFsm powerOn) [lift 52, put 36]) :=
  have hp : Possible startingSensors [lift 52, put 36] :=
    ⟨⟨by decide, rfl⟩, ⟨by decide, rfl⟩, trivial⟩
  ⟨hp, showsSensors_iff_losesNoPiece powerOn _ hp⟩

/-- White lifts e2 and e7 and puts a piece down on e4: black is to move, and the
board shows pieces on e2 and e7. -/
theorem missed_capture_misplaces :
    Possible startingSensors [lift 52, lift 12, put 36] ∧
      ¬ Always step (fun p t => ShowsSensors (sensors startingSensors p) t) (resetFsm powerOn)
        [lift 52, lift 12, put 36] := by
  refine ⟨⟨⟨by decide, rfl⟩, ⟨by decide, rfl⟩, ⟨by decide, rfl⟩, trivial⟩, fun h => ?_⟩
  have hr := run_eq_foldl [lift 52, lift 12, put 36] (wellFormed_resetFsm powerOn)
    (by decide)
  have hs := (h _ _ (List.prefix_refl _) hr .black rfl 52 (by decide)).mp (by decide +kernel)
  exact absurd hs (by decide)

end SmakChess
