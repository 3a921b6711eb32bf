import SmakChess.Play
import SmakChess.PlyNumbers

/-! The messages as a record of the game: replaying them, and the piece each
one reports as captured. -/

namespace SmakChess

open Machine

def castlingTowards (s : Nat) : Option (Color × Wing) :=
  [(Color.white, Wing.kingside), (.white, .queenside), (.black, .kingside),
    (.black, .queenside)].find? fun cv => rookStartingsquare cv.1 cv.2 == s

/-- What a NORMAL message carries to its target: the piece that stands on its
from-square, or the piece that the message names. -/
inductive Carries
  | standing
  | named
  deriving DecidableEq, Repr

def Carries.piece (m : SmakJsonObj) (b : Board) : Carries → SmakPiece
  | .standing => b m.fromSquare
  | .named => m.piece

/-- What a message tells to do on the board, by its movetype. -/
def SmakJsonObj.replay (r : Carries) (m : SmakJsonObj) (b : Board) : Board :=
  match m.movetype with
  | .normal =>
    Function.update (Function.update b m.fromSquare .emptySquare) m.toSquare (r.piece m b)
  | .promotion =>
    match (b m.fromSquare).owner with
    | some c =>
      Function.update (Function.update b m.fromSquare .emptySquare) m.toSquare (.man c .queen)
    | none => b
  | .enPassant =>
    match (b m.fromSquare).owner with
    | some c => Function.update (moved b m.fromSquare m.toSquare) (victimSquare c m.toSquare)
        .emptySquare
    | none => b
  | .castling =>
    match castlingTowards m.toSquare with
    | some (c, v) => castled c v b
    | none => b

def replayAll (r : Carries) (ms : List SmakJsonObj) : Board :=
  ms.foldl (fun b m => m.replay r b) startingBoard

def Ply.removed (b : Board) : Ply → SmakPiece
  | .capture _ _ _ y _ => b y
  | _ => .emptySquare

def removals (st : ChessState) (es : List Event) : List SmakPiece :=
  outputs step (fun st e _ => (plyOf st e).toList.map (Ply.removed st.board)) st es

def Recorded (r : Carries) (st : ChessState) (es : List Event) (t : ChessState) : Prop :=
  (∀ s < 64, replayAll r (messages st es) s = t.board s) ∧
    (messages st es).map SmakJsonObj.captured = removals st es

/-- A quiet ply, and no promotion unless the message is read for its piece. -/
def Ply.plain (r : Carries) : Ply → Prop
  | .quiet c k _ s => k = .man c .pawn → rowOf s = lastRow c → r = .named
  | _ => False

def Ply.move : Ply → Move
  | .quiet _ _ x s => .quiet x s
  | .capture _ _ x y s => if y = s then .capture x s else .enPassant x s
  | .castle _ v => .castle v

section Step

variable {r : Carries} {st st₀ t : ChessState} {e : Event} {p : List Event} {q : Ply}

theorem messages_concat (h : run step (resetFsm st₀) p = .ok t) (hp : e.pinNumber < 64) :
    messages (resetFsm st₀) (p ++ [e]) = messages (resetFsm st₀) p ++
      if (plyOf t e).isSome then [(next t e).shellObj] else [] :=
  outputs_concat h (pinChange_eq (wellFormed_of_run h) hp)

theorem removals_concat (h : run step (resetFsm st₀) p = .ok t) (hp : e.pinNumber < 64) :
    removals (resetFsm st₀) (p ++ [e]) = removals (resetFsm st₀) p ++
      (plyOf t e).toList.map (Ply.removed t.board) :=
  outputs_concat h (pinChange_eq (wellFormed_of_run h) hp)

theorem replayAll_concat (ms : List SmakJsonObj) (m : SmakJsonObj) :
    replayAll r (ms ++ [m]) = m.replay r (replayAll r ms) := by
  simp [replayAll]

theorem promote_moved_plain {c : Color} {k : SmakPiece} {b : Board} {x s : Nat} (hxs : x ≠ s)
    (hs : s < 64) (hk : k = b x) (hplain : (Ply.quiet c k x s).plain .standing) :
    promote c (moved b x s) s = moved b x s := by
  refine if_neg ?_
  rw [moved_target hxs, ← hk, lastRank_iff hs]
  rintro ⟨hpawn, hlast⟩
  cases hplain hpawn hlast

theorem update_promote_target {c : Color} {b : Board} {x s : Nat} (hxs : x ≠ s) :
    Function.update (Function.update b x .emptySquare) s (promote c (moved b x s) s s) =
      promote c (moved b x s) s := by
  rw [promote]
  split_ifs
  · rw [Function.update_self, moved_comm hxs, Function.update_idem]
  · rw [moved_target hxs, moved_comm hxs]

theorem shellObj_of_plain (hq : plyOf st e = some q) (hp : e.pinNumber < 64)
    (hplain : q.plain r) :
    (next st e).shellObj.replay r st.board = (next st e).board ∧
      (next st e).shellObj.captured = q.removed st.board := by
  cases q with
  | quiet c k x s =>
    obtain ⟨hb, -, -, -, hobj⟩ := next_of_quiet hq
    obtain ⟨-, hk, hs, hxs, -⟩ := plyOf_quiet hq
    rw [hobj, hb]
    refine ⟨?_, rfl⟩
    cases r with
    | named => exact update_promote_target hxs
    | standing =>
      rw [promote_moved_plain hxs (hs ▸ hp) hk hplain]
      exact (moved_comm hxs).symm
  | capture c k x y s => exact absurd hplain id
  | castle c v => exact absurd hplain id

theorem shellObj_of_not_plain (hh : Held st) (hq : plyOf st e = some q) (hp : e.pinNumber < 64)
    (hplain : ¬ q.plain r) :
    (∃ s < 64, (next st e).shellObj.replay r st.board s ≠ (next st e).board s) ∨
      (next st e).shellObj.captured ≠ q.removed st.board := by
  cases q with
  | quiet c k x s =>
    obtain ⟨hb, -, -, -, hobj⟩ := next_of_quiet hq
    obtain ⟨-, hk, hs, hxs, -⟩ := plyOf_quiet hq
    simp only [Ply.plain, not_forall] at hplain
    obtain ⟨hpawn, hlast, hr⟩ := hplain
    obtain rfl : r = .standing := by
      cases r with
      | standing => rfl
      | named => exact absurd rfl hr
    have hm : moved st.board x s s = .man c .pawn := by rw [moved_target hxs, ← hk, hpawn]
    refine .inl ⟨s, hs ▸ hp, ?_⟩
    rw [hobj, hb, promote, if_pos ⟨hm, (lastRank_iff (hs ▸ hp)).mpr hlast⟩, Function.update_self]
    change Function.update (Function.update st.board x .emptySquare) s (st.board x) s ≠ _
    rw [← moved_comm hxs, hm]
    simp
  | capture c k x y s =>
    obtain ⟨-, -, -, -, hobj⟩ := next_of_capture hq
    rw [hobj]
    exact .inr (ne_emptySquare_of_owner (hh.owner_capture hq).2.1).symm
  | castle c v =>
    obtain ⟨-, -, -, -, hobj⟩ := next_of_castle hq
    rw [hobj]
    exact .inr SmakPiece.noConfusion

end Step

/-- In every state of a run the messages so far record the game, exactly when
every ply of the run is a quiet ply, and does not promote where a NORMAL message
carries the piece that stands on its from-square. -/
theorem recorded_iff_plain (r : Carries) (st₀ : ChessState) (es : List Event) :
    Always step (fun p t => Recorded r (resetFsm st₀) p t) (resetFsm st₀) es ↔
      Throughout step (fun t e => ∀ q, plyOf t e = some q → q.plain r) (resetFsm st₀) es := by
  refine always_iff_of_next
    (I := fun p t => replayAll r (messages (resetFsm st₀) p) = t.board ∧
      (messages (resetFsm st₀) p).map SmakJsonObj.captured = removals (resetFsm st₀) p)
    ⟨rfl, rfl⟩ (fun p t _ hi => ⟨fun s _ => congrFun hi.1 s, hi.2⟩) ?_ ?_
  · rintro p e t - ht hp ⟨hb, hc⟩ hplain
    rw [messages_concat ht hp, removals_concat ht hp]
    cases hq : plyOf t e with
    | none => simpa [hb, hc] using (next_frame hq).board.symm
    | some q =>
      obtain ⟨hreplay, hcap⟩ := shellObj_of_plain hq hp (hplain q hq)
      rw [Option.isSome_some, if_pos rfl, replayAll_concat, hb, hreplay]
      exact ⟨rfl, by simp [hc, hcap]⟩
  · rintro p e t - ht hp ⟨hb, hc⟩ hplain ⟨hb', hc'⟩
    simp only [not_forall] at hplain
    obtain ⟨q, hq, hn⟩ := hplain
    rw [messages_concat ht hp, hq, Option.isSome_some, if_pos rfl] at hb' hc'
    rw [replayAll_concat, hb] at hb'
    rw [removals_concat ht hp, hq, List.map_append, hc, List.append_cancel_left_eq] at hc'
    rcases shellObj_of_not_plain (held_of_run ht) hq hp hn with ⟨s, hs, hne⟩ | hne
    · exact hne (hb' s hs)
    · exact hne (by simpa using hc')

/-- 1. e4 d5 2. exd5: the message does not name the pawn taken. -/
theorem capture_not_recorded :
    Position.initial.legalGame ((plies (resetFsm powerOn)
        [lift 52, put 36, lift 11, put 27, lift 36, lift 27, put 27]).map Ply.move) ∧
      ∀ r, ¬ Always step (fun p t => Recorded r (resetFsm powerOn) p t) (resetFsm powerOn)
        [lift 52, put 36, lift 11, put 27, lift 36, lift 27, put 27] := by
  refine ⟨by decide +kernel, fun r h => ?_⟩
  have hr := run_eq_foldl [lift 52, put 36, lift 11, put 27, lift 36, lift 27, put 27]
    (wellFormed_resetFsm powerOn) (by decide)
  have hc := (h _ _ (List.prefix_refl _) hr).2
  exact absurd hc (by decide +kernel)

end SmakChess
