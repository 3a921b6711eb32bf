import SmakChess.FenLoop

/-! A legal game in the moves of the chess library, as a library that follows
the rules plays it. -/

namespace SmakChess

open Loops

namespace Position

def codesFrom : Position → List Move → List Chess.Move
  | _, [] => []
  | p, m :: ms => p.code m :: (p.play m).codesFrom ms

end Position

section Coded

variable {lib : Chess.Library} {shows : lib.Board → Played → Prop} {b : lib.Board}
  {p : Position} {q : Played} {m : Move} {ms : List Move} {j : Nat}

theorem position_foldl_play (q : Played) (ms : List Move) :
    (ms.foldl Played.play q).position = ms.foldl Position.play q.position := by
  induction ms generalizing q with
  | nil => rfl
  | cons m ms ih => exact ih (q.play m)

theorem Position.legal_of_legalGame (hl : p.legalGame ms) (hm : ms[j]? = some m) :
    ((ms.take j).foldl Position.play p).legal m := by
  induction ms generalizing p j with
  | nil => simp at hm
  | cons n ms ih =>
    cases j with
    | zero =>
      obtain rfl : n = m := by simpa using hm
      exact hl.1
    | succ j => exact ih hl.2 (by simpa using hm)

theorem Position.codesFrom_getElem? (rest : List Chess.Move) (hm : ms[j]? = some m) :
    (p.codesFrom ms ++ rest)[j]? = some (((ms.take j).foldl Position.play p).code m) := by
  induction ms generalizing p j with
  | nil => simp at hm
  | cons n ms ih =>
    cases j with
    | zero =>
      obtain rfl : n = m := by simpa using hm
      rfl
    | succ j => exact ih (p := p.play n) (by simpa using hm)

theorem finds_code (hr : lib.FollowsRules shows) (hb : shows b q)
    (hm : q.position.legal m) : lib.finds b (q.position.code m) = true := by
  have hpiece := hr.pieceAt b q _ hb (source_lt hm)
  rw [Chess.Library.finds, List.contains_iff_mem, hr.legalmoves b q _ _ hb]
  refine ⟨m, hm, ?_, .queen, by decide, rfl⟩
  rw [Position.code, Position.codeWith, hpiece]
  exact covers_pieceToPiecegen _

theorem length_codesFrom : (p.codesFrom ms).length = ms.length := by
  induction ms generalizing p with
  | nil => rfl
  | cons m ms ih => exact congrArg (· + 1) ih

theorem shows_playOrPass (hr : lib.FollowsRules shows)
    (hb : shows b q) (hm : q.position.legal m) :
    shows (lib.playOrPass lib.finds b (q.position.code m)) (q.play m) := by
  rw [Chess.Library.playOrPass, if_pos (finds_code hr hb hm)]
  exact hr.makeMove b q m hb hm

theorem shows_reached (hr : lib.FollowsRules shows) (hb : shows b q)
    (hl : q.position.legalGame ms) (rest : List Chess.Move) (hj : j ≤ ms.length) :
    shows (lib.reached lib.finds b (q.position.codesFrom ms ++ rest) j)
      ((ms.take j).foldl Played.play q) := by
  induction ms generalizing b q j with
  | nil =>
    obtain rfl : j = 0 := by simpa using hj
    exact hb
  | cons m ms ih =>
    cases j with
    | zero => exact hb
    | succ j => exact ih (shows_playOrPass hr hb hl.1) hl.2 (by simpa using hj)

theorem endsAt_codesFrom_iff (hr : lib.FollowsRules shows) (hb : shows b q)
    (hl : q.position.legalGame ms) (rest : List Chess.Move) (hj : j < ms.length) :
    lib.EndsAt lib.finds b (q.position.codesFrom ms ++ rest) j ↔
      (lib.isGameOver
        (lib.reached lib.finds b (q.position.codesFrom ms ++ rest) (j + 1))).1 ≠ .none := by
  obtain ⟨m, hm⟩ : ∃ m, ms[j]? = some m := ⟨_, List.getElem?_eq_getElem hj⟩
  have hcode := Position.codesFrom_getElem? (p := q.position) rest hm
  have hshow := shows_reached hr hb hl rest hj.le
  have hlegal := Position.legal_of_legalGame hl hm
  rw [← position_foldl_play] at hcode hlegal
  have hfind := finds_code hr hshow hlegal
  have hnext : lib.reached lib.finds b (q.position.codesFrom ms ++ rest) (j + 1) =
      lib.makeMove (lib.reached lib.finds b (q.position.codesFrom ms ++ rest) j)
        (((ms.take j).foldl Played.play q).position.code m) := by
    rw [Chess.Library.reached, stateAt_of_getElem? hcode]
    exact if_pos hfind
  rw [hnext]
  constructor
  · rintro ⟨c, hc, -, hover⟩
    obtain rfl := Option.some.inj (hcode.symm.trans hc)
    exact hover
  · intro hover
    exact ⟨_, hcode, hfind, hover⟩

end Coded

end SmakChess
