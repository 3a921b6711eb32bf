import SmakChess.Loops
import SmakChess.TrueFens

/-! The loop of `getFenListFromGame` against the positions of its moves. -/

namespace SmakChess

open Loops

namespace Chess.Library

variable (lib : Chess.Library)

/-- A legal move, whatever piece makes it. -/
def isLegal (b : lib.Board) (m : Chess.Move) : Bool := (lib.legalmoves b .all).contains m

/-- The generator for one kind of pieces leaves out the moves of the others. -/
def GeneratesByPiece : Prop :=
  ∀ b g m, m ∈ lib.legalmoves b g ↔
    m ∈ lib.legalmoves b .all ∧ g.covers (lib.pieceAt b m.source) = true

/-- An illegal move is replaced by a null move. -/
def playOrPass (legal : lib.Board → Chess.Move → Bool) (b : lib.Board) (m : Chess.Move) :
    lib.Board :=
  if legal b m then lib.makeMove b m else lib.makeNullMove b

def reached (legal : lib.Board → Chess.Move → Bool) (b : lib.Board) (ms : List Chess.Move)
    (i : Nat) : lib.Board :=
  stateAt (lib.playOrPass legal) b ms i

/-- Move `i` is legal, and a reason is reported after it. -/
def EndsAt (legal : lib.Board → Chess.Move → Bool) (b : lib.Board) (ms : List Chess.Move)
    (i : Nat) : Prop :=
  ∃ m, ms[i]? = some m ∧ legal (lib.reached legal b ms i) m = true ∧
    (lib.isGameOver (lib.makeMove (lib.reached legal b ms i) m)).1 ≠ .none

def fenStep (b : lib.Board) (m : Chess.Move) : Except Empty (Option String × Bool) :=
  if lib.finds b m then
    .ok (some (lib.getFen (lib.makeMove b m)), (lib.isGameOver (lib.makeMove b m)).1 != .none)
  else .ok (none, false)

variable {lib} {b : lib.Board} {m : Chess.Move} {ms : List Chess.Move} {i : Nat}

theorem finds_eq_isLegal (h : lib.GeneratesByPiece) : lib.finds = lib.isLegal := by
  funext b m
  rw [Bool.eq_iff_iff]
  simp only [finds, isLegal, List.contains_iff_mem]
  rw [h b (pieceToPiecegen _) m, covers_pieceToPiecegen]
  simp

theorem FollowsRules.generatesByPiece {shows : lib.Board → Played → Prop}
    (hr : lib.FollowsRules shows) (hall : ∀ b, ∃ q, shows b q) : lib.GeneratesByPiece := by
  intro b g c
  obtain ⟨q, hb⟩ := hall b
  rw [hr.legalmoves b q g c hb, hr.legalmoves b q .all c hb]
  constructor
  · rintro ⟨m, hm, hg, k, hk, rfl⟩
    have hpiece := hr.pieceAt b q _ hb (source_lt hm)
    exact ⟨⟨m, hm, rfl, k, hk, rfl⟩, by rw [Position.codeWith, hpiece, hg]⟩
  · rintro ⟨⟨m, hm, -, k, hk, rfl⟩, hg⟩
    have hpiece := hr.pieceAt b q _ hb (source_lt hm)
    rw [Position.codeWith, hpiece] at hg
    exact ⟨m, hm, hg, k, hk, rfl⟩

theorem reached_one_of_not_legal {legal : lib.Board → Chess.Move → Bool} (h : legal b m = false) :
    lib.reached legal b (m :: ms) 1 = lib.makeNullMove b := by
  rw [reached, stateAt, List.take_succ_cons, List.take_zero, List.foldl_cons, List.foldl_nil,
    playOrPass, h, if_neg Bool.false_ne_true]

theorem loop_fenStep (b : lib.Board) (ms : List Chess.Move) :
    loop lib.fenStep (lib.playOrPass lib.finds) b ms = .ok (lib.fensFrom b ms) := by
  induction ms generalizing b with
  | nil => rfl
  | cons m ms ih =>
    by_cases hm : lib.finds b m = true
    · have hnext : lib.playOrPass lib.finds b m = lib.makeMove b m := by simp [playOrPass, hm]
      by_cases hover : (lib.isGameOver (lib.makeMove b m)).1 = .none
      · simp [loop, fensFrom, fenStep, hm, hover, hnext, ih, Except.map]
      · have hstop : ((lib.isGameOver (lib.makeMove b m)).1 != .none) = true := by simp [hover]
        simp [loop, fensFrom, fenStep, hm, hover, hstop]
    · have hnext : lib.playOrPass lib.finds b m = lib.makeNullMove b := by simp [playOrPass, hm]
      simp [loop, fensFrom, fenStep, hm, hnext, ih, Except.map]

theorem stops_fenStep : Stops lib.fenStep (lib.playOrPass lib.finds) b ms i ↔
    lib.EndsAt lib.finds b ms i := by
  constructor
  · rintro ⟨m, x, hm, hstep⟩
    unfold fenStep at hstep
    split_ifs at hstep with hf
    · exact ⟨m, hm, hf, bne_iff_ne.mp (Prod.mk.inj (Except.ok.inj hstep)).2⟩
    · cases (Prod.mk.inj (Except.ok.inj hstep)).2
  · rintro ⟨m, hm, hf, hover⟩
    refine ⟨m, some (lib.getFen (lib.makeMove (lib.reached lib.finds b ms i) m)), hm, ?_⟩
    show lib.fenStep (lib.reached lib.finds b ms i) m = _
    rw [fenStep, if_pos hf, bne_iff_ne.mpr hover]

theorem breaks_fensFrom (b : lib.Board) (ms : List Chess.Move) :
    Breaks (lib.EndsAt lib.finds b ms) ms.length (lib.fensFrom b ms).length := by
  have h := (loop_spec (loop_fenStep b ms)).1
  have hstops : Stops lib.fenStep (lib.playOrPass lib.finds) b ms = lib.EndsAt lib.finds b ms :=
    funext fun _ => propext stops_fenStep
  rwa [hstops] at h

theorem fensFrom_getElem? {e : Option String} (h : (lib.fensFrom b ms)[i]? = some e) :
    ∃ m, ms[i]? = some m ∧
      e = if lib.finds (lib.reached lib.finds b ms i) m = true then
        some (lib.getFen (lib.makeMove (lib.reached lib.finds b ms i) m)) else none := by
  obtain ⟨m, stop, hm, hstep⟩ := (loop_spec (loop_fenStep b ms)).2 i e h
  refine ⟨m, hm, ?_⟩
  unfold fenStep at hstep
  split_ifs at hstep with hf
  · have hf : lib.finds (lib.reached lib.finds b ms i) m = true := hf
    rw [if_pos hf]
    exact (Prod.mk.inj (Except.ok.inj hstep)).1.symm
  · have hf : ¬ lib.finds (lib.reached lib.finds b ms i) m = true := hf
    rw [if_neg hf]
    exact (Prod.mk.inj (Except.ok.inj hstep)).1.symm

theorem getFenListFromGame_eq_some {fens : List (Option String)} :
    lib.getFenListFromGame ms = some fens ↔ ms ≠ [] ∧ fens = lib.fensFrom lib.start ms := by
  cases ms with
  | nil => simp [getFenListFromGame]
  | cons m ms => simp [getFenListFromGame, eq_comm]

end Chess.Library

/-- The list has an entry for each move up to the first one that is legal and
ends the game. The entry is null for an illegal move, and otherwise the FEN of
the position after it. -/
theorem getFenListFromGame_spec (lib : Chess.Library) (hgen : lib.GeneratesByPiece)
    (moves : List Chess.Move) (fens : List (Option String))
    (h : lib.getFenListFromGame moves = some fens) :
    fens.length ≤ moves.length ∧
    (∀ i m, i < fens.length → moves[i]? = some m →
      (fens[i]? = some none ↔
        lib.isLegal (lib.reached lib.isLegal lib.start moves i) m = false) ∧
      (lib.isLegal (lib.reached lib.isLegal lib.start moves i) m = true →
        fens[i]? =
          some (some (lib.getFen
            (lib.makeMove (lib.reached lib.isLegal lib.start moves i) m))))) ∧
    Breaks (lib.EndsAt lib.isLegal lib.start moves) moves.length fens.length := by
  obtain ⟨-, rfl⟩ := Chess.Library.getFenListFromGame_eq_some.mp h
  have hbreaks := Chess.Library.breaks_fensFrom lib.start moves
  refine ⟨hbreaks.le, fun i m hi hm => ?_, ?_⟩
  · obtain ⟨e, he⟩ : ∃ e, (lib.fensFrom lib.start moves)[i]? = some e :=
      ⟨_, List.getElem?_eq_getElem hi⟩
    obtain ⟨m', hm', rfl⟩ := Chess.Library.fensFrom_getElem? he
    obtain rfl : m = m' := by simpa using hm.symm.trans hm'
    rw [Chess.Library.finds_eq_isLegal hgen] at he
    rw [he]
    cases lib.isLegal (lib.reached lib.isLegal lib.start moves i) m <;> simp
  · rwa [Chess.Library.finds_eq_isLegal hgen] at hbreaks

theorem generatesByPiece_rulesLibrary : rulesLibrary.GeneratesByPiece :=
  rulesLibrary_followsRules.generatesByPiece fun q => ⟨q, rfl⟩

/-- 1. e4, in the numbering of the chess library. -/
def kingsPawn : Chess.Move := .make (Chess.squareAt 52) (Chess.squareAt 36)

/-- The answer to it, which White cannot make. -/
def kingsReply : Chess.Move := .make (Chess.squareAt 12) (Chess.squareAt 28)

theorem not_isLegal_kingsReply : rulesLibrary.isLegal Played.initial kingsReply = false := by
  rw [Bool.eq_false_iff]
  intro h
  have hmem := List.contains_iff_mem.mp h
  rw [rulesLibrary_followsRules.legalmoves Played.initial .initial .all kingsReply rfl] at hmem
  obtain ⟨m, hm, -, k, -, hcode⟩ := hmem
  have hsource : 12 = Position.initial.source m :=
    squareAt_inj.mp (congrArg Chess.Move.source hcode)
  cases m with
  | quiet x s | capture x s =>
    obtain rfl : 12 = x := hsource
    exact absurd hm.1.2.2.1 (by decide)
  | enPassant x s =>
    obtain rfl : 12 = x := hsource
    exact absurd hm.1.2.2.2.1 (by decide)
  | castle v =>
    have hking : 12 = kingStartingsquare .white := hsource
    exact absurd hking (by decide)

/-- The position after White's null move. -/
def passed : Played := rulesLibrary.makeNullMove Played.initial

theorem isLegal_kingsReply : rulesLibrary.isLegal passed kingsReply = true := by
  have hlegal : passed.position.legal (.quiet 12 28) := by decide +kernel
  have hcode : kingsReply = passed.position.code (.quiet 12 28) := by decide +kernel
  exact List.contains_iff_mem.mpr ((rulesLibrary_followsRules.legalmoves passed passed .all
    kingsReply rfl).mpr ⟨_, hlegal, rfl, .queen, by decide, hcode⟩)

theorem kingsReply_getFenListFromGame :
    ∃ fens, rulesLibrary.getFenListFromGame [kingsReply, kingsReply] = some fens ∧
      fens.length = 2 ∧ fens[0]? = some none ∧
      fens[1]? = some (some (rulesLibrary.getFen (rulesLibrary.makeMove passed kingsReply))) := by
  have hpassed : rulesLibrary.reached rulesLibrary.isLegal rulesLibrary.start
      [kingsReply, kingsReply] 1 = passed :=
    Chess.Library.reached_one_of_not_legal not_isLegal_kingsReply
  obtain ⟨-, hentries, hbreaks⟩ := getFenListFromGame_spec rulesLibrary
    generatesByPiece_rulesLibrary [kingsReply, kingsReply]
    (rulesLibrary.fensFrom rulesLibrary.start [kingsReply, kingsReply]) rfl
  have hlen : (rulesLibrary.fensFrom rulesLibrary.start [kingsReply, kingsReply]).length = 2 := by
    rcases hbreaks with ⟨i, hi, ⟨⟨m, hm, hlegal, -⟩, -⟩, hlen⟩ | ⟨-, hlen⟩
    · obtain rfl | rfl : i = 0 ∨ i = 1 := by
        simp only [List.length_cons, List.length_nil] at hi
        omega
      · obtain rfl : kingsReply = m := by simpa using hm
        exact absurd hlegal (Bool.eq_false_iff.mp not_isLegal_kingsReply)
      · exact hlen
    · exact hlen
  have hfirst := (hentries 0 kingsReply (by omega) rfl).1
  have hsecond := (hentries 1 kingsReply (by omega) rfl).2
  rw [hpassed] at hsecond
  exact ⟨_, rfl, hlen, hfirst.mpr not_isLegal_kingsReply, hsecond isLegal_kingsReply⟩

end SmakChess
