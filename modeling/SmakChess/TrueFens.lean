import SmakChess.RulesLibrary
import SmakChess.Play

/-! A legal game, stored ply by ply, and the positions the list gives for it. -/

namespace SmakChess

namespace Position

def stored (p : Position) (ply : Nat) (m : Move) : StoredMove :=
  ⟨ply, p.typeOf m, p.source m, p.target m⟩

def storedFrom : Position → Nat → List Move → List StoredMove
  | _, _, [] => []
  | p, ply, m :: ms => p.stored ply m :: (p.play m).storedFrom (ply + 1) ms

/-- Every ply is of type normal. -/
def plainGame : Position → List Move → Prop
  | _, [] => True
  | p, m :: ms => p.typeOf m = .normal ∧ (p.play m).plainGame ms

/-- The square behind a pawn that has made two steps is empty. -/
def PassedEmpty (p : Position) : Prop :=
  ∀ s, p.enPassant = some s → p.board s = .emptySquare

end Position

/-- The library calls none of the positions before the last one final. -/
def GoesOn (lib : Chess.Library) : lib.Board → Position → List Move → Prop
  | b, p, m :: n :: ms =>
    (lib.isGameOver (lib.makeMove b (p.code m))).1 = .none ∧
      GoesOn lib (lib.makeMove b (p.code m)) (p.play m) (n :: ms)
  | _, _, _ => True

/-- One entry a ply, none of them null, with the FEN of the position after it. -/
def YieldsTrueFens (lib : Chess.Library) (id : Int) (ms : List Move) : Prop :=
  ∃ body, lib.fenResponse id (Position.initial.storedFrom 1 ms) = .ok body ∧
    List.Forall₂ (fun e q => ∃ dto : FenDTO, e = some dto ∧ IsFen dto.fenString q) body
      (Played.initial.positionsFrom ms)

section Plies

variable {p : Position} {m : Move} {x s : Nat}

theorem between_two (h : fileOf x = fileOf s) (hg : gap (rowOf x) (rowOf s) = 2) :
    between x s = [(x + s) / 2] := by
  have hf : gap (fileOf x) (fileOf s) = 0 := by simp [gap, h]
  simp [between, hf, hg]

theorem passedEmpty_play (hl : p.legal m) : (p.play m).PassedEmpty := by
  intro t ht
  cases m with
  | quiet x s =>
    simp only [Position.play, Position.enPassantAfter] at ht ⊢
    split_ifs at ht with hpawn
    obtain rfl := Option.some.inj ht
    obtain ⟨hb, hg⟩ := hpawn
    have hr := hl.1.2.2.2.2
    simp only [Position.reaches, hb, Bool.and_eq_true, Bool.or_eq_true, beq_iff_eq] at hr
    obtain ⟨hfile, hrow⟩ := hr
    have hclear : clear p.board x s = true := by
      rcases hrow with h1 | ⟨-, h⟩
      · exfalso
        cases hc : p.turn <;> simp only [hc, ahead, beq_iff_eq, gap] at h1 hg <;> omega
      · exact h
    rw [clear, between_two hfile hg] at hclear
    have hmid : p.board ((x + s) / 2) = .emptySquare := by simpa using hclear
    have hne : (x + s) / 2 ≠ x ∧ (x + s) / 2 ≠ s := by
      simp only [gap, rowOf, fileOf] at hg hfile
      omega
    simp only [Position.boardAfter]
    rw [Function.update_of_ne hne.2, Function.update_of_ne hne.1, hmid]
  | capture x s => cases ht
  | enPassant x s => cases ht
  | castle v => cases ht

theorem toMove_stored (ply : Nat) :
    (p.stored ply m).toMove =
      .make (Chess.squareAt (p.source m)) (Chess.squareAt (p.target m)) := by
  simp [StoredMove.toMove, StoredMove.toDto, MoveDTO.toMove, Position.stored,
    intToSquare_natCast]

theorem source_lt (hl : p.legal m) : p.source m < 64 := by
  cases m with
  | quiet x s | capture x s | enPassant x s => exact hl.1.1
  | castle v =>
    simp only [Position.source]
    cases p.turn <;> decide

theorem not_legal_step_of_enPassant (he : p.PassedEmpty) (hl : p.legal (.enPassant x s)) :
    ¬ p.legal (.quiet x s) ∧ ¬ p.legal (.capture x s) := by
  obtain ⟨⟨-, -, hsq, hb, ha, -⟩, -⟩ := hl
  constructor
  · rintro ⟨⟨-, -, -, -, hr⟩, -⟩
    simp only [Position.reaches, attacks, hb, Bool.and_eq_true, beq_iff_eq, gap] at hr ha
    omega
  · rintro ⟨⟨-, -, -, ho, -⟩, -⟩
    rw [he s hsq] at ho
    cases ho

theorem not_legal_step_of_castle {v : Wing} (hl : p.legal (.castle v)) :
    ¬ p.legal (.quiet (kingStartingsquare p.turn) (rookStartingsquare p.turn v)) ∧
      ¬ p.legal (.capture (kingStartingsquare p.turn) (rookStartingsquare p.turn v)) := by
  obtain ⟨⟨-, -, hrook, -, -⟩, -⟩ := hl
  constructor
  · rintro ⟨⟨-, -, -, hempty, -⟩, -⟩
    rw [hrook] at hempty
    cases hempty
  · rintro ⟨⟨-, -, -, ho, -⟩, -⟩
    rw [hrook] at ho
    cases hc : p.turn <;> rw [hc] at ho <;> cases ho

variable {lib : Chess.Library} {shows : lib.Board → Played → Prop} {b : lib.Board}
  {q : Played}

theorem finds_stored_iff (hr : lib.FollowsRules shows) (hb : shows b q)
    (he : q.position.PassedEmpty) (hl : q.position.legal m) (ply : Nat) :
    lib.finds b (q.position.stored ply m).toMove = true ↔ q.position.typeOf m = .normal := by
  rw [toMove_stored, finds_iff hr hb (source_lt hl)]
  cases m with
  | quiet x s => simp [Position.typeOf, Position.source, Position.target, hl]
  | capture x s => simp [Position.typeOf, Position.source, Position.target, hl]
  | enPassant x s =>
    have hno := not_legal_step_of_enPassant he hl
    simp [Position.typeOf, Position.source, Position.target, hno]
  | castle v =>
    have hno := not_legal_step_of_castle hl
    simp [Position.typeOf, Position.source, Position.target, hno]

theorem toMove_stored_eq_code (h : p.typeOf m = .normal) (ply : Nat) :
    (p.stored ply m).toMove = p.code m := by
  rw [toMove_stored]
  simp [Position.code, Position.codeWith, Chess.Move.make, h]

/-- The loop gives the positions of the game as long as every ply is of type
normal and no position before the last one is called final. -/
theorem forall₂_fensFrom_iff (hr : lib.FollowsRules shows) (hb : shows b q)
    (he : q.position.PassedEmpty) {ms : List Move} (hl : q.position.legalGame ms) (ply : Nat) :
    List.Forall₂ (fun e q => ∃ fen, e = some fen ∧ IsFen fen q)
        (lib.fensFrom b ((q.position.storedFrom ply ms).map StoredMove.toMove))
        (q.positionsFrom ms) ↔
      q.position.plainGame ms ∧ GoesOn lib b q.position ms := by
  induction ms generalizing b q ply with
  | nil => simp [Position.storedFrom, Position.plainGame, GoesOn, Played.positionsFrom,
      Chess.Library.fensFrom]
  | cons m ms ih =>
    obtain ⟨hm, hms⟩ := hl
    have hfinds := finds_stored_iff hr hb he hm ply
    by_cases hplain : q.position.typeOf m = .normal
    · have hcode : (q.position.stored ply m).toMove = q.position.code m :=
        toMove_stored_eq_code hplain ply
      have hfound : lib.finds b (q.position.code m) = true := hcode ▸ hfinds.mpr hplain
      have hstep : shows (lib.makeMove b (q.position.code m)) (q.play m) :=
        hr.makeMove b q m hb hm
      have hfen : IsFen (lib.getFen (lib.makeMove b (q.position.code m))) (q.play m) :=
        hr.getFen _ _ hstep
      have hrest := ih hstep (passedEmpty_play hm) hms (ply + 1)
      simp only [Position.storedFrom, Played.positionsFrom, Position.plainGame, List.map_cons,
        hcode, Chess.Library.fensFrom_of_finds _ hfound, List.forall₂_cons, Option.some.injEq,
        exists_eq_left', hfen, hplain, true_and]
      cases ms with
      | nil => simp [Position.storedFrom, Played.positionsFrom, Position.plainGame, GoesOn,
          Chess.Library.fensFrom]
      | cons n ms =>
        by_cases hover : (lib.isGameOver (lib.makeMove b (q.position.code m))).1 = .none
        · rw [if_pos hover, GoesOn]
          simpa only [hover, true_and, Played.position_play] using hrest
        · rw [if_neg hover, GoesOn]
          simp [hover, Played.positionsFrom]
    · have hnot : lib.finds b (q.position.stored ply m).toMove = false := by
        rw [← Bool.not_eq_true, hfinds]
        exact hplain
      simp [Position.storedFrom, Played.positionsFrom, Position.plainGame,
        Chess.Library.fensFrom, hnot, hplain]

end Plies

theorem passedEmpty_initial : Position.initial.PassedEmpty := by
  intro s hs
  cases hs

theorem map_fenString_fenDtos (lib : Chess.Library) (id : Int) (moves : List Chess.Move)
    (fens : List (Option String)) :
    (lib.fenDtos id moves fens).map (Option.map FenDTO.fenString) = fens := by
  apply List.ext_getElem?
  intro i
  simp only [Chess.Library.fenDtos, List.getElem?_map, List.getElem?_mapIdx, Option.map_map]
  cases fens[i]? with
  | none => rfl
  | some e => cases e <;> rfl

theorem forall₂_fenDtos_iff {lib : Chess.Library} {id : Int} {moves : List Chess.Move}
    {fens : List (Option String)} {qs : List Played} :
    List.Forall₂ (fun e q => ∃ dto : FenDTO, e = some dto ∧ IsFen dto.fenString q)
        (lib.fenDtos id moves fens) qs ↔
      List.Forall₂ (fun e q => ∃ fen, e = some fen ∧ IsFen fen q) fens qs := by
  conv_rhs => rw [← map_fenString_fenDtos lib id moves fens, List.forall₂_map_left_iff]
  simp only [Option.map_eq_some_iff, exists_exists_and_eq_and]

theorem yieldsTrueFens_cons_iff {lib : Chess.Library} {shows : lib.Board → Played → Prop}
    (hr : lib.FollowsRules shows) (id : Int) {m : Move} {ms : List Move}
    (hl : Position.initial.legalGame (m :: ms)) :
    YieldsTrueFens lib id (m :: ms) ↔
      Position.initial.plainGame (m :: ms) ∧ GoesOn lib lib.start .initial (m :: ms) := by
  have hrun := forall₂_fensFrom_iff hr hr.start passedEmpty_initial hl 1
  rcases lib.fenResponse_cases id (Position.initial.storedFrom 1 (m :: ms)) with
    ⟨hnil, -⟩ | ⟨-, he⟩
  · cases hnil
  · refine Iff.trans ?_ hrun
    constructor
    · rintro ⟨body, hbody, h⟩
      obtain rfl := FenResponse.ok.inj (hbody.symm.trans he)
      exact forall₂_fenDtos_iff.mp h
    · intro h
      exact ⟨_, he, forall₂_fenDtos_iff.mpr h⟩

/-- A legal game gets its true positions when it has a ply, has no castling, no
en-passant capture and no promotion, and no position before its last is one that
the library calls final. -/
theorem yieldsTrueFens_iff (lib : Chess.Library) (shows : lib.Board → Played → Prop)
    (hr : lib.FollowsRules shows) (id : Int) (ms : List Move)
    (hl : Position.initial.legalGame ms) :
    YieldsTrueFens lib id ms ↔
      ms ≠ [] ∧ Position.initial.plainGame ms ∧ GoesOn lib lib.start .initial ms := by
  cases ms with
  | nil =>
    simp only [ne_eq, not_true_eq_false, false_and, iff_false]
    rintro ⟨body, he, -⟩
    cases he
  | cons m ms => simpa using yieldsTrueFens_cons_iff hr id hl

theorem two_plies_yieldTrueFens :
    YieldsTrueFens rulesLibrary 1 [.quiet 52 36, .quiet 12 28] := by
  have hl : Position.initial.legalGame [.quiet 52 36, .quiet 12 28] := by decide +kernel
  refine (yieldsTrueFens_iff rulesLibrary Eq rulesLibrary_followsRules 1 _ hl).mpr
    ⟨by simp, ⟨rfl, rfl, trivial⟩, ?_, trivial⟩
  have hmake := rulesLibrary_followsRules.makeMove _ _ _ rulesLibrary_followsRules.start hl.1
  rw [Played.position_initial] at hmake
  rw [hmake]
  exact isGameOver_rulesLibrary hl.2.1 (by decide)

/-- 1. e4 a6 2. e5 d5 3. exd6 -/
def enPassantGame : List Move :=
  [.quiet 52 36, .quiet 8 16, .quiet 36 28, .quiet 11 27, .enPassant 28 19]

theorem enPassantGame_not_yieldsTrueFens :
    Position.initial.legalGame enPassantGame ∧
      ¬ YieldsTrueFens rulesLibrary 1 enPassantGame := by
  have hl : Position.initial.legalGame enPassantGame := by decide +kernel
  refine ⟨hl, fun h => ?_⟩
  have hplain := ((yieldsTrueFens_cons_iff rulesLibrary_followsRules 1 hl).mp h).1
  cases hplain.2.2.2.2.1

end SmakChess
