import SmakChess.CodedGame
import SmakChess.FenReading

/-! `GameOfFens`, and the list of positions that the controller makes of the same
moves. -/

namespace SmakChess

/-- A square from its number in the chess library, where a1 is 0. -/
def rawSquare (sq : Int) : Chess.Square := ⟨sq / 8, sq % 8⟩

/-- `none` when the type is a null pointer. Promotions are to a queen. -/
def MoveDTO.toTypedMove (d : MoveDTO) : Option Chess.Move :=
  d.moveType.map fun t =>
    ⟨t, rawSquare (d.fromSquare.getD 0), rawSquare (d.toSquare.getD 0),
      if t = .promotion then .queen else .knight⟩

namespace Chess.Library

variable (lib : Chess.Library)

/-- The position before the moves, and the one after each of them. -/
def positionsFrom (b : lib.Board) : List Chess.Move → List String
  | [] => [lib.getFen b]
  | m :: ms => lib.getFen b :: positionsFrom (lib.makeMove b m) ms

def gameOfFens (moves : List MoveDTO) : Option (List String) :=
  (moves.mapM MoveDTO.toTypedMove).map (lib.positionsFrom lib.start)

/-- `none` when `at` throws. -/
def getPositionByPly (positions : List String) (plyNumber : Nat) : Option String :=
  if positions.length < plyNumber then some "" else positions[plyNumber]?

/-- The board after the first moves of the list. -/
def boardAfterPly (moves : List MoveDTO) (ply : Nat) : lib.Board :=
  ((moves.take ply).filterMap MoveDTO.toTypedMove).foldl lib.makeMove lib.start

/-- What a ply number is to give: nothing where the game has ended before it. -/
def fenByPly (moves : List MoveDTO) (ply : Nat) : String :=
  if ply ≤ moves.length then lib.getFen (lib.boardAfterPly moves ply) else ""

/-- The game has a FEN for every ply number, or the empty text. -/
def GivesByPly (moves : List MoveDTO) (ply : Nat) : Prop :=
  ∃ positions, lib.gameOfFens moves = some positions ∧
    positions.length = moves.length + 1 ∧
    getPositionByPly positions ply = some (lib.fenByPly moves ply)

/-- Up to the ply where the list ends, both give the same FEN for a ply. -/
def PathsAgree (moves : List MoveDTO) : Prop :=
  ∀ positions fens, lib.gameOfFens moves = some positions →
    lib.getFenListFromGame (moves.map MoveDTO.toMove) = some fens →
    ∀ k, 1 ≤ k → k ≤ fens.length →
      ∃ fen, fens[k - 1]? = some (some fen) ∧ getPositionByPly positions k = some fen

/-- A piece that moves to an empty square leaves the others where they are. -/
def MovesOne : Prop :=
  ∀ b x s t, x < 64 → s < 64 → t < 64 →
    lib.pieceAt b (Chess.squareAt x) ≠ none → lib.pieceAt b (Chess.squareAt s) = none →
    t ≠ x → t ≠ s →
    lib.pieceAt (lib.makeMove b (.make (Chess.squareAt x) (Chess.squareAt s))) (Chess.squareAt t) =
      lib.pieceAt b (Chess.squareAt t)

def FenTellsPieces : Prop :=
  ∀ b b', lib.getFen b = lib.getFen b' →
    ∀ s < 64, lib.pieceAt b (Chess.squareAt s) = lib.pieceAt b' (Chess.squareAt s)

end Chess.Library

def gameDtos (ms : List Move) : List MoveDTO :=
  (Position.initial.storedFrom 1 ms).map StoredMove.toDto

/-- The number that a square of the board has in the chess library. -/
def flipped (s : Nat) : Nat := 8 * (7 - rowOf s) + fileOf s

section ByPly

variable {lib : Chess.Library} {moves : List MoveDTO} {ply : Nat}

theorem positionsFrom_length (b : lib.Board) (ms : List Chess.Move) :
    (lib.positionsFrom b ms).length = ms.length + 1 := by
  induction ms generalizing b with
  | nil => rfl
  | cons m ms ih => simp [Chess.Library.positionsFrom, ih]

theorem positionsFrom_getElem? (b : lib.Board) (ms : List Chess.Move) (h : ply ≤ ms.length) :
    (lib.positionsFrom b ms)[ply]? = some (lib.getFen ((ms.take ply).foldl lib.makeMove b)) := by
  induction ms generalizing b ply with
  | nil =>
    obtain rfl : ply = 0 := Nat.le_zero.mp h
    rfl
  | cons m ms ih =>
    cases ply with
    | zero => rfl
    | succ ply => exact ih (lib.makeMove b m) (Nat.le_of_succ_le_succ h)

theorem toTypedMove_of_moveType {d : MoveDTO} (h : d.moveType ≠ none) :
    ∃ m, d.toTypedMove = some m := by
  obtain ⟨t, ht⟩ := Option.ne_none_iff_exists'.mp h
  simp [MoveDTO.toTypedMove, ht]

theorem mapM_toTypedMove_of_moveType (h : ∀ d ∈ moves, d.moveType ≠ none) :
    ∃ ms, moves.mapM MoveDTO.toTypedMove = some ms ∧ ms.length = moves.length ∧
      ∀ k, (moves.take k).filterMap MoveDTO.toTypedMove = ms.take k := by
  induction moves with
  | nil => exact ⟨[], rfl, rfl, fun k => by simp⟩
  | cons d ds ih =>
    obtain ⟨m, hm⟩ := toTypedMove_of_moveType (h d List.mem_cons_self)
    obtain ⟨ms, hms, hlen, htake⟩ := ih fun e he => h e (List.mem_cons_of_mem d he)
    refine ⟨m :: ms, by simp [hm, hms], by simp [hlen], fun k => ?_⟩
    cases k with
    | zero => rfl
    | succ k => simp [hm, htake k]

theorem exists_gameOfFens (lib : Chess.Library) (h : ∀ d ∈ moves, d.moveType ≠ none) :
    ∃ ms : List Chess.Move,
      lib.gameOfFens moves = some (lib.positionsFrom lib.start ms) ∧ ms.length = moves.length ∧
        ∀ k, (moves.take k).filterMap MoveDTO.toTypedMove = ms.take k := by
  obtain ⟨ms, hms, hlen, htake⟩ := mapM_toTypedMove_of_moveType h
  refine ⟨ms, ?_, hlen, htake⟩
  rw [Chess.Library.gameOfFens, hms]
  rfl

/-- The position past the last is asked of `at`, which throws. -/
theorem not_givesByPly_length_succ (h : ∀ d ∈ moves, d.moveType ≠ none) :
    ¬ lib.GivesByPly moves (moves.length + 1) := by
  obtain ⟨ms, hgame, hlen, -⟩ := exists_gameOfFens lib h
  have hcount := positionsFrom_length lib.start ms
  rintro ⟨positions, hp, -, hfen⟩
  rw [hgame] at hp
  obtain rfl := Option.some.inj hp
  rw [Chess.Library.getPositionByPly, if_neg (by omega),
    List.getElem?_eq_none (by omega)] at hfen
  cases hfen

theorem givesByPly_of_ne (h : ∀ d ∈ moves, d.moveType ≠ none) (hne : ply ≠ moves.length + 1) :
    lib.GivesByPly moves ply := by
  obtain ⟨ms, hgame, hlen, htake⟩ := exists_gameOfFens lib h
  have hcount := positionsFrom_length lib.start ms
  refine ⟨_, hgame, by omega, ?_⟩
  rcases Nat.lt_or_gt_of_ne hne with hle | hgt
  · rw [Chess.Library.getPositionByPly, if_neg (by omega),
      positionsFrom_getElem? lib.start ms (by omega), Chess.Library.fenByPly,
      if_pos (by omega), Chess.Library.boardAfterPly, htake]
  · rw [Chess.Library.getPositionByPly, if_pos (by omega), Chess.Library.fenByPly,
      if_neg (by omega)]

end ByPly

section First

variable {lib : Chess.Library} {shows : lib.Board → Played → Prop} {m : Move} {ms : List Move}
  {s : Nat}

theorem rawSquare_eq (hs : s < 64) : rawSquare s = Chess.squareAt (flipped s) := by
  simp only [rawSquare, Chess.squareAt, flipped, rowOf, fileOf, Chess.Square.mk.injEq]
  omega

/-- White's first move is one of a piece on the last two rows to an empty
square. -/
theorem first_move (hl : Position.initial.legal m) : ∃ x s, m = .quiet x s ∧
    48 ≤ x ∧ x < 64 ∧ 16 ≤ s ∧ s < 48 := by
  have hrow : ∀ x < 64, (Position.initial.board x).owner = some .white → 48 ≤ x := by
    decide +kernel
  have hempty : ∀ s < 64, Position.initial.board s = .emptySquare → 16 ≤ s ∧ s < 48 := by
    decide +kernel
  cases m with
  | quiet x s =>
    obtain ⟨hx, hs, ho, he, -⟩ := hl.1
    obtain ⟨h₁, h₂⟩ := hempty s hs he
    exact ⟨x, s, rfl, hrow x hx ho, hx, h₁, h₂⟩
  | capture x s =>
    obtain ⟨hx, hs, ho, ho', ha⟩ := hl.1
    have hnone : ∀ x < 64, (Position.initial.board x).owner = some .white → ∀ s < 64,
        (Position.initial.board s).owner = some .black →
          attacks Position.initial.board x s = false := by
      decide +kernel
    rw [hnone x hx ho s hs ho'] at ha
    cases ha
  | enPassant x s => cases hl.1.2.2.1
  | castle v =>
    have hblocked : ¬ Position.initial.legal (.castle v) := by
      cases v <;> decide +kernel
    exact absurd hl hblocked

theorem typeOf_first {x : Nat} (h : 16 ≤ s) :
    Position.initial.typeOf (.quiet x s) = .normal := by
  have hrow : ¬ Position.initial.promotes x s := by
    rintro ⟨-, hlast⟩
    have hlast : s / 8 = 0 := hlast
    omega
  exact if_neg hrow

def StoredMove.toTyped (m : StoredMove) : Chess.Move :=
  ⟨m.moveType, rawSquare m.fromSquare, rawSquare m.toSquare,
    if m.moveType = .promotion then .queen else .knight⟩

theorem mapM_toTypedMove (ms : List StoredMove) :
    (ms.map StoredMove.toDto).mapM MoveDTO.toTypedMove = some (ms.map StoredMove.toTyped) := by
  induction ms with
  | nil => rfl
  | cons m ms ih =>
    have hm : m.toDto.toTypedMove = some m.toTyped := rfl
    simp [hm, ih]

theorem positionsFrom_head? (b : lib.Board) (ms : List Chess.Move) :
    (lib.positionsFrom b ms).head? = some (lib.getFen b) := by
  cases ms <;> rfl

/-- In the raw numbers the first move is one of Black's, on the other side of the
board. -/
theorem first_fen_ne (hr : lib.FollowsRules shows) (hmoves : lib.MovesOne)
    (hfen : lib.FenTellsPieces) (hl : Position.initial.legal m) :
    lib.getFen (lib.makeMove lib.start (Position.initial.stored 1 m).toTyped) ≠
      lib.getFen (lib.makeMove lib.start (Position.initial.code m)) := by
  obtain ⟨x, s, rfl, hx₁, hx₂, hs₁, hs₂⟩ := first_move hl
  have hpiece {t : Nat} (ht : t < 64) :
      lib.pieceAt lib.start (Chess.squareAt t) = (Position.initial.board t).kind :=
    hr.pieceAt lib.start .initial t hr.start ht
  have hman : ∀ t < 64, t < 16 ∨ 48 ≤ t → (Position.initial.board t).kind ≠ none := by
    decide +kernel
  have hempty : ∀ t < 64, 16 ≤ t → t < 48 → (Position.initial.board t).kind = none := by
    decide +kernel
  have hfx : flipped x < 16 := by
    simp only [flipped, rowOf, fileOf]
    omega
  have hfs : 16 ≤ flipped s ∧ flipped s < 48 := by
    simp only [flipped, rowOf, fileOf]
    omega
  have htyped : (Position.initial.stored 1 (.quiet x s)).toTyped =
      .make (Chess.squareAt (flipped x)) (Chess.squareAt (flipped s)) := by
    rw [← rawSquare_eq hx₂, ← rawSquare_eq (by omega : s < 64)]
    simp [StoredMove.toTyped, Position.stored, typeOf_first hs₁, Position.source,
      Position.target, Chess.Move.make]
  have hkept := hmoves lib.start (flipped x) (flipped s) x (by omega) (by omega) hx₂
    (by rw [hpiece (by omega)]; exact hman _ (by omega) (.inl hfx))
    (by rw [hpiece (by omega)]; exact hempty _ (by omega) hfs.1 hfs.2) (by omega) (by omega)
  have hleft : lib.pieceAt (lib.makeMove lib.start (Position.initial.code (.quiet x s)))
      (Chess.squareAt x) = none := by
    have hmade : shows (lib.makeMove lib.start (Position.initial.code (.quiet x s)))
        (Played.initial.play (.quiet x s)) := hr.makeMove lib.start .initial _ hr.start hl
    rw [hr.pieceAt _ _ x hmade hx₂]
    have hne : x ≠ s := by omega
    simp [Position.play, Position.boardAfter, Function.update_of_ne hne, SmakPiece.kind]
  intro h
  have hsame := hfen _ _ h x hx₂
  rw [htyped, hkept, hleft, hpiece hx₂] at hsame
  exact hman x hx₂ (.inr hx₁) hsame

theorem pathsAgree_nil : lib.PathsAgree (gameDtos []) := by
  intro positions fens _ hfens
  cases hfens

/-- They differ in the first position already. -/
theorem not_pathsAgree_cons {m : Move} (hr : lib.FollowsRules shows) (hmoves : lib.MovesOne)
    (hfen : lib.FenTellsPieces) (hl : Position.initial.legalGame (m :: ms)) :
    ¬ lib.PathsAgree (gameDtos (m :: ms)) := by
  intro h
  have hcode : (Position.initial.stored 1 m).toMove = Position.initial.code m := by
    obtain ⟨x, s, rfl, -, -, hs, -⟩ := first_move hl.1
    exact toMove_stored_eq_code (typeOf_first hs) 1
  have hfound : lib.finds lib.start (Position.initial.code m) = true :=
    finds_code (q := .initial) hr hr.start hl.1
  have hdtos : (gameDtos (m :: ms)).map MoveDTO.toMove = Position.initial.code m ::
      ((Position.initial.play m).storedFrom 2 ms).map StoredMove.toMove := by
    rw [← hcode]
    simp [gameDtos, Position.storedFrom, StoredMove.toMove]
  have hpositions : lib.gameOfFens (gameDtos (m :: ms)) = some (lib.positionsFrom lib.start
      ((Position.initial.storedFrom 1 (m :: ms)).map StoredMove.toTyped)) := by
    rw [Chess.Library.gameOfFens, gameDtos, mapM_toTypedMove]
    rfl
  have hfens : lib.getFenListFromGame ((gameDtos (m :: ms)).map MoveDTO.toMove) =
      some (lib.fensFrom lib.start ((gameDtos (m :: ms)).map MoveDTO.toMove)) := by
    rw [hdtos]
    rfl
  obtain ⟨fen, hfen₁, hfen₂⟩ := h _ _ hpositions hfens 1 le_rfl (by
    rw [hdtos, Chess.Library.fensFrom_of_finds _ hfound, List.length_cons]
    omega)
  rw [hdtos, Chess.Library.fensFrom_of_finds _ hfound] at hfen₁
  have hfirst : some (some (lib.getFen (lib.makeMove lib.start (Position.initial.code m)))) =
      some (some fen) := hfen₁
  have hsecond : Chess.Library.getPositionByPly (lib.positionsFrom lib.start
      ((Position.initial.storedFrom 1 (m :: ms)).map StoredMove.toTyped)) 1 =
      some (lib.getFen (lib.makeMove lib.start (Position.initial.stored 1 m).toTyped)) := by
    have hhead := positionsFrom_head?
      (lib.makeMove lib.start (Position.initial.stored 1 m).toTyped)
      (((Position.initial.play m).storedFrom 2 ms).map StoredMove.toTyped)
    rw [List.head?_eq_getElem?] at hhead
    rw [Chess.Library.getPositionByPly, if_neg (by simp [Position.storedFrom,
      Chess.Library.positionsFrom])]
    exact hhead
  rw [hsecond] at hfen₂
  refine first_fen_ne hr hmoves hfen hl.1 ?_
  rw [Option.some.inj hfen₂, Option.some.inj (Option.some.inj hfirst)]

end First

/-- A ply number one past the last is the only one that `getPositionByPly` throws
for. -/
theorem getPositionByPly_gives_iff (lib : Chess.Library) (moves : List MoveDTO)
    (h : ∀ d ∈ moves, d.moveType ≠ none) (ply : Nat) :
    lib.GivesByPly moves ply ↔ ply ≠ moves.length + 1 := by
  constructor
  · rintro hgives rfl
    exact not_givesByPly_length_succ h hgives
  · exact givesByPly_of_ne h

/-- The two paths agree on no game that has a move. -/
theorem pathsAgree_iff_no_moves (lib : Chess.Library) (shows : lib.Board → Played → Prop)
    (hr : lib.FollowsRules shows) (hmoves : lib.MovesOne) (hfen : lib.FenTellsPieces)
    (ms : List Move) (hl : Position.initial.legalGame ms) :
    lib.PathsAgree (gameDtos ms) ↔ ms = [] := by
  cases ms with
  | nil => exact iff_of_true pathsAgree_nil rfl
  | cons m ms => exact iff_of_false (not_pathsAgree_cons hr hmoves hfen hl) (List.cons_ne_nil m ms)

def squareNumber (sq : Chess.Square) : Nat := (8 * (7 - sq.rank) + sq.file).toNat

/-- The rules of chess, where a move that is not legal is made as it is written. -/
def anyMoveLibrary : Chess.Library where
  Board := Played
  start := .initial
  pieceAt := rulesLibrary.pieceAt
  legalmoves := rulesLibrary.legalmoves
  makeMove q c :=
    match q.position.withCode c with
    | some m => q.play m
    | none => q.play (.quiet (squareNumber c.source) (squareNumber c.target))
  makeNullMove := rulesLibrary.makeNullMove
  getFen := rulesLibrary.getFen
  isGameOver := rulesLibrary.isGameOver
  moveToUci := rulesLibrary.moveToUci

theorem anyMoveLibrary_followsRules : anyMoveLibrary.FollowsRules Eq where
  start := rfl
  pieceAt := rulesLibrary_followsRules.pieceAt
  legalmoves := rulesLibrary_followsRules.legalmoves
  makeMove := by
    rintro q _ m rfl hm
    simp only [anyMoveLibrary, Position.withCode_code hm]
  getFen := rulesLibrary_followsRules.getFen

theorem squareNumber_squareAt {x : Nat} (hx : x < 64) : squareNumber (Chess.squareAt x) = x := by
  simp only [squareNumber, Chess.squareAt, rowOf, fileOf]
  omega

theorem movesOne_anyMoveLibrary : anyMoveLibrary.MovesOne := by
  intro (q : Played) x s t hx hs ht _ _ hne hne'
  have hpiece (q : Played) : anyMoveLibrary.pieceAt q (Chess.squareAt t) = (q.position.board t).kind :=
    anyMoveLibrary_followsRules.pieceAt q q t rfl ht
  have hmade : anyMoveLibrary.makeMove q (.make (Chess.squareAt x) (Chess.squareAt s)) =
        q.play (.quiet x s) ∨
      anyMoveLibrary.makeMove q (.make (Chess.squareAt x) (Chess.squareAt s)) =
        q.play (.capture x s) := by
    simp only [anyMoveLibrary]
    split
    next m hm =>
      have hcode : q.position.code m = .make (Chess.squareAt x) (Chess.squareAt s) := by
        simpa using List.find?_some hm
      have htype : q.position.typeOf m = .normal := congrArg Chess.Move.typeOf hcode
      have hsource := squareAt_inj.mp (congrArg Chess.Move.source hcode)
      have htarget := squareAt_inj.mp (congrArg Chess.Move.target hcode)
      cases m with
      | quiet y u =>
        obtain rfl : y = x := hsource
        obtain rfl : u = s := htarget
        exact .inl rfl
      | capture y u =>
        obtain rfl : y = x := hsource
        obtain rfl : u = s := htarget
        exact .inr rfl
      | enPassant y u => cases htype
      | castle v => cases htype
    next =>
      left
      simp only [Chess.Move.make, squareNumber_squareAt hx, squareNumber_squareAt hs]
  have hboard (r : Played) (h : r = q.play (.quiet x s) ∨ r = q.play (.capture x s)) :
      r.position.board t = q.position.board t := by
    rcases h with rfl | rfl <;>
      simp [Position.play, Position.boardAfter, Function.update_of_ne hne,
        Function.update_of_ne hne']
  exact (hpiece _).trans ((congrArg SmakPiece.kind (hboard _ hmade)).trans (hpiece q).symm)

theorem fenTellsPieces_anyMoveLibrary : anyMoveLibrary.FenTellsPieces := by
  intro (q : Played) (q' : Played) h s hs
  have hpiece (q : Played) : anyMoveLibrary.pieceAt q (Chess.squareAt s) = (q.position.board s).kind :=
    anyMoveLibrary_followsRules.pieceAt q q s rfl hs
  have hfen := anyMoveLibrary_followsRules.getFen q q rfl
  rw [h] at hfen
  obtain ⟨hboard, -⟩ := eq_of_isFen hfen (anyMoveLibrary_followsRules.getFen q' q' rfl)
  exact (hpiece q).trans ((congrArg SmakPiece.kind (hboard s hs)).trans (hpiece q').symm)

def pawnGame : List MoveDTO := [(Position.initial.stored 1 (.quiet 52 36)).toDto]

theorem pawnGame_gives_iff : anyMoveLibrary.GivesByPly pawnGame 1 ↔ 1 ≠ pawnGame.length + 1 :=
  getPositionByPly_gives_iff anyMoveLibrary pawnGame (by simp [pawnGame, StoredMove.toDto]) 1

theorem pawnGame_not_gives :
    (∀ d ∈ pawnGame, d.moveType ≠ none) ∧ ¬ anyMoveLibrary.GivesByPly pawnGame 2 := by
  have htyped : ∀ d ∈ pawnGame, d.moveType ≠ none := by simp [pawnGame, StoredMove.toDto]
  exact ⟨htyped, not_givesByPly_length_succ htyped⟩

/-- 1. Nf3, which `GameOfFens` takes for a move of the knight on g8. -/
def knightGame : List Move := [.quiet 62 45]

theorem knightGame_legal : Position.initial.legalGame knightGame := by decide +kernel

theorem knightGame_pathsAgree_iff :
    anyMoveLibrary.PathsAgree (gameDtos knightGame) ↔ knightGame = [] :=
  pathsAgree_iff_no_moves anyMoveLibrary Eq anyMoveLibrary_followsRules movesOne_anyMoveLibrary
    fenTellsPieces_anyMoveLibrary knightGame knightGame_legal

theorem knightGame_not_pathsAgree :
    Position.initial.legalGame knightGame ∧ ¬ anyMoveLibrary.PathsAgree (gameDtos knightGame) := by
  exact ⟨knightGame_legal, not_pathsAgree_cons anyMoveLibrary_followsRules
    movesOne_anyMoveLibrary fenTellsPieces_anyMoveLibrary knightGame_legal⟩

end SmakChess
