import SmakChess.BoardGames
import SmakChess.CodedGame

/-! The page and the service that it asks: the board is moved by `chessboard.js`,
move by move, and the service has a FEN for each of these moves. -/

namespace SmakChess

/-- `uci::moveToUci` of a move without a type. -/
def Chess.Library.WritesSquares (lib : Chess.Library) : Prop :=
  ∀ x < 64, ∀ s < 64, lib.moveToUci (.make (Chess.squareAt x) (Chess.squareAt s)) =
    squareName x ++ squareName s

/-- A null move leaves the pieces where they are. -/
def Chess.Library.PassesTurn (lib : Chess.Library) (shows : lib.Board → Played → Prop) : Prop :=
  ∀ b q, shows b q → ∃ r, shows (lib.makeNullMove b) r ∧ r.position.board = q.position.board

/-- A piece goes to a square, whatever stands there. -/
def moveMan (b : Board) (x s : Nat) : Board :=
  Function.update (Function.update b x .emptySquare) s (b x)

section Found

variable {lib : Chess.Library} {shows : lib.Board → Played → Prop} {b : lib.Board} {q : Played}
  {p : Position} {m : Chess.Move} {x s : Nat}

theorem boardAfter_plain (ho : (p.board x).owner = some p.turn) (hp : ¬ p.promotes x s) :
    Function.update (Function.update p.board x .emptySquare) s (Position.crown s (p.board x)) =
      moveMan p.board x s := by
  have hcrown : Position.crown s (p.board x) = p.board x := by
    cases hb : p.board x with
    | emptySquare => rfl
    | man c k =>
      rw [hb] at ho
      obtain rfl : c = p.turn := Option.some.inj ho
      cases k with
      | pawn =>
        rw [Position.crown, if_neg]
        exact fun hrow => hp ⟨hb, hrow⟩
      | _ => rfl
  rw [hcrown, moveMan]

/-- A move that the loop finds takes a piece from one square to another. -/
theorem finds_moveMan (hr : lib.FollowsRules shows) (hb : shows b q) (htype : m.typeOf = .normal)
    (h : lib.finds b m = true) :
    ∃ x s r, x < 64 ∧ s < 64 ∧ x ≠ s ∧ m = .make (Chess.squareAt x) (Chess.squareAt s) ∧
      q.position.board x ≠ .emptySquare ∧ shows (lib.makeMove b m) r ∧
      r.position.board = moveMan q.position.board x s := by
  rw [Chess.Library.finds, List.contains_iff_mem, hr.legalmoves b q _ _ hb] at h
  obtain ⟨mv, hm, -, k, -, rfl⟩ := h
  have hcode : q.position.codeWith k mv = q.position.code mv := by
    have hplain : q.position.typeOf mv = .normal := htype
    simp [Position.code, Position.codeWith, hplain]
  have hshow := hr.makeMove b q mv hb hm
  rw [hcode]
  cases mv with
  | quiet x s | capture x s =>
    have hp : ¬ q.position.promotes x s := fun hp => by
      simp [Position.codeWith, Position.typeOf, hp] at htype
    obtain ⟨⟨hx, hs, ho, hto, -⟩, -⟩ := hm
    refine ⟨x, s, _, hx, hs, ?_, ?_, ?_, hshow, boardAfter_plain ho hp⟩
    · rintro rfl
      rw [hto] at ho
      cases hturn : q.position.turn <;> rw [hturn] at ho <;> cases ho
    · simp [Position.code, Position.codeWith, Position.typeOf, Position.source, Position.target, hp,
        Chess.Move.make]
    · intro hempty
      rw [hempty] at ho
      cases ho
  | enPassant x s => cases htype
  | castle v => cases htype

end Found

namespace Web

open Objects

/-! The pieces of a board on the squares of the page. -/

/-- The position of a board, as the page has it. -/
def positionOf (b : Board) : BoardPosition := (fenToRows (rowsOfBoard b)).get

section Positions

variable {b : Board} {square : String} {x s : Nat} {k : SmakPiece}

/-- The code of a piece. -/
def codeOf (k : SmakPiece) : Option String :=
  if charOf k = '1' then none else some (fenToPieceCode (charOf k))

theorem squareName_eq : ∀ s < 64, squareName s = columnRow (s % 8) (8 - s / 8) := by decide +kernel

theorem positionOf_squareName (hs : s < 64) : positionOf b (squareName s) = codeOf (b s) := by
  have hi : s / 8 < 8 := by omega
  have hj : s % 8 < 8 := by omega
  rw [positionOf, squareName_eq s hs, get_fenToRows (fenRows_rowsOfBoard b) hi hj,
    cellOf_rowsOfBoard hi hj, Nat.div_add_mod, codeOf]

theorem positionOf_invalid (h : validSquare square = false) : positionOf b square = none :=
  get_fenToRows_invalid (fenRows_rowsOfBoard b) h

theorem exists_squareName (h : validSquare square = true) : ∃ s < 64, square = squareName s := by
  obtain ⟨j, hj, i, hi, rfl⟩ := exists_columnRow h
  refine ⟨8 * i + j, by omega, ?_⟩
  rw [squareName_eq _ (by omega), show (8 * i + j) % 8 = j by omega, show (8 * i + j) / 8 = i by omega]

theorem squareName_inj (hx : x < 64) (hs : s < 64) (h : squareName x = squareName s) : x = s := by
  rw [squareName_eq x hx, squareName_eq s hs] at h
  obtain ⟨hfile, hrow⟩ := columnRow_inj (by omega) (by omega) (by omega) (by omega) h
  omega

theorem squareName_valid (hs : s < 64) : validSquare (squareName s) = true := by
  rw [squareName_eq s hs]
  exact validSquare_columnRow _ (by omega) _ (by omega) (by omega)

theorem codeOf_emptySquare : codeOf .emptySquare = none := by decide

theorem exists_codeOf (h : k ≠ .emptySquare) : ∃ piece, codeOf k = some piece := by
  cases k with
  | emptySquare => exact absurd rfl h
  | man color kind =>
    refine ⟨_, if_neg ?_⟩
    cases color <;> cases kind <;> decide

theorem positionOf_startingBoard : positionOf startingBoard = BoardPosition.start := by
  have hrows : (expandFenEmptySquares (cutInfo startFen.toList)).splitOn '/' =
      rowsOfBoard startingBoard := by decide +kernel
  rw [← startPosition_get, startPosition, fenToObj_eq validFen_startFen, Option.getD_some, hrows, positionOf]

theorem toList_squareName : ∀ s < 64, (squareName s).toList =
    [Char.ofNat (97 + s % 8), Char.ofNat (56 - s / 8)] := by decide +kernel

theorem squaresOf_dashed (hx : x < 64) (hs : s < 64) :
    squaresOf (dashed (squareName x ++ squareName s)) = some (squareName x, squareName s) := by
  have hvalid : ∀ s < 64, validFile (Char.ofNat (97 + s % 8)) = true ∧
      validRank (Char.ofNat (56 - s / 8)) = true := by decide
  have hlist : (dashed (squareName x ++ squareName s)).toList =
      [Char.ofNat (97 + x % 8), Char.ofNat (56 - x / 8), '-', Char.ofNat (97 + s % 8),
        Char.ofNat (56 - s / 8)] := by
    rw [dashed, String.toList_ofList, String.toList_append, toList_squareName x hx, toList_squareName s hs]
    rfl
  obtain ⟨hxf, hxr⟩ := hvalid x hx
  obtain ⟨hsf, hsr⟩ := hvalid s hs
  unfold squaresOf
  rw [hlist]
  simp only [hxf, hxr, hsf, hsr, Bool.and_self, if_true]
  rw [← toList_squareName x hx, ← toList_squareName s hs, String.ofList_toList, String.ofList_toList]

/-- The page moves a piece as the board does. -/
theorem move_positionOf (hx : x < 64) (hs : s < 64) (hne : x ≠ s) (hman : b x ≠ .emptySquare) :
    (positionOf b).move (dashed (squareName x ++ squareName s)) = positionOf (moveMan b x s) := by
  obtain ⟨piece, hpiece⟩ := exists_codeOf hman
  have hfrom : positionOf b (squareName x) = some piece := (positionOf_squareName hx).trans hpiece
  rw [BoardPosition.move, squaresOf_dashed hx hs]
  simp only [hfrom]
  funext square
  cases hv : validSquare square with
  | false =>
    have hother {t : Nat} (ht : t < 64) : square ≠ squareName t := by
      rintro rfl
      rw [squareName_valid ht] at hv
      cases hv
    rw [Function.update_of_ne (hother hs), Function.update_of_ne (hother hx), positionOf_invalid hv,
      positionOf_invalid hv]
  | true =>
    obtain ⟨t, ht, rfl⟩ := exists_squareName hv
    rw [positionOf_squareName ht, moveMan]
    by_cases hts : t = s
    · subst hts
      rw [Function.update_self, Function.update_self, hpiece]
    · have hname : squareName t ≠ squareName s := fun h => hts (squareName_inj ht hs h)
      rw [Function.update_of_ne hname, Function.update_of_ne hts]
      by_cases htx : t = x
      · subst htx
        rw [Function.update_self, Function.update_self, codeOf_emptySquare]
      · have hname' : squareName t ≠ squareName x := fun h => htx (squareName_inj ht hx h)
        rw [Function.update_of_ne hname', Function.update_of_ne htx, positionOf_squareName ht]

end Positions

/-! The moves and the FENs of an answer of the service. -/

/-- Each FEN is one of the position that its moves lead to. -/
def Agree : BoardPosition → List Fen → Prop
  | _, [] => True
  | p, f :: fens =>
    (∃ q, IsFen f.fenString q ∧ p.move (dashed f.move) = positionOf q.position.board) ∧
      Agree (p.move (dashed f.move)) fens

/-- The answer of the service for stored moves, as the page gets it. -/
def served (lib : Chess.Library) (id : Int) (rows : List StoredMove) : Option (List (Option Fen)) :=
  match lib.fenResponse id rows with
  | .ok body => some (body.map (Option.map Fen.ofDto))
  | _ => none

section Answers

variable {lib : Chess.Library} {shows : lib.Board → Played → Prop} {b : lib.Board} {q : Played}
  {p : BoardPosition} {fens : List Fen} {f : Fen} {id : Int} {n : Nat} {rows : List StoredMove}
  {result : List (Option Fen)}

/-- What the page gets for the moves from the one with index `n` on. -/
def fensOf (lib : Chess.Library) (id : Int) (n : Nat) (moves : List Chess.Move)
    (entries : List (Option String)) : List Fen :=
  (entries.mapIdx fun idx e => e.map fun fen =>
    Fen.ofDto ⟨id, plyOfIndex (n + idx), fen, moves[idx]?.map lib.moveToUci⟩).reduceOption

theorem fensOf_nil (ms : List Chess.Move) : fensOf lib id n ms [] = [] := rfl

theorem fensOf_cons (m : Chess.Move) (ms : List Chess.Move) (e : Option String)
    (es : List (Option String)) : fensOf lib id n (m :: ms) (e :: es) =
      (e.map fun fen => Fen.ofDto ⟨id, plyOfIndex n, fen, some (lib.moveToUci m)⟩).toList ++
        fensOf lib id (n + 1) ms es := by
  have hshift : (es.mapIdx fun idx e => e.map fun fen =>
      Fen.ofDto ⟨id, plyOfIndex (n + (idx + 1)), fen, (m :: ms)[idx + 1]?.map lib.moveToUci⟩) =
      es.mapIdx fun idx e => e.map fun fen =>
        Fen.ofDto ⟨id, plyOfIndex (n + 1 + idx), fen, ms[idx]?.map lib.moveToUci⟩ := by
    refine congrArg (fun f => es.mapIdx f) (funext fun idx => ?_)
    rw [List.getElem?_cons_succ, show n + (idx + 1) = n + 1 + idx by omega]
  rw [fensOf, List.mapIdx_cons, hshift, fensOf]
  cases e <;> rfl

theorem fensOf_fenDtos (moves : List Chess.Move) (entries : List (Option String)) :
    ((lib.fenDtos id moves entries).map (Option.map Fen.ofDto)).reduceOption =
      fensOf lib id 0 moves entries := by
  refine congrArg List.reduceOption (List.ext_getElem? fun i => ?_)
  simp only [Chess.Library.fenDtos, List.getElem?_map, List.getElem?_mapIdx, Nat.zero_add]
  rcases entries[i]? with _ | _ | fen <;> rfl

/-- The board of the library and that of the page go through the same positions,
where a move that is not legal is left out on both. -/
theorem agree_fensFrom (hr : lib.FollowsRules shows) (hnull : lib.PassesTurn shows)
    (huci : lib.WritesSquares) (hb : shows b q) (ms : List Chess.Move)
    (hms : ∀ m ∈ ms, m.typeOf = .normal) :
    Agree (positionOf q.position.board) (fensOf lib id n ms (lib.fensFrom b ms)) := by
  induction ms generalizing b q n with
  | nil => exact True.intro
  | cons m ms ih =>
    obtain ⟨hm, hrest⟩ := List.forall_mem_cons.mp hms
    cases hfind : lib.finds b m with
    | false =>
      obtain ⟨r, hshow, hboard⟩ := hnull b q hb
      have hfens : lib.fensFrom b (m :: ms) = none :: lib.fensFrom (lib.makeNullMove b) ms := by
        rw [Chess.Library.fensFrom, if_neg (by simp [hfind])]
      rw [hfens, fensOf_cons, ← hboard]
      exact ih hshow hrest
    | true =>
      obtain ⟨x, s, r, hx, hs, hne, rfl, hman, hshow, hboard⟩ := finds_moveMan hr hb hm hfind
      have hmove : (positionOf q.position.board).move (dashed (squareName x ++ squareName s)) =
          positionOf r.position.board := by
        rw [hboard]
        exact move_positionOf hx hs hne hman
      rw [Chess.Library.fensFrom_of_finds ms hfind, fensOf_cons, huci x hx s hs]
      refine ⟨⟨r, hr.getFen _ _ hshow, hmove⟩, ?_⟩
      change Agree ((positionOf q.position.board).move (dashed (squareName x ++ squareName s))) (fensOf ..)
      rw [hmove]
      split
      · exact ih hshow hrest
      · rw [fensOf_nil]
        exact True.intro

theorem agree_served (hr : lib.FollowsRules shows) (hnull : lib.PassesTurn shows)
    (huci : lib.WritesSquares) (h : served lib id rows = some result) :
    Agree .start result.reduceOption := by
  rcases lib.fenResponse_cases id rows with ⟨-, he⟩ | ⟨-, he⟩
  · rw [served, he] at h
    cases h
  · rw [served, he] at h
    obtain rfl := Option.some.inj h
    have hmoves : ∀ m ∈ rows.map StoredMove.toMove, m.typeOf = .normal := by
      intro m hm
      obtain ⟨row, -, rfl⟩ := List.mem_map.mp hm
      rfl
    have hagree : Agree _ (fensOf lib id 0 _ (lib.fensFrom _ _)) :=
      agree_fensFrom hr hnull huci hr.start _ hmoves
    rw [Played.position_initial, Position.initial, positionOf_startingBoard] at hagree
    rw [fensOf_fenDtos]
    exact hagree

/-- The position at an index is that of the FEN before it. -/
theorem Agree.getElem? (h : Agree p fens) (hf : fens[n]? = some f) :
    ∃ q, IsFen f.fenString q ∧ ((populateMoveArray (fens.map Fen.move)).take (n + 1)).foldl
      BoardPosition.move p = positionOf q.position.board := by
  induction fens generalizing p n with
  | nil => cases hf
  | cons g fens ih =>
    obtain ⟨⟨q, hfen, hmove⟩, hrest⟩ := h
    cases n with
    | zero =>
      obtain rfl : g = f := Option.some.inj hf
      exact ⟨q, hfen, hmove⟩
    | succ n => exact ih hrest (by simpa using hf)

end Answers

/-! The page in any run. -/

/-- The FENs of an answer to a submit, if it has any, meet `Q`. -/
def PageEvent.Answers {P : Type} (Q : List Fen → Prop) : PageEvent P → Prop
  | .answered _ (some result) => Q result.reduceOption
  | _ => True

/-- The answer to a submit is the service's for some stored moves, or none. -/
def PageEvent.Served {P : Type} (lib : Chess.Library) : PageEvent P → Prop
  | .answered _ response => response = none ∨ ∃ id rows, response = served lib id rows
  | _ => True

section Runs

variable {P : Type} [ToLocaleString P] {Q : List Fen → Prop} {C : Page P → Prop} {page : Page P}
  {g : BoardGame P} {s : PageState P} {e : PageEvent P} {es : List (PageEvent P)} {n : Nat}

theorem kept_next (hnext : ∀ page, C page → C (nextbtn page)) (h : C g.page) : C g.next.page := by
  unfold BoardGame.next
  split
  · exact h
  · exact hnext _ h

theorem kept_prev (hprev : ∀ page, C page → C (prevbtn page)) (h : C g.page) : C g.prev.page := by
  unfold BoardGame.prev
  split
  · exact h
  · dsimp only
    split <;> exact hprev _ h

theorem kept_nextClicks (hnext : ∀ page, C page → C (nextbtn page)) (h : C g.page) :
    C (g.nextClicks n).page := by
  induction n generalizing g with
  | zero => exact h
  | succ n ih => exact ih (kept_next hnext h)

theorem kept_prevClicks (hprev : ∀ page, C page → C (prevbtn page)) (h : C g.page) :
    C (g.prevClicks n).page := by
  induction n generalizing g with
  | zero => exact h
  | succ n ih =>
    rw [BoardGame.prevClicks]
    split
    · exact kept_prev hprev h
    · exact ih (kept_prev hprev h)

theorem kept_jumpToMove {moveno : Int} (hnext : ∀ page, C page → C (nextbtn page))
    (hprev : ∀ page, C page → C (prevbtn page)) (h : C g.page) : C (g.jumpToMove moveno).page :=
  kept_prevClicks hprev (kept_nextClicks hnext h)

/-- The moves are those of the FENs, which meet `Q`, if there are any. -/
def Page.Holds (Q : List Fen → Prop) (page : Page P) : Prop :=
  page.moveArray = [] ∨ page.moveArray = populateMoveArray (page.fens.map Fen.move) ∧ Q page.fens

theorem updateEvalTbl_fens (plyno : Int) (page : Page P) :
    (updateEvalTbl plyno page).fens = page.fens := by
  unfold updateEvalTbl
  split <;> rfl

theorem holds_nextbtn (h : page.Holds Q) : (nextbtn page).Holds Q := by
  by_cases hlt : page.index < page.moveArray.length
  · have hfens : (nextbtn page).fens = page.fens := by
      rw [nextbtn, if_pos hlt]
      exact updateEvalTbl_fens _ _
    rw [Page.Holds, hfens, (nextbtn_page hlt).2]
    exact h
  · rwa [nextbtn, if_neg hlt]

theorem holds_prevbtn (h : page.Holds Q) : (prevbtn page).Holds Q := by
  by_cases hempty : page.moveArray = []
  · rwa [prevbtn, if_pos hempty]
  · have hfens : (prevbtn page).fens = page.fens := by
      have hshown : (if page.index ≤ 1 then setPlyCounter "0" (clearEvalTbl page) else page).fens =
          page.fens := by
        split <;> rfl
      rw [prevbtn, if_neg hempty]
      generalize (if page.index ≤ 1 then setPlyCounter "0" (clearEvalTbl page) else page) = shown at hshown
      rw [← hshown]
      dsimp only
      split
      · rfl
      · split
        · rfl
        · exact updateEvalTbl_fens _ _
    rw [Page.Holds, hfens, (prevbtn_page hempty).2]
    exact h

theorem holds_step (h : s.game.page.Holds Q) (he : e.Answers Q) : (s.step e).game.page.Holds Q := by
  cases e with
  | next => exact kept_next (fun _ => holds_nextbtn) h
  | prev => exact kept_prev (fun _ => holds_prevbtn) h
  | jumpToMove moveno => exact kept_jumpToMove (fun _ => holds_nextbtn) (fun _ => holds_prevbtn) h
  | reset => exact .inl rfl
  | submit id => exact h
  | answered id response =>
    simp only [PageState.step]
    split
    · cases response with
      | none =>
        unfold getFen
        split <;> exact h
      | some result =>
        simp only [getFen]
        split
        · exact h
        · exact .inr ⟨rfl, he⟩
    · exact h
  | cached f =>
    simp only [PageState.step]
    split <;> exact h
  | fetched f r => exact h

theorem holds_run (h : s.game.page.Holds Q) (he : ∀ e ∈ es, e.Answers Q) :
    (s.run es).game.page.Holds Q := by
  induction es generalizing s with
  | nil => exact h
  | cons e es ih =>
    obtain ⟨hfirst, hrest⟩ := List.forall_mem_cons.mp he
    exact ih (holds_step h hfirst) hrest

omit [ToLocaleString P] in
/-- The board of the page is the start or the position of one of its FENs. -/
theorem board_of_inv {g : BoardGame P} (hboard : g.board.get = BoardPosition.after g.page.moveArray g.page.index)
    (hindex : g.page.index ≤ g.page.moveArray.length) (h : g.page.Holds (Agree .start)) :
    g.page.index = 0 ∧ g.board.get = BoardPosition.start ∨
      ∃ f q, g.page.fens[g.page.index - 1]? = some f ∧ IsFen f.fenString q ∧
        g.board.get = positionOf q.position.board := by
  cases hn : g.page.index with
  | zero =>
    rw [hn] at hboard
    exact .inl ⟨rfl, hboard⟩
  | succ n =>
    right
    rw [hn] at hindex hboard
    rcases h with hempty | ⟨hmoves, hagree⟩
    · rw [hempty] at hindex
      cases hindex
    · rw [hmoves, populateMoveArray, List.length_map, List.length_map] at hindex
      have hf := List.getElem?_eq_getElem hindex
      obtain ⟨q, hfen, hfold⟩ := hagree.getElem? hf
      exact ⟨_, q, hf, hfen, by rw [hboard, BoardPosition.after, hmoves, hfold]⟩

omit [ToLocaleString P] in
theorem objToFen_positionOf {obj : PositionObject} {b : Board} (h : validPositionObject obj = true)
    (hget : obj.get = positionOf b) : objToFen obj = some (fenPlacement b) := by
  have hrows := fenRows_rowsOfBoard b
  rw [(objToFen_eq_iff h (valid_fenToRows hrows)).mpr hget, objToFen_eq (valid_fenToRows hrows),
    rowsOf_fenToRows hrows, fenOf_rowsOfBoard]

omit [ToLocaleString P] in
theorem PageEvent.Served.answers {lib : Chess.Library} {shows : lib.Board → Played → Prop}
    (hr : lib.FollowsRules shows) (hnull : lib.PassesTurn shows) (huci : lib.WritesSquares)
    (h : e.Served lib) : e.Answers (Agree .start) := by
  cases e with
  | answered id response =>
    rcases h with rfl | ⟨id', rows, rfl⟩
    · trivial
    · cases hanswer : served lib id' rows with
      | none => trivial
      | some result => exact agree_served hr hnull huci hanswer
  | _ => trivial

end Runs

/-- Whatever moves are stored, and however the page is used, its board shows the start
or the position of the FEN that the service gave for the last move shown, and
`board.fen()` is the first field of that FEN. -/
theorem board_agrees {P : Type} [ToLocaleString P] (lib : Chess.Library)
    (shows : lib.Board → Played → Prop) (hr : lib.FollowsRules shows) (hnull : lib.PassesTurn shows)
    (huci : lib.WritesSquares) (es : List (PageEvent P)) (hes : ∀ e ∈ es, e.Served lib)
    (h : PatientRun PageState.boot es) :
    let s := (PageState.boot.run es).game
    s.page.index = 0 ∧ s.board.get = BoardPosition.start ∨
      ∃ f q, s.page.fens[s.page.index - 1]? = some f ∧ IsFen f.fenString q ∧
        s.board.get = positionOf q.position.board ∧
        objToFen s.board = some (fenPlacement q.position.board) := by
  intro s
  have hinv : (PageState.boot.run es).Inv := inv_loaded.run h
  have hholds : s.page.Holds (Agree .start) :=
    holds_run (.inl rfl) fun e he => (hes e he).answers hr hnull huci
  rcases board_of_inv hinv.inStep.board hinv.inStep.index hholds with hstart | ⟨f, q, hf, hfen, hget⟩
  · exact .inl hstart
  · exact .inr ⟨f, q, hf, hfen, hget, objToFen_positionOf hinv.valid.board hget⟩

theorem rulesLibrary_passesTurn : rulesLibrary.PassesTurn Eq := by
  rintro q _ rfl
  exact ⟨_, rfl, rfl⟩

theorem rulesLibrary_writesSquares : rulesLibrary.WritesSquares := by
  intro x hx s hs
  have hsquare (t : Nat) : (8 * (7 - (Chess.squareAt t).rank) + (Chess.squareAt t).file).toNat = t := by
    simp only [Chess.squareAt, rowOf, fileOf]
    omega
  simp only [rulesLibrary, Chess.Move.make, hsquare]

/-- Two moves and one that is not legal, shown to the end and taken back. -/
theorem board_agrees_two :
    let s := ((PageState.boot (P := Int)).run [.submit 1, .answered 1 (served rulesLibrary 1
      [⟨1, .normal, 52, 36⟩, ⟨2, .normal, 0, 0⟩, ⟨3, .normal, 51, 35⟩]), .next, .next, .prev]).game
    s.page.index = 0 ∧ s.board.get = BoardPosition.start ∨
      ∃ f q, s.page.fens[s.page.index - 1]? = some f ∧ IsFen f.fenString q ∧
        s.board.get = positionOf q.position.board ∧
        objToFen s.board = some (fenPlacement q.position.board) :=
  board_agrees rulesLibrary Eq rulesLibrary_followsRules rulesLibrary_passesTurn
    rulesLibrary_writesSquares _ (by
      intro e he
      simp only [List.mem_cons, List.not_mem_nil, or_false] at he
      rcases he with rfl | rfl | rfl | rfl | rfl
      · trivial
      · exact .inr ⟨_, _, rfl⟩
      all_goals trivial) ⟨trivial, trivial, rfl, rfl, trivial, trivial⟩

end Web

end SmakChess
