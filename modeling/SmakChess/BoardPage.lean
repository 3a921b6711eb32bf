import SmakChess.BoardWidget

/-! The page with the board of `chessboard.js`: it keeps the FENs of the positions
it has seen, and its requests are answered while it is used. -/

namespace SmakChess.Web

open Objects

/-- The page, its board, and `positions`, where an entry is none for `false`. -/
structure BoardGame (P : Type) where
  page : Page P
  board : PositionObject
  positions : List (Option String)

namespace BoardGame

variable {P : Type} [ToLocaleString P]

/-- What `board.position` gets for an entry of `positions`. -/
def positionArg : Option (Option String) → PositionArg
  | some (some fen) => .text fen
  | _ => .other

def next (s : BoardGame P) : BoardGame P :=
  match s.page.moveArray[s.page.index]? with
  | none => s
  | some mv =>
    { page := nextbtn s.page
      board := widgetMove s.board [some mv]
      positions :=
        if s.positions.length > s.page.index then s.positions else s.positions ++ [objToFen s.board] }

def prevThrows (s : BoardGame P) : Bool :=
  s.page.moveArray ≠ [] ∧ s.page.index = 1 ∧ s.page.movestable = []

def prev (s : BoardGame P) : BoardGame P :=
  if s.page.moveArray = [] then s
  else
    let board := if s.page.index ≤ 1 then widgetStart s.board else s.board
    if s.page.index = 0 ∨ s.prevThrows then { s with page := prevbtn s.page, board := board }
    else { s with
      page := prevbtn s.page
      board := setPosition board (positionArg s.positions[s.page.index - 1]?) }

def prevClicks : Nat → BoardGame P → BoardGame P
  | 0, s => s
  | n + 1, s => if s.prevThrows then s.prev else prevClicks n s.prev

def nextClicks : Nat → BoardGame P → BoardGame P
  | 0, s => s
  | n + 1, s => nextClicks n s.next

def jumpToMove (moveno : Int) (s : BoardGame P) : BoardGame P :=
  let t := s.nextClicks (moveno + 1 - s.page.index).toNat
  t.prevClicks (t.page.index - (moveno + 1)).toNat

/-- The handler of `resetbtn`. -/
def reset (s : BoardGame P) : BoardGame P where
  page := { submit s.page.selectedId s.page with moveArray := [] }
  board := widgetStart s.board
  positions := []

/-- The submit handler up to its request. -/
def submit (id : Int) (s : BoardGame P) : BoardGame P where
  page := Web.submit id s.page
  board := widgetStart s.board
  positions := []

end BoardGame

/-- What happens on the page. `answered` is the answer to the request of a submit, and the
loop of `updateEvals` has each evaluation `cached` or `fetched`. -/
inductive PageEvent (P : Type)
  | next
  | prev
  | jumpToMove (moveno : Int)
  | reset
  | submit (id : Int)
  | answered (id : Int) (response : Option (List (Option Fen)))
  | cached (f : Fen)
  | fetched (f : Fen) (r : EvalBody P)

/-- The page, and the requests of submits that are not answered yet. -/
structure PageState (P : Type) where
  game : BoardGame P
  waiting : List Int

namespace PageState

variable {P : Type} [ToLocaleString P]

def step (s : PageState P) : PageEvent P → PageState P
  | .next => { s with game := s.game.next }
  | .prev => { s with game := s.game.prev }
  | .jumpToMove moveno => { s with game := s.game.jumpToMove moveno }
  | .reset => { s with game := s.game.reset }
  | .submit id => ⟨s.game.submit id, s.waiting ++ [id]⟩
  | .answered id response =>
    if id ∈ s.waiting then
      ⟨{ s.game with page := getFen id response s.game.page }, s.waiting.erase id⟩
    else s
  | .cached f =>
    match s.game.page.evalsDict.get f.fenString with
    | none => s
    | some item => { s with game := { s.game with page := s.game.page.setEval f item } }
  | .fetched f r => { s with game := { s.game with page := s.game.page.store f r } }

def run (s : PageState P) (es : List (PageEvent P)) : PageState P := es.foldl step s

/-- The page once it is loaded. -/
def boot : PageState P := ⟨⟨Page.boot, startPosition, []⟩, []⟩

end PageState

/-- No click goes forward while the moves of another game are on their way. -/
def PageEvent.Patient {P : Type} (s : PageState P) : PageEvent P → Prop
  | .next | .jumpToMove _ => s.waiting = []
  | _ => True

def PatientRun {P : Type} [ToLocaleString P] : PageState P → List (PageEvent P) → Prop
  | _, [] => True
  | s, e :: es => e.Patient s ∧ PatientRun (s.step e) es

/-! The board of the page as a position on squares. -/

theorem backRank_of_invalid {file : Char} (h : validFile file = false) :
    BoardPosition.backRank file = none := by
  unfold BoardPosition.backRank
  split
  case h_9 => rfl
  all_goals exact absurd h (by decide)

theorem start_of_invalid {square : String} (h : validSquare square = false) :
    BoardPosition.start square = none := by
  unfold validSquare at h
  unfold BoardPosition.start
  split at h
  next file rank hlist =>
    rw [hlist]
    cases hfile : validFile file with
    | false =>
      have hback := backRank_of_invalid hfile
      split <;> simp_all
    | true =>
      have hrank : validRank rank = false := by simpa [hfile] using h
      split
      case h_5 => rfl
      all_goals
        next heq =>
          obtain ⟨rfl, rfl⟩ := by simpa using heq
          exact absurd hrank (by decide)
  next hne =>
    split
    case h_5 => rfl
    all_goals
      next hlist => exact absurd hlist (hne _ _)

theorem startPosition_get : startPosition.get = BoardPosition.start := by
  have hrows := validFen_iff.mp validFen_startFen
  have hstart : startPosition =
      fenToRows ((expandFenEmptySquares (cutInfo startFen.toList)).splitOn '/') := by
    rw [startPosition, fenToObj_eq validFen_startFen, Option.getD_some]
  have hcells : ∀ i < 8, ∀ j < 8, BoardPosition.start (columnRow j (8 - i)) =
      let c := cellOf ((expandFenEmptySquares (cutInfo startFen.toList)).splitOn '/') i j
      if c = '1' then none else some (fenToPieceCode c) := by decide +kernel
  funext square
  rw [hstart]
  cases hs : validSquare square with
  | false =>
    rw [get_fenToRows_invalid hrows hs, start_of_invalid hs]
  | true =>
    obtain ⟨j, hj, i, hi, rfl⟩ := exists_columnRow hs
    rw [get_fenToRows hrows hi hj, hcells i hi j hj]

/-- The position that an entry of `positions` stands for. -/
def seenPosition (fen : Option String) : BoardPosition :=
  ((fen.bind fenToObj).map Object.get).getD fun _ => none

def BoardGame.view {P : Type} (s : BoardGame P) : Game P where
  page := s.page
  board := s.board.get
  positions := s.positions.map seenPosition

/-- The board holds a position, and `positions` holds FENs. -/
structure BoardGame.Valid {P : Type} (s : BoardGame P) : Prop where
  board : validPositionObject s.board = true
  positions : ∀ fen ∈ s.positions, ∃ text obj, fen = some text ∧ fenToObj text = some obj

section View

variable {P : Type} [ToLocaleString P] {s : BoardGame P} {n : Nat} {moveno : Int}

theorem seenPosition_objToFen {pos : PositionObject} (h : validPositionObject pos = true) :
    seenPosition (objToFen pos) = pos.get ∧ ∃ text obj, objToFen pos = some text ∧ fenToObj text = some obj := by
  obtain ⟨fen, obj, hfen, hobj, hget⟩ := fenToObj_objToFen h
  refine ⟨?_, fen, obj, hfen, hobj⟩
  rw [seenPosition, hfen, Option.bind_some, hobj, Option.map_some, Option.getD_some, hget]

/-- The board shows the next position, and the page keeps the FEN of this one. -/
theorem view_next (h : s.Valid) : s.next.Valid ∧ s.next.view = s.view.next := by
  unfold BoardGame.next Game.next
  simp only [BoardGame.view]
  cases hmv : s.page.moveArray[s.page.index]? with
  | none => exact ⟨h, rfl⟩
  | some mv =>
    obtain ⟨hget, hvalid⟩ := widgetMove_single h.board mv
    obtain ⟨hseen, hfen⟩ := seenPosition_objToFen h.board
    refine ⟨⟨hvalid, ?_⟩, ?_⟩
    · intro fen hmem
      dsimp only at hmem
      split at hmem
      · exact h.positions fen hmem
      · rcases List.mem_append.mp hmem with hmem | hmem
        · exact h.positions fen hmem
        · exact List.mem_singleton.mp hmem ▸ hfen
    · simp only [hget, List.length_map]
      congr 1
      split
      · rfl
      · rw [List.map_append, List.map_singleton, hseen]

omit [ToLocaleString P] in
theorem view_positionArg {board : PositionObject} (h : s.Valid) (hb : validPositionObject board = true)
    (i : Nat) : validPositionObject (setPosition board (BoardGame.positionArg s.positions[i]?)) = true ∧
      (setPosition board (BoardGame.positionArg s.positions[i]?)).get =
        ((s.positions.map seenPosition)[i]?).getD board.get := by
  rw [List.getElem?_map]
  cases hfen : s.positions[i]? with
  | none => exact ⟨hb, rfl⟩
  | some fen =>
    obtain ⟨text, obj, rfl, hobj⟩ := h.positions fen (List.mem_of_getElem? hfen)
    obtain ⟨hget, hvalid⟩ := setPosition_fen hb hobj
    refine ⟨hvalid, hget.trans ?_⟩
    rw [Option.map_some, Option.getD_some, seenPosition, Option.bind_some, hobj, Option.map_some,
      Option.getD_some]

omit [ToLocaleString P] in
theorem prevThrows_view (s : BoardGame P) : s.view.prevThrows = s.prevThrows := rfl

theorem view_prev (h : s.Valid) : s.prev.Valid ∧ s.prev.view = s.view.prev := by
  by_cases hempty : s.page.moveArray = []
  · have hprev : s.prev = s := if_pos hempty
    have hview : s.view.prev = s.view := if_pos hempty
    rw [hprev, hview]
    exact ⟨h, rfl⟩
  · let board := if s.page.index ≤ 1 then widgetStart s.board else s.board
    obtain ⟨hget, hvalid⟩ : board.get = (if s.page.index ≤ 1 then BoardPosition.start else s.board.get) ∧
        validPositionObject board = true := by
      dsimp only [board]
      split
      · obtain ⟨hstart, hvalid⟩ := widgetStart_spec h.board
        exact ⟨hstart.trans startPosition_get, hvalid⟩
      · exact ⟨rfl, h.board⟩
    have hview : s.view.prev = if s.page.index = 0 ∨ s.prevThrows = true then
        { s.view with page := prevbtn s.page, board := board.get }
        else { s.view with
          page := prevbtn s.page
          board := ((s.positions.map seenPosition)[s.page.index - 1]?).getD board.get } := by
      rw [hget]
      exact if_neg hempty
    have hprev : s.prev = if s.page.index = 0 ∨ s.prevThrows = true then
        { s with page := prevbtn s.page, board := board }
        else { s with
          page := prevbtn s.page
          board := setPosition board (BoardGame.positionArg s.positions[s.page.index - 1]?) } :=
      if_neg hempty
    rw [hview, hprev]
    split
    · exact ⟨⟨hvalid, h.positions⟩, rfl⟩
    · obtain ⟨hset, hseen⟩ := view_positionArg h hvalid (s.page.index - 1)
      exact ⟨⟨hset, h.positions⟩, by rw [← hseen]; rfl⟩

theorem view_nextClicks (h : s.Valid) :
    (s.nextClicks n).Valid ∧ (s.nextClicks n).view = s.view.nextClicks n := by
  induction n generalizing s with
  | zero => exact ⟨h, rfl⟩
  | succ n ih =>
    obtain ⟨hvalid, hview⟩ := view_next h
    obtain ⟨hvalid', hview'⟩ := ih hvalid
    exact ⟨hvalid', by rw [BoardGame.nextClicks, Game.nextClicks, hview', hview]⟩

theorem view_prevClicks (h : s.Valid) :
    (s.prevClicks n).Valid ∧ (s.prevClicks n).view = s.view.prevClicks n := by
  induction n generalizing s with
  | zero => exact ⟨h, rfl⟩
  | succ n ih =>
    obtain ⟨hvalid, hview⟩ := view_prev h
    rw [BoardGame.prevClicks, Game.prevClicks, prevThrows_view]
    split
    · exact ⟨hvalid, hview⟩
    · rw [← hview]
      exact ih hvalid

theorem view_jumpToMove (moveno : Int) (h : s.Valid) :
    (s.jumpToMove moveno).Valid ∧ (s.jumpToMove moveno).view = s.view.jumpToMove moveno := by
  obtain ⟨hvalid, hview⟩ := view_nextClicks (n := (moveno + 1 - s.page.index).toNat) h
  obtain ⟨hvalid', hview'⟩ := view_prevClicks (n := ((s.nextClicks
    (moveno + 1 - s.page.index).toNat).page.index - (moveno + 1)).toNat) hvalid
  refine ⟨hvalid', hview'.trans ?_⟩
  have hpage := congrArg (fun t => t.page.index) hview
  simp only [BoardGame.view] at hpage
  rw [Game.jumpToMove, hview, hpage]
  rfl

end View

/-! Any run. -/

section Runs

variable {P : Type} [ToLocaleString P] {s : PageState P} {e : PageEvent P} {es : List (PageEvent P)}
  {g : Game P} {moves : List String} {n : Nat} {moveno : Int}

theorem Game.InStep.nextClicks (h : g.InStep moves) : (g.nextClicks n).InStep moves := by
  induction n generalizing g with
  | zero => exact h
  | succ n ih => exact ih h.next

theorem Game.InStep.prevClicks (h : g.InStep moves) : (g.prevClicks n).InStep moves := by
  induction n generalizing g with
  | zero => exact h
  | succ n ih =>
    rw [Game.prevClicks]
    split
    · exact h.prev
    · exact ih h.prev

theorem Game.InStep.jumpToMove (moveno : Int) (h : g.InStep moves) : (g.jumpToMove moveno).InStep moves :=
  h.nextClicks.prevClicks

/-- The board is in step with the moves, and at the start while those of another
game are on their way. -/
structure PageState.Inv (s : PageState P) : Prop where
  valid : s.game.Valid
  inStep : s.game.view.InStep s.game.page.moveArray
  waiting : s.waiting ≠ [] → s.game.page.index = 0 ∧ s.game.positions = []

omit [ToLocaleString P] in
theorem inStep_start {page : Page P} (h : page.index = 0) :
    (⟨page, .start, []⟩ : Game P).InStep page.moveArray where
  moveArray := rfl
  index := by
    rw [h]
    exact Nat.zero_le _
  board := by
    rw [h]
    rfl
  seen := by
    rw [h]
    exact Nat.zero_le _
  positions j p hp := by cases hp

omit [ToLocaleString P] in
theorem inv_start {page : Page P} {board : PositionObject} {waiting : List Int} (h : page.index = 0)
    (hget : board.get = BoardPosition.start) (hvalid : validPositionObject board = true) :
    PageState.Inv ⟨⟨page, board, []⟩, waiting⟩ where
  valid := ⟨hvalid, fun _ hfen => absurd hfen List.not_mem_nil⟩
  inStep := by
    simp only [BoardGame.view, hget]
    exact inStep_start h
  waiting _ := ⟨h, rfl⟩

omit [ToLocaleString P] in
theorem inv_loaded : (PageState.boot : PageState P).Inv :=
  inv_start rfl startPosition_get startPosition_valid

theorem start_prev {g : BoardGame P} (hindex : g.page.index = 0) (hpos : g.positions = [])
    (hview : g.prev.view = g.view.prev) : g.prev.page.index = 0 ∧ g.prev.positions = [] := by
  have hpositions : g.prev.positions.map seenPosition = [] := by
    have hkept := congrArg Game.positions hview
    rw [positions_prev] at hkept
    exact hkept.trans (by rw [BoardGame.view, hpos, List.map_nil])
  refine ⟨?_, List.map_eq_nil_iff.mp hpositions⟩
  by_cases hempty : g.page.moveArray = []
  · have hprev : g.prev = g := if_pos hempty
    rw [hprev, hindex]
  · have hpage : g.prev.page = prevbtn g.page :=
      (congrArg Game.page hview).trans (page_prev (s := g.view) hempty)
    rw [hpage, (prevbtn_page hempty).1, hindex]

omit [ToLocaleString P] in
theorem Game.InStep.page {page : Page P} (h : g.InStep moves) (hmoves : page.moveArray = g.page.moveArray)
    (hindex : page.index = g.page.index) : Game.InStep moves { g with page := page } where
  moveArray := hmoves.trans h.moveArray
  index := hindex ▸ h.index
  board := hindex ▸ h.board
  seen := hindex ▸ h.seen
  positions := h.positions

omit [ToLocaleString P] in
theorem PageState.Inv.page {page : Page P} (h : s.Inv) (hmoves : page.moveArray = s.game.page.moveArray)
    (hindex : page.index = s.game.page.index) : Inv { s with game := { s.game with page := page } } := by
  refine ⟨⟨h.valid.board, h.valid.positions⟩, ?_, fun hw => ?_⟩
  · have hstep := h.inStep.page hmoves hindex
    exact hstep.moveArray.symm ▸ hstep
  · obtain ⟨hzero, hpos⟩ := h.waiting hw
    exact ⟨hindex.trans hzero, hpos⟩

omit [ToLocaleString P] in
theorem getFen_index (id : Int) (response : Option (List (Option Fen))) (page : Page P) :
    (getFen id response page).index = page.index := by
  unfold getFen
  split
  · rfl
  · split <;> rfl

theorem PageState.Inv.step (h : s.Inv) (he : e.Patient s) : (s.step e).Inv := by
  have hstart := widgetStart_spec h.valid.board
  have hget := hstart.1.trans startPosition_get
  cases e with
  | next =>
    obtain ⟨hvalid, hview⟩ := view_next h.valid
    have hstep := hview ▸ h.inStep.next
    exact ⟨hvalid, hstep.moveArray.symm ▸ hstep, fun hw => absurd he hw⟩
  | prev =>
    obtain ⟨hvalid, hview⟩ := view_prev h.valid
    have hstep := hview ▸ h.inStep.prev
    refine ⟨hvalid, hstep.moveArray.symm ▸ hstep, fun hw => ?_⟩
    obtain ⟨hindex, hpos⟩ := h.waiting hw
    exact start_prev hindex hpos hview
  | jumpToMove moveno =>
    obtain ⟨hvalid, hview⟩ := view_jumpToMove moveno h.valid
    have hstep := hview ▸ Game.InStep.jumpToMove moveno h.inStep
    exact ⟨hvalid, hstep.moveArray.symm ▸ hstep, fun hw => absurd he hw⟩
  | reset => exact inv_start rfl hget hstart.2
  | submit id => exact inv_start rfl hget hstart.2
  | answered id response =>
    simp only [PageState.step]
    split
    next hid =>
      -- nothing has been clicked since the submit that is answered
      obtain ⟨hindex, hpos⟩ := h.waiting (List.ne_nil_of_mem hid)
      have hboard : s.game.board.get = BoardPosition.start := by
        have hafter := h.inStep.board
        rw [show s.game.view.page.index = 0 from hindex] at hafter
        exact hafter
      rw [hpos]
      exact inv_start ((getFen_index id response s.game.page).trans hindex) hboard h.valid.board
    · exact h
  | cached f =>
    simp only [PageState.step]
    split
    · exact h
    · exact h.page rfl rfl
  | fetched f r => exact h.page rfl rfl

theorem PageState.Inv.run (h : s.Inv) (he : PatientRun s es) : (s.run es).Inv := by
  induction es generalizing s with
  | nil => exact h
  | cons e es ih => exact ih (h.step he.1) he.2

end Runs

/-- Through any clicks, resets, submits and answers in any order the board shows the
position of the index in the moves of the page, its FEN is that position's placement,
and the FENs that are kept are those of the positions before it, as long as no click
goes forward while the moves of another game are on their way. -/
theorem page_inStep {P : Type} [ToLocaleString P] (es : List (PageEvent P))
    (h : PatientRun PageState.boot es) :
    let s := (PageState.boot.run es).game
    s.board.get = BoardPosition.after s.page.moveArray s.page.index ∧
      s.page.index ≤ s.page.moveArray.length ∧
      objToFen s.board = some (fenPlacement (boardOf s.board)) ∧
      ∀ j fen, s.positions[j]? = some fen → ∃ text obj, fen = some text ∧
        fenToObj text = some obj ∧ obj.get = BoardPosition.after s.page.moveArray j := by
  intro s
  have hinv : (PageState.boot.run es).Inv := inv_loaded.run h
  refine ⟨hinv.inStep.board, hinv.inStep.index, objToFen_placement hinv.valid.board, ?_⟩
  intro j fen hfen
  obtain ⟨text, obj, rfl, hobj⟩ := hinv.valid.positions fen (List.mem_of_getElem? hfen)
  refine ⟨text, obj, rfl, hobj, ?_⟩
  have hseen : (s.view.positions)[j]? = some (seenPosition (some text)) := by
    rw [BoardGame.view, List.getElem?_map, hfen, Option.map_some]
  rw [← hinv.inStep.positions j _ hseen, seenPosition, Option.bind_some, hobj, Option.map_some,
    Option.getD_some]

/-- A game is asked for and answered, then one of its moves is shown, taken back and
shown again. -/
theorem page_inStep_two :
    let s := ((PageState.boot (P := Int)).run [.submit 1, .answered 1 (some [some afterE4, some afterE5]),
      .next, .prev, .next]).game
    s.board.get = BoardPosition.after s.page.moveArray s.page.index :=
  (page_inStep [.submit 1, .answered 1 (some [some afterE4, some afterE5]), .next, .prev, .next]
    ⟨trivial, trivial, rfl, trivial, rfl, trivial⟩).1

end SmakChess.Web
