import SmakChess.Viewer

/-! The board of the page: the two buttons, which go through the moves of a game
and keep the positions they have seen, and the jumps made of clicks on them. -/

namespace SmakChess.Web

/-- `currentPosition` of the board: the piece on a square, if any. -/
abbrev BoardPosition := String → Option String

def validFile (c : Char) : Bool := 'a' ≤ c && c ≤ 'h'

def validRank (c : Char) : Bool := '1' ≤ c && c ≤ '8'

/-- The two squares of a move that `validMove` lets through. -/
def squaresOf (mv : String) : Option (String × String) :=
  match mv.toList with
  | [a, r, '-', b, q] =>
    if validFile a && validRank r && validFile b && validRank q then
      some (String.ofList [a, r], String.ofList [b, q])
    else none
  | _ => none

namespace BoardPosition

/-- `board.move`, for one move. -/
def move (p : BoardPosition) (mv : String) : BoardPosition :=
  match squaresOf mv with
  | none => p
  | some (a, b) =>
    match p a with
    | none => p
    | some piece => Function.update (Function.update p a none) b (some piece)

def backRank : Char → Option String
  | 'a' | 'h' => some "R"
  | 'b' | 'g' => some "N"
  | 'c' | 'f' => some "B"
  | 'd' => some "Q"
  | 'e' => some "K"
  | _ => none

/-- `START_POSITION`. -/
def start : BoardPosition := fun square =>
  match square.toList with
  | [file, '1'] => (backRank file).map ("w" ++ ·)
  | [file, '2'] => if validFile file then some "wP" else none
  | [file, '7'] => if validFile file then some "bP" else none
  | [file, '8'] => (backRank file).map ("b" ++ ·)
  | _ => none

def after (moves : List String) (n : Nat) : BoardPosition := (moves.take n).foldl move start

end BoardPosition

structure Game (P : Type) where
  page : Page P
  board : BoardPosition
  positions : List BoardPosition

section Handlers

variable {P : Type} [ToLocaleString P]

def Game.next (s : Game P) : Game P :=
  match s.page.moveArray[s.page.index]? with
  | none => s
  | some mv =>
    { page := nextbtn s.page
      board := s.board.move mv
      positions :=
        if s.positions.length > s.page.index then s.positions else s.positions ++ [s.board] }

/-- The first row of the moves is not there to be coloured. -/
def Game.prevThrows (s : Game P) : Bool :=
  s.page.moveArray ≠ [] ∧ s.page.index = 1 ∧ s.page.movestable = []

/-- A position that is undefined is not set. -/
def Game.prev (s : Game P) : Game P :=
  if s.page.moveArray = [] then s
  else
    let board := if s.page.index ≤ 1 then .start else s.board
    if s.page.index = 0 ∨ s.prevThrows then { s with page := prevbtn s.page, board := board }
    else { s with
      page := prevbtn s.page
      board := (s.positions[s.page.index - 1]?).getD board }

/-- Clicks from a loop, up to one that ends in an exception. -/
def Game.prevClicks : Nat → Game P → Game P
  | 0, s => s
  | n + 1, s => if s.prevThrows then s.prev else Game.prevClicks n s.prev

def Game.nextClicks : Nat → Game P → Game P
  | 0, s => s
  | n + 1, s => Game.nextClicks n s.next

def Game.jumpToMove (moveno : Int) (s : Game P) : Game P :=
  let t := s.nextClicks (moveno + 1 - s.page.index).toNat
  t.prevClicks (t.page.index - (moveno + 1)).toNat

inductive Operation
  | next
  | prev
  | jumpToMove (moveno : Int)
  deriving DecidableEq, Repr

def Operation.apply (s : Game P) : Operation → Game P
  | .next => s.next
  | .prev => s.prev
  | .jumpToMove moveno => s.jumpToMove moveno

def Operation.Offered (n : Nat) : Operation → Prop
  | .jumpToMove moveno => -1 ≤ moveno ∧ moveno < n
  | _ => True

def Game.run (s : Game P) (ops : List Operation) : Game P := ops.foldl Operation.apply s

structure Game.Loaded (s : Game P) : Prop where
  index : s.page.index = 0
  board : s.board = .start
  positions : s.positions = []

/-- The submit handler, with the answers it gets. -/
def Game.select (answer : String → EvalBody P) (id : Int) (result : List (Option Fen))
    (s : Game P) : Game P where
  page := Web.select answer id result s.page
  board := .start
  positions := []

/-- The index is that of the position on the board, and the positions seen are
those of the game. -/
structure Game.InStep (moves : List String) (s : Game P) : Prop where
  moveArray : s.page.moveArray = moves
  index : s.page.index ≤ moves.length
  board : s.board = BoardPosition.after moves s.page.index
  seen : s.page.index ≤ s.positions.length
  positions : ∀ j p, s.positions[j]? = some p → p = BoardPosition.after moves j

end Handlers

section Steps

variable {P : Type} [ToLocaleString P] {s : Game P} {page : Page P} {moves : List String}
  {n j : Nat} {moveno : Int} {op : Operation} {ops : List Operation}

theorem after_succ {mv : String} (h : moves[n]? = some mv) :
    BoardPosition.after moves (n + 1) = (BoardPosition.after moves n).move mv := by
  rw [BoardPosition.after, List.take_add_one, h, Option.toList_some, List.foldl_append]
  rfl

theorem updateEvalTbl_page (plyno : Int) (page : Page P) :
    (updateEvalTbl plyno page).index = page.index ∧
      (updateEvalTbl plyno page).moveArray = page.moveArray := by
  unfold updateEvalTbl
  split <;> exact ⟨rfl, rfl⟩

theorem nextbtn_page (h : page.index < page.moveArray.length) :
    (nextbtn page).index = page.index + 1 ∧ (nextbtn page).moveArray = page.moveArray := by
  obtain ⟨hindex, hmoves⟩ := updateEvalTbl_page ((page.index + 1 : Nat) : Int)
    (clearEvalTbl (setPlyCounter (toString (page.index + 1)) { page with index := page.index + 1 }))
  rw [nextbtn, if_pos h]
  exact ⟨hindex, hmoves⟩

theorem prevbtn_page (h : page.moveArray ≠ []) :
    (prevbtn page).index = page.index - 1 ∧ (prevbtn page).moveArray = page.moveArray := by
  have hindex : (if page.index ≤ 1 then setPlyCounter "0" (clearEvalTbl page) else page).index =
      page.index := by split <;> rfl
  have hmoves : (if page.index ≤ 1 then setPlyCounter "0" (clearEvalTbl page)
      else page).moveArray = page.moveArray := by split <;> rfl
  rw [prevbtn, if_neg h]
  generalize (if page.index ≤ 1 then setPlyCounter "0" (clearEvalTbl page) else page) = shown
    at hindex hmoves
  simp only
  by_cases hzero : shown.index = 0
  · rw [if_pos hzero]
    exact ⟨by omega, hmoves⟩
  rw [if_neg hzero]
  split
  · exact ⟨congrArg (· - 1) hindex, hmoves⟩
  · obtain ⟨hi, hm⟩ := updateEvalTbl_page ((shown.index - 1 : Nat) : Int)
      (clearEvalTbl (setPlyCounter (toString (shown.index - 1))
        { shown with index := shown.index - 1 }))
    exact ⟨hi.trans (congrArg (· - 1) hindex), hm.trans hmoves⟩

theorem next_of_end (h : s.page.moveArray.length ≤ s.page.index) : s.next = s := by
  rw [Game.next, List.getElem?_eq_none h]

theorem Game.InStep.next (h : s.InStep moves) : s.next.InStep moves := by
  have hmoves := h.moveArray
  by_cases hend : s.page.moveArray.length ≤ s.page.index
  · rw [next_of_end hend]
    exact h
  obtain ⟨mv, hmv⟩ : ∃ mv, s.page.moveArray[s.page.index]? = some mv :=
    ⟨_, List.getElem?_eq_getElem (Nat.not_le.mp hend)⟩
  obtain ⟨hindex, hkept⟩ := nextbtn_page (Nat.not_le.mp hend)
  have hlen := congrArg List.length hmoves
  have hseen := h.seen
  rw [Game.next, hmv]
  refine ⟨hkept.trans hmoves, ?_, ?_, ?_, ?_⟩
  · simp only [hindex]
    omega
  · rw [hmoves] at hmv
    simp only [hindex, after_succ hmv, h.board]
  · simp only [hindex]
    split
    · assumption
    · rw [List.length_append]
      exact Nat.succ_le_succ hseen
  · simp only
    split
    · exact h.positions
    · -- the position on the board is the next one that was not seen
      rename_i hnew
      intro j p hp
      have hlast : s.positions.length = s.page.index := by omega
      by_cases hj : j < s.positions.length
      · rw [List.getElem?_append_left hj] at hp
        exact h.positions j p hp
      · rw [List.getElem?_append_right (Nat.not_lt.mp hj)] at hp
        have hzero : j - s.positions.length = 0 := by
          by_contra hne
          rw [List.getElem?_eq_none (by simp; omega)] at hp
          cases hp
        rw [hzero] at hp
        have hj' : j = s.page.index := by omega
        rw [hj', ← h.board]
        exact (Option.some.inj hp).symm

theorem prev_of_empty (h : s.page.moveArray = []) : s.prev = s := if_pos h

theorem index_next (h : s.page.index < s.page.moveArray.length) :
    s.next.page.index = s.page.index + 1 := by
  rw [Game.next, List.getElem?_eq_getElem h]
  exact (nextbtn_page h).1

theorem page_prev (h : s.page.moveArray ≠ []) : s.prev.page = prevbtn s.page := by
  simp only [Game.prev, if_neg h]
  split <;> rfl

theorem positions_prev : s.prev.positions = s.positions := by
  simp only [Game.prev]
  split
  · rfl
  · split <;> rfl

theorem Game.InStep.prev (h : s.InStep moves) : s.prev.InStep moves := by
  by_cases hempty : s.page.moveArray = []
  · rw [prev_of_empty hempty]
    exact h
  obtain ⟨hindex, hkept⟩ := prevbtn_page hempty
  rw [← page_prev hempty] at hindex hkept
  have hle := h.index
  have hseen := h.seen
  refine ⟨hkept.trans h.moveArray, by omega, ?_, ?_, ?_⟩
  · rw [hindex]
    simp only [Game.prev, if_neg hempty]
    by_cases hstart : s.page.index = 0 ∨ s.prevThrows = true
    · -- the board is set to the start before the row is missed
      have hone : s.page.index ≤ 1 := by
        rcases hstart with hzero | hthrows
        · omega
        · have hthrows : s.page.moveArray ≠ [] ∧ s.page.index = 1 ∧ s.page.movestable = [] := by
            simpa [Game.prevThrows] using hthrows
          omega
      have hzero : s.page.index - 1 = 0 := by omega
      rw [if_pos hstart, hzero]
      exact if_pos hone
    · rw [if_neg hstart]
      obtain ⟨p, hp⟩ : ∃ p, s.positions[s.page.index - 1]? = some p :=
        ⟨_, List.getElem?_eq_getElem (by omega)⟩
      simp only [hp, Option.getD_some]
      exact h.positions _ p hp
  · rw [positions_prev]
    omega
  · rw [positions_prev]
    exact h.positions

theorem nextClicks_spec (h : s.InStep moves) (hn : s.page.index + n ≤ moves.length) :
    (s.nextClicks n).InStep moves ∧ (s.nextClicks n).page.index = s.page.index + n := by
  induction n generalizing s with
  | zero => exact ⟨h, rfl⟩
  | succ n ih =>
    have hlen := congrArg List.length h.moveArray
    have hindex := index_next (s := s) (by omega)
    obtain ⟨hstep, hi⟩ := ih h.next (by omega)
    exact ⟨hstep, by rw [Game.nextClicks, hi]; omega⟩

theorem prevClicks_spec (h : s.InStep moves) (hn : n ≤ s.page.index) :
    (s.prevClicks n).InStep moves ∧ (s.prevClicks n).page.index = s.page.index - n := by
  induction n generalizing s with
  | zero => exact ⟨h, rfl⟩
  | succ n ih =>
    have hle := h.index
    have hne : s.page.moveArray ≠ [] := by
      intro hempty
      have hlen := congrArg List.length h.moveArray
      rw [hempty, List.length_nil] at hlen
      omega
    have hindex : s.prev.page.index = s.page.index - 1 := by
      rw [page_prev hne]
      exact (prevbtn_page hne).1
    rw [Game.prevClicks]
    split
    · -- only the last of the clicks can end in an exception
      rename_i hthrows
      have hone : s.page.moveArray ≠ [] ∧ s.page.index = 1 ∧ s.page.movestable = [] := by
        simpa [Game.prevThrows] using hthrows
      exact ⟨h.prev, by omega⟩
    · obtain ⟨hstep, hi⟩ := ih h.prev (by omega)
      exact ⟨hstep, by omega⟩

theorem jumpToMove_spec (h : s.InStep moves) (hlo : -1 ≤ moveno) (hhi : moveno < moves.length) :
    (s.jumpToMove moveno).InStep moves ∧ ((s.jumpToMove moveno).page.index : Int) = moveno + 1 := by
  have hle := h.index
  obtain ⟨hnext, hi⟩ := nextClicks_spec h (n := (moveno + 1 - s.page.index).toNat) (by omega)
  obtain ⟨hprev, hj⟩ := prevClicks_spec hnext
    (n := ((s.nextClicks (moveno + 1 - s.page.index).toNat).page.index - (moveno + 1)).toNat)
    (by omega)
  refine ⟨hprev, ?_⟩
  simp only [Game.jumpToMove]
  omega

theorem Game.InStep.apply (h : s.InStep moves) (ho : op.Offered moves.length) :
    (op.apply s).InStep moves := by
  cases op with
  | next => exact h.next
  | prev => exact h.prev
  | jumpToMove moveno => exact (jumpToMove_spec h ho.1 ho.2).1

theorem Game.InStep.run (h : s.InStep moves) (ho : ∀ op ∈ ops, op.Offered moves.length) :
    (s.run ops).InStep moves := by
  induction ops generalizing s with
  | nil => exact h
  | cons op ops ih =>
    obtain ⟨hop, hops⟩ := List.forall_mem_cons.mp ho
    exact ih (h.apply hop) hops

end Steps

section Loaded

variable {P : Type} {s : Game P}

theorem Game.Loaded.inStep (h : s.Loaded) : s.InStep s.page.moveArray where
  moveArray := rfl
  index := by
    rw [h.index]
    exact Nat.zero_le _
  board := by
    rw [h.index, h.board]
    rfl
  seen := by
    rw [h.index]
    exact Nat.zero_le _
  positions j p hp := by
    rw [h.positions] at hp
    cases hp

theorem index_updateEvals (answer : String → EvalBody P) (page : Page P) :
    (updateEvals answer page).index = page.index := by
  have hfold (fens : List Fen) (page : Page P) :
      (fens.foldl (evalFen answer) page).index = page.index := by
    induction fens generalizing page with
    | nil => rfl
    | cons f fens ih =>
      have hstep : (evalFen answer page f).index = page.index := by
        unfold evalFen
        split <;> rfl
      rw [List.foldl_cons, ih, hstep]
  exact hfold page.fens page

/-- A selected game is loaded, whatever comes as an answer. -/
theorem loaded_select (answer : String → EvalBody P) (id : Int) (result : List (Option Fen))
    (s : Game P) : (s.select answer id result).Loaded := by
  have hfen : (getFen id (some result) (submit id s.page)).index = 0 := by
    unfold getFen
    split <;> rfl
  exact ⟨(index_updateEvals answer _).trans hfen, rfl, rfl⟩

end Loaded

/-- Along any clicks and jumps in a loaded game the board shows the position of the
index, and every jump arrives. -/
theorem navigation_inStep {P : Type} [ToLocaleString P] (s : Game P) (h : s.Loaded)
    (ops : List Operation) (ho : ∀ op ∈ ops, op.Offered s.page.moveArray.length) :
    (s.run ops).InStep s.page.moveArray ∧
      ∀ k : Int, -1 ≤ k → k < s.page.moveArray.length →
        (((s.run ops).jumpToMove k).page.index : Int) = k + 1 := by
  have hrun := h.inStep.run ho
  exact ⟨hrun, fun k hlo hhi => (jumpToMove_spec hrun hlo hhi).2⟩

/-- Two moves are loaded, then one is shown and taken back. -/
theorem two_moves_inStep :
    (((⟨Page.boot, .start, []⟩ : Game Int).select drawn 1 [some afterE4, some afterE5]).run
      [.next, .jumpToMove (-1)]).InStep ["e2-e4", "e7-e5"] := by
  have hmoves : ((⟨Page.boot, .start, []⟩ : Game Int).select drawn 1
      [some afterE4, some afterE5]).page.moveArray = ["e2-e4", "e7-e5"] := by decide
  have ho : ∀ op ∈ [Operation.next, .jumpToMove (-1)], op.Offered ["e2-e4", "e7-e5"].length := by
    simp [Operation.Offered]
  rw [← hmoves] at ho ⊢
  exact (navigation_inStep _ (loaded_select drawn 1 [some afterE4, some afterE5]
    ⟨Page.boot, .start, []⟩) [.next, .jumpToMove (-1)] ho).1

end SmakChess.Web
