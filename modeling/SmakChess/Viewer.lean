import SmakChess.FenList
import Mathlib.Data.List.ReduceOption

/-! The page that shows a game: the positions of the game, its moves and the
evaluations of its positions. -/

namespace SmakChess.Web

/-- A number as the page shows it, with two digits after the point. -/
class ToLocaleString (P : Type) where
  toLocaleString : P → String

export ToLocaleString (toLocaleString)

/-- A position in the response of `GET /games/fen/{id}`. -/
structure Fen where
  id : Int
  ply : Int
  fenString : String
  move : String
  deriving DecidableEq, Repr

/-- An entry of the response of `POST /fen/eval`. -/
structure EvalBody (P : Type) where
  ply : Int
  forcedMate : Bool
  pawnEval : P
  bestmove : String
  ponder : String
  deriving DecidableEq, Repr

/-- An evaluation, with the position `fen` that it was fetched for. -/
structure Evaluation (P : Type) extends EvalBody P where
  fen : String
  deriving DecidableEq, Repr

/-- `evals_dict`: an evaluation stands under the position it was fetched for. -/
structure EvalsDict (P : Type) where
  get : String → Option (Evaluation P)
  keyed : ∀ {x a}, get x = some a → a.fen = x

structure MoveCell where
  cellid : Nat
  move : String
  deriving DecidableEq, Repr

structure MoveRow where
  moveno : Nat
  white : MoveCell
  black : Option MoveCell
  deriving DecidableEq, Repr

structure EvalRow where
  plycol : String
  evcol : String
  bmcol : String
  pdcol : String
  deriving DecidableEq, Repr

/-- The globals of the page and its two tables. `movestable` is without its
header. -/
structure Page (P : Type) where
  moveArray : List String
  evals : Int → Option (Evaluation P)
  fens : List Fen
  selectedId : Int
  evalsDict : EvalsDict P
  movestable : List MoveRow
  evaltable : EvalRow
  index : Nat

section Functions

variable {P : Type}

def EvalsDict.empty : EvalsDict P where
  get _ := none
  keyed h := by cases h

def Page.boot : Page P where
  moveArray := []
  evals _ := none
  fens := []
  selectedId := 1
  evalsDict := .empty
  movestable := []
  evaltable := ⟨"0", "", "", ""⟩
  index := 0

def EvalsDict.set (d : EvalsDict P) (item : Evaluation P) : EvalsDict P where
  get := Function.update d.get item.fen (some item)
  keyed {x a} h := by
    by_cases hx : x = item.fen
    · rw [hx, Function.update_self] at h
      rw [hx, Option.some.inj h]
    · rw [Function.update_of_ne hx] at h
      exact d.keyed h

/-- `r[0].ply = f.ply`, and `f` as the position that was sent. -/
def Evaluation.fetched (f : Fen) (r : EvalBody P) : Evaluation P :=
  { r with ply := f.ply, fen := f.fenString }

def Evaluation.columns [ToLocaleString P] (a : Evaluation P) : EvalRow where
  plycol := toString a.ply
  evcol := if a.forcedMate then "M*" else toLocaleString a.pawnEval
  bmcol := a.bestmove
  pdcol := a.ponder

def EvalRow.cleared : EvalRow := ⟨"", "", "", ""⟩

def dashed (mv : String) : String :=
  String.ofList (mv.toList.take 2 ++ '-' :: mv.toList.drop 2)

def populateMoveArray (mvs : List String) : List String := mvs.map dashed

/-- The rows that `populateMovesTable` inserts, from the move with index `i` on. -/
def moveRows (moveno i : Nat) : List Fen → List MoveRow
  | [] => []
  | [w] => [⟨moveno, ⟨i, w.move⟩, none⟩]
  | w :: b :: moves =>
    ⟨moveno, ⟨i, w.move⟩, some ⟨i + 1, b.move⟩⟩ :: moveRows (moveno + 1) (i + 2) moves

def populateMovesTable (rows : List MoveRow) (moves : List Fen) : List MoveRow :=
  rows ++ moveRows 1 0 moves

/-- What `getFen` does once its request is answered; `none` is a failed
request. -/
def getFen (id : Int) (response : Option (List (Option Fen))) (s : Page P) : Page P :=
  if id ≤ 0 then s
  else match response with
    | none => s
    | some result =>
      let fens := result.reduceOption
      { s with
        fens := fens
        moveArray := populateMoveArray (fens.map Fen.move)
        movestable := populateMovesTable s.movestable fens }

def Page.setEval (s : Page P) (f : Fen) (item : Evaluation P) : Page P :=
  { s with evals := Function.update s.evals (f.ply - 1) (some item) }

def Page.store (s : Page P) (f : Fen) (r : EvalBody P) : Page P :=
  { s with evalsDict := s.evalsDict.set (.fetched f r) }.setEval f (.fetched f r)

/-- The loop body of `updateEvals`, with the answer that its request gets. -/
def evalFen (answer : String → EvalBody P) (s : Page P) (f : Fen) : Page P :=
  match s.evalsDict.get f.fenString with
  | some item => s.setEval f item
  | none => s.store f (answer f.fenString)

def updateEvals (answer : String → EvalBody P) (s : Page P) : Page P :=
  s.fens.foldl (evalFen answer) s

def clearEvalTbl (s : Page P) : Page P := { s with evaltable := .cleared }

def updateEvalTbl [ToLocaleString P] (plyno : Int) (s : Page P) : Page P :=
  match s.evals (plyno - 1) with
  | none => s
  | some a => { s with evaltable := a.columns }

def setPlyCounter (text : String) (s : Page P) : Page P :=
  { s with evaltable := { s.evaltable with plycol := text } }

def nextbtn [ToLocaleString P] (s : Page P) : Page P :=
  if s.index < s.moveArray.length then
    let index := s.index + 1
    updateEvalTbl index (clearEvalTbl (setPlyCounter (toString index) { s with index := index }))
  else s

/-- With `index` back at 0 the first row of the moves is coloured, which ends in
an exception when there is none. -/
def prevbtn [ToLocaleString P] (s : Page P) : Page P :=
  if s.moveArray = [] then s
  else
    let s := if s.index ≤ 1 then setPlyCounter "0" (clearEvalTbl s) else s
    if s.index = 0 then s
    else
      let index := s.index - 1
      let s := { s with index := index }
      if index = 0 ∧ s.movestable = [] then s
      else updateEvalTbl index (clearEvalTbl (setPlyCounter (toString index) s))

/-- The submit handler, up to `getFen`. -/
def submit (id : Int) (s : Page P) : Page P :=
  { s with
    evals := fun _ => none
    index := 0
    movestable := []
    evaltable := .cleared
    selectedId := id }

/-- The whole submit handler, where `result` answers `getFen` and `answer` the
requests of `updateEvals`. -/
def select (answer : String → EvalBody P) (id : Int) (result : List (Option Fen))
    (s : Page P) : Page P :=
  updateEvals answer (getFen id (some result) (submit id s))

end Functions

def InWhite (rows : List MoveRow) (i : Nat) (move : String) : Prop :=
  ∃ row ∈ rows, row.white = ⟨i, move⟩

/-- The page shows the evaluation that was fetched for the position after the
move at `index`, and that move in the column of the side that made it. -/
def ShowsMove {P : Type} [ToLocaleString P] (s : Page P) : Prop :=
  ∃ f a, s.fens[s.index - 1]? = some f ∧
    s.moveArray[s.index - 1]? = some (dashed f.move) ∧
    s.evalsDict.get f.fenString = some a ∧ s.evaltable = a.columns ∧
    (InWhite s.movestable (s.index - 1) f.move ↔ f.ply % 2 = 1)

/-- Entry `i` has ply `n + i + 1`, or is null. -/
def Numbered (n : Int) (result : List (Option Fen)) : Prop :=
  ∀ (i : Nat) (f : Fen), result[i]? = some (some f) → f.ply = n + i + 1

def NoGap (result : List (Option Fen)) : Prop :=
  ∀ (i j : Nat) (f : Fen), i < j → result[j]? = some (some f) → result[i]? ≠ some none

def Aligned (n : Int) (l : List Fen) : Prop :=
  ∀ (j : Nat) (f : Fen), l[j]? = some f → f.ply = n + j + 1

section Nulls

variable {n : Int} {result : List (Option Fen)} {l : List Fen} {x : Option Fen} {f : Fen}

theorem numbered_cons (h : Numbered n (x :: result)) : Numbered (n + 1) result := by
  intro i f hf
  have hply := h (i + 1) f (by simpa using hf)
  push_cast at hply
  omega

theorem Numbered.lt_ply (h : Numbered n result) (hf : f ∈ result.reduceOption) : n < f.ply := by
  rw [List.reduceOption_mem_iff] at hf
  obtain ⟨i, hi⟩ := List.mem_iff_getElem?.mp hf
  have hply := h i f hi
  omega

theorem Numbered.pairwise (h : Numbered n result) :
    result.reduceOption.Pairwise fun f g => f.ply < g.ply := by
  induction result generalizing n with
  | nil => exact List.Pairwise.nil
  | cons x result ih =>
    have hrest := numbered_cons h
    cases x with
    | none => simpa using ih hrest
    | some f =>
      have hply : f.ply = n + 1 := by simpa using h 0 f rfl
      rw [List.reduceOption_cons_of_some, List.pairwise_cons]
      refine ⟨fun g hg => ?_, ih hrest⟩
      have hlt := hrest.lt_ply hg
      omega

theorem noGap_cons_some : NoGap (some f :: result) ↔ NoGap result := by
  constructor
  · intro h i j g hij hj
    exact h (i + 1) (j + 1) g (by omega) (by simpa using hj)
  · intro h i j g hij hj
    cases i with
    | zero => simp
    | succ i =>
      cases j with
      | zero => omega
      | succ j => exact h i j g (by omega) (by simpa using hj)

theorem noGap_cons_none : NoGap (none :: result) ↔ result.reduceOption = [] := by
  rw [List.eq_nil_iff_forall_not_mem]
  constructor
  · intro h f hf
    rw [List.reduceOption_mem_iff] at hf
    obtain ⟨j, hj⟩ := List.mem_iff_getElem?.mp hf
    exact h 0 (j + 1) f (by omega) (by simpa using hj) rfl
  · intro h i j f hij hj
    cases j with
    | zero => omega
    | succ j =>
      have hmem : some f ∈ result := List.mem_of_getElem? (by simpa using hj)
      exact absurd (List.reduceOption_mem_iff.mpr hmem) (h f)

theorem aligned_cons : Aligned n (f :: l) ↔ f.ply = n + 1 ∧ Aligned (n + 1) l := by
  constructor
  · intro h
    refine ⟨by simpa using h 0 f rfl, fun j g hg => ?_⟩
    have hply := h (j + 1) g (by simpa using hg)
    push_cast at hply
    omega
  · rintro ⟨hf, h⟩ j g hg
    cases j with
    | zero =>
      obtain rfl : f = g := by simpa using hg
      simpa using hf
    | succ j =>
      have hply := h j g (by simpa using hg)
      push_cast
      omega

/-- The filter keeps index and ply together just when it only drops nulls at the
end. -/
theorem Numbered.noGap_iff (h : Numbered n result) :
    NoGap result ↔ Aligned n result.reduceOption := by
  induction result generalizing n with
  | nil => simp [NoGap, Aligned]
  | cons x result ih =>
    have hrest := numbered_cons h
    cases x with
    | some f =>
      have hply : f.ply = n + 1 := by simpa using h 0 f rfl
      rw [noGap_cons_some, List.reduceOption_cons_of_some, aligned_cons, ih hrest]
      simp [hply]
    | none =>
      rw [noGap_cons_none, List.reduceOption_cons_of_none]
      constructor
      · intro hnil
        simp [hnil, Aligned]
      · intro hal
        by_contra hne
        obtain ⟨f, l, hl⟩ := List.exists_cons_of_ne_nil hne
        -- The first position comes after the null, so its ply is too large.
        have hlt := hrest.lt_ply (f := f) (by simp [hl])
        rw [hl, aligned_cons] at hal
        omega

theorem aligned_of_exists (hs : l.Pairwise fun f g => f.ply < g.ply) (hn : ∀ f ∈ l, n < f.ply)
    (h : ∀ j, j < l.length → ∃ g ∈ l, g.ply = n + j + 1) : Aligned n l := by
  induction l generalizing n with
  | nil => simp [Aligned]
  | cons f l ih =>
    obtain ⟨hlt, hs⟩ := List.pairwise_cons.mp hs
    have hf : f.ply = n + 1 := by
      obtain ⟨g, hg, hply⟩ := h 0 (by simp)
      have hnf := hn f (by simp)
      rcases List.mem_cons.mp hg with rfl | hg
      · simpa using hply
      · have hfg := hlt g hg
        omega
    refine aligned_cons.mpr ⟨hf, ih hs (fun g hg => ?_) fun j hj => ?_⟩
    · have hfg := hlt g hg
      omega
    · obtain ⟨g, hg, hply⟩ := h (j + 1) (by simpa using hj)
      push_cast at hply
      rcases List.mem_cons.mp hg with rfl | hg
      · omega
      · exact ⟨g, hg, by omega⟩

end Nulls

section Rows

variable {rows : List MoveRow} {moves : List Fen} {moveno i j : Nat} {mv : String}

theorem cellid_of_moveRows {row : MoveRow} (h : row ∈ moveRows moveno i moves) :
    i ≤ row.white.cellid := by
  induction moveno, i, moves using moveRows.induct with
  | case1 => simp [moveRows] at h
  | case2 moveno i w =>
    obtain rfl : row = ⟨moveno, ⟨i, w.move⟩, none⟩ := by simpa [moveRows] using h
    exact le_rfl
  | case3 moveno i w b moves ih =>
    rcases List.mem_cons.mp h with rfl | h
    · exact le_rfl
    · have hle := ih h
      omega

theorem inWhite_moveRows (moveno i : Nat) {f : Fen} (h : moves[j]? = some f) :
    InWhite (moveRows moveno i moves) (i + j) f.move ↔ j % 2 = 0 := by
  induction moveno, i, moves using moveRows.induct generalizing j with
  | case1 => simp at h
  | case2 moveno i w =>
    cases j with
    | zero =>
      obtain rfl : w = f := by simpa using h
      simp [InWhite, moveRows]
    | succ j => simp at h
  | case3 moveno i w b moves ih =>
    have hlater {row : MoveRow} (hrow : row ∈ moveRows (moveno + 1) (i + 2) moves) :
        i + 2 ≤ row.white.cellid := cellid_of_moveRows hrow
    match j with
    | 0 =>
      obtain rfl : w = f := by simpa using h
      simp [InWhite, moveRows]
    | 1 =>
      refine iff_of_false ?_ (by omega)
      rintro ⟨row, hrow, hcell⟩
      rcases List.mem_cons.mp hrow with rfl | hrow
      · simp at hcell
      · have hle := hlater hrow
        rw [hcell] at hle
        simp at hle
    | j + 2 =>
      have hih := ih (j := j) (by simpa using h)
      have hj : i + (j + 2) = i + 2 + j := by omega
      rw [hj, InWhite, moveRows, List.exists_mem_cons_iff, or_iff_right (by simp; omega)]
      rw [InWhite] at hih
      rw [hih]
      omega

end Rows

section Loop

variable {P : Type} {answer : String → EvalBody P} {s : Page P} {f : Fen} {l : List Fen}

theorem EvalsDict.set_get (d : EvalsDict P) (item : Evaluation P) (x : String) :
    (d.set item).get x = if x = item.fen then some item else d.get x := by
  simp only [EvalsDict.set, Function.update_apply]

theorem evalFen_of_none (h : s.evalsDict.get f.fenString = none) :
    evalFen answer s f = s.store f (answer f.fenString) := by
  simp [evalFen, h]

theorem evalFen_of_some {item : Evaluation P} (h : s.evalsDict.get f.fenString = some item) :
    evalFen answer s f = s.setEval f item := by
  simp [evalFen, h]

/-- One round writes one evaluation to `evals`, the one that `evals_dict` then has
for the position, and loses none that `evals_dict` had. -/
theorem evalFen_eq (answer : String → EvalBody P) (s : Page P) (f : Fen) :
    ∃ (d : EvalsDict P) (item : Evaluation P),
      evalFen answer s f = { s with evalsDict := d }.setEval f item ∧
      d.get f.fenString = some item ∧
      ∀ x a, s.evalsDict.get x = some a → d.get x = some a := by
  cases hc : s.evalsDict.get f.fenString with
  | some item => exact ⟨s.evalsDict, item, evalFen_of_some hc, hc, fun x a h => h⟩
  | none =>
    refine ⟨s.evalsDict.set (.fetched f (answer f.fenString)), .fetched f (answer f.fenString),
      evalFen_of_none hc, ?_, fun x a h => ?_⟩
    · rw [EvalsDict.set_get]
      exact if_pos rfl
    · have hne : x ≠ f.fenString := by
        rintro rfl
        rw [hc] at h
        cases h
      rw [EvalsDict.set_get, ← h]
      exact if_neg hne

theorem foldl_evalFen_eq (answer : String → EvalBody P) (s : Page P) (l : List Fen) :
    ∃ (d : EvalsDict P) (ev : Int → Option (Evaluation P)),
      l.foldl (evalFen answer) s = { s with evalsDict := d, evals := ev } := by
  induction l generalizing s with
  | nil => exact ⟨s.evalsDict, s.evals, rfl⟩
  | cons f l ih =>
    obtain ⟨d, ev, hl⟩ := ih (evalFen answer s f)
    obtain ⟨d', item, hf, -⟩ := evalFen_eq answer s f
    refine ⟨d, ev, ?_⟩
    rw [List.foldl_cons, hl, hf]
    rfl

theorem evalsDict_mono {x : String} {a : Evaluation P} (h : s.evalsDict.get x = some a) :
    (l.foldl (evalFen answer) s).evalsDict.get x = some a := by
  induction l generalizing s with
  | nil => exact h
  | cons f l ih =>
    obtain ⟨d, item, hf, -, hmono⟩ := evalFen_eq answer s f
    apply ih
    rw [hf]
    exact hmono x a h

theorem evals_of_not_mem {p : Int} (h : ∀ f ∈ l, f.ply - 1 ≠ p) :
    (l.foldl (evalFen answer) s).evals p = s.evals p := by
  induction l generalizing s with
  | nil => rfl
  | cons f l ih =>
    obtain ⟨hf, hl⟩ := List.forall_mem_cons.mp h
    obtain ⟨d, item, he, -⟩ := evalFen_eq answer s f
    rw [List.foldl_cons, ih hl, he]
    exact Function.update_of_ne hf.symm _ _

theorem evals_of_mem (answer : String → EvalBody P) (s : Page P)
    (hs : l.Pairwise fun f g => f.ply < g.ply) (hf : f ∈ l) :
    ∃ item, (l.foldl (evalFen answer) s).evalsDict.get f.fenString = some item ∧
      (l.foldl (evalFen answer) s).evals (f.ply - 1) = some item := by
  induction l generalizing s with
  | nil => simp at hf
  | cons g l ih =>
    obtain ⟨hlt, hs⟩ := List.pairwise_cons.mp hs
    rcases List.mem_cons.mp hf with rfl | hf
    · obtain ⟨d, item, he, hget, -⟩ := evalFen_eq answer s f
      have hne : ∀ g ∈ l, g.ply - 1 ≠ f.ply - 1 := by
        intro g hg
        have hfg := hlt g hg
        omega
      refine ⟨item, ?_, ?_⟩
      · rw [List.foldl_cons, he]
        exact evalsDict_mono hget
      · rw [List.foldl_cons, evals_of_not_mem hne, he]
        exact Function.update_self _ _ _
    · exact ih (evalFen answer s g) hs hf

theorem getFen_some {id : Int} (hid : 0 < id) (result : List (Option Fen)) (s : Page P) :
    getFen id (some result) s =
      { s with
        fens := result.reduceOption
        moveArray := populateMoveArray (result.reduceOption.map Fen.move)
        movestable := populateMovesTable s.movestable result.reduceOption } := by
  rw [getFen, if_neg (by omega)]

theorem select_eq {id : Int} (hid : 0 < id) (result : List (Option Fen)) (s : Page P) :
    select answer id result s = result.reduceOption.foldl (evalFen answer)
      (getFen id (some result) (submit id s)) := by
  rw [select, updateEvals, getFen_some hid]

theorem select_frame (answer : String → EvalBody P) {id : Int} (hid : 0 < id)
    (result : List (Option Fen)) (s : Page P) :
    (select answer id result s).fens = result.reduceOption ∧
      (select answer id result s).moveArray =
        populateMoveArray (result.reduceOption.map Fen.move) ∧
      (select answer id result s).movestable = moveRows 1 0 result.reduceOption ∧
      (select answer id result s).index = 0 := by
  obtain ⟨d, ev, hl⟩ := foldl_evalFen_eq answer (getFen id (some result) (submit id s))
    result.reduceOption
  rw [select_eq hid, hl, getFen_some hid]
  exact ⟨rfl, rfl, rfl, rfl⟩

end Loop

section Next

variable {P : Type} [ToLocaleString P] {s : Page P} {answer : String → EvalBody P} {id : Int}
  {result : List (Option Fen)} {j : Nat}

theorem Evaluation.columns_ne_cleared (a : Evaluation P) : a.columns ≠ .cleared := by
  intro h
  have hply : toString a.ply = "" := congrArg EvalRow.plycol h
  rw [Int.toString_eq_repr] at hply
  cases hn : a.ply with
  | ofNat n =>
    rw [hn] at hply
    exact Nat.repr_ne_empty hply
  | negSucc n =>
    rw [hn] at hply
    simp [Int.repr] at hply

theorem updateEvalTbl_eq (plyno : Int) (s : Page P) :
    updateEvalTbl plyno s =
      { s with evaltable := (s.evals (plyno - 1)).elim s.evaltable Evaluation.columns } := by
  cases h : s.evals (plyno - 1) with
  | none => simp [updateEvalTbl, h]
  | some a => simp [updateEvalTbl, h]

/-- The page with the moves played up to `i`, once one has been. -/
def Page.playedTo (s : Page P) (i : Nat) : Page P :=
  { s with
    index := i
    evaltable := if i = 0 then s.evaltable
      else (s.evals ((i : Int) - 1)).elim .cleared Evaluation.columns }

theorem nextbtn_playedTo {i : Nat} (h : i < s.moveArray.length) :
    nextbtn (s.playedTo i) = s.playedTo (i + 1) := by
  have hi : (s.playedTo i).index < (s.playedTo i).moveArray.length := h
  rw [nextbtn, if_pos hi, updateEvalTbl_eq]
  simp [Page.playedTo, clearEvalTbl, setPlyCounter]

theorem nextbtn_iterate (h : s.index = 0) (k : Nat) :
    nextbtn^[k] s = s.playedTo (min k s.moveArray.length) := by
  induction k with
  | zero =>
    rw [Nat.zero_min, Page.playedTo, if_pos rfl, Function.iterate_zero_apply, ← h]
  | succ k ih =>
    rw [Function.iterate_succ_apply', ih]
    rcases Nat.lt_or_ge k s.moveArray.length with hk | hk
    · rw [Nat.min_eq_left hk.le, nextbtn_playedTo hk, Nat.min_eq_left hk]
    · rw [Nat.min_eq_right hk, Nat.min_eq_right (hk.trans k.le_succ), nextbtn,
        if_neg (by simp [Page.playedTo])]

theorem exists_ply_of_shows (hid : 0 < id)
    (h : ShowsMove ((select answer id result s).playedTo (j + 1))) :
    ∃ g ∈ result.reduceOption, g.ply = 0 + (j : Int) + 1 := by
  obtain ⟨f, a, -, -, -, htbl, -⟩ := h
  by_contra hno
  have hnone : (select answer id result s).evals ((j + 1 : Nat) - 1) = none := by
    rw [select_eq hid, evals_of_not_mem fun g hg hp => hno ⟨g, hg, by push_cast at hp; omega⟩,
      getFen_some hid]
    rfl
  simp only [Page.playedTo, Nat.succ_ne_zero, if_false, hnone, Option.elim_none] at htbl
  exact a.columns_ne_cleared htbl.symm

theorem shows_of_aligned (hid : 0 < id) (hn : Numbered 0 result)
    (hal : Aligned 0 result.reduceOption) (hj : j < result.reduceOption.length) :
    ShowsMove ((select answer id result s).playedTo (j + 1)) := by
  obtain ⟨hfens, hmoves, htable, -⟩ := select_frame answer hid result s
  obtain ⟨f, hf⟩ : ∃ f, result.reduceOption[j]? = some f := ⟨_, List.getElem?_eq_getElem hj⟩
  have hply := hal j f hf
  obtain ⟨item, hget, hev⟩ :=
    evals_of_mem answer (getFen id (some result) (submit id s)) hn.pairwise
      (List.mem_of_getElem? hf)
  rw [← select_eq hid] at hget hev
  refine ⟨f, item, ?_, ?_, hget, ?_, ?_⟩
  · simpa [Page.playedTo, hfens] using hf
  · simp [Page.playedTo, hmoves, populateMoveArray, hf]
  · have hidx : ((j + 1 : Nat) : Int) - 1 = f.ply - 1 := by omega
    simp only [Page.playedTo, Nat.succ_ne_zero, if_false, hidx, hev, Option.elim_some]
  · have hwhite := inWhite_moveRows 1 0 hf
    simp only [Nat.zero_add] at hwhite
    simp only [Page.playedTo, htable, Nat.add_sub_cancel, hwhite]
    omega

/-- The viewer follows a game just when no null comes before a position: `evals`
goes by ply, and the moves and the positions go by what the filter left. -/
theorem viewer_follows_iff (s : Page P) (answer : String → EvalBody P) (hid : 0 < id)
    (hform : Numbered 0 result) :
    (∀ k, 0 < (nextbtn^[k] (select answer id result s)).index →
      ShowsMove (nextbtn^[k] (select answer id result s))) ↔ NoGap result := by
  obtain ⟨-, hmoves, -, hindex⟩ := select_frame answer hid result s
  have hlen : (select answer id result s).moveArray.length = result.reduceOption.length := by
    simp [hmoves, populateMoveArray]
  constructor
  · intro h
    refine hform.noGap_iff.mpr (aligned_of_exists hform.pairwise (fun f hf => hform.lt_ply hf) ?_)
    intro j hj
    have hk := h (j + 1)
    rw [nextbtn_iterate hindex, hlen, Nat.min_eq_left hj] at hk
    exact exists_ply_of_shows hid (hk j.succ_pos)
  · intro h k hk
    rw [nextbtn_iterate hindex, hlen] at hk ⊢
    obtain ⟨j, hj⟩ : ∃ j, min k result.reduceOption.length = j + 1 :=
      Nat.exists_eq_succ_of_ne_zero (Nat.pos_iff_ne_zero.mp hk)
    rw [hj]
    exact shows_of_aligned hid hform (hform.noGap_iff.mp h) (by omega)

end Next

instance hundredths : ToLocaleString Int where
  toLocaleString n :=
    (if n < 0 then "-" else "") ++ toString (n.natAbs / 100) ++ "." ++
      toString (n.natAbs % 100 / 10) ++ toString (n.natAbs % 10)

def afterE4 : Fen where
  id := 1
  ply := 1
  fenString := "rnbqkbnr/pppppppp/8/8/4P3/8/PPPP1PPP/RNBQKBNR b KQkq - 0 1"
  move := "e2e4"

def afterE5 : Fen where
  id := 1
  ply := 2
  fenString := "rnbqkbnr/pppp1ppp/8/4p3/8/8/PPPPPPPP/RNBQKBNR w KQkq - 0 2"
  move := "e7e5"

def drawn (_ : String) : EvalBody Int := ⟨1, false, 0, "d2d4", "d7d5"⟩

/-- The first move of the game is not legal and the second one is. -/
theorem viewer_skips_ply : ¬ ∀ (s : Page Int) (answer : String → EvalBody Int) (id : Int)
    (result : List (Option Fen)), 0 < id → Numbered 0 result → ∀ k,
    0 < (nextbtn^[k] (select answer id result s)).index →
      ShowsMove (nextbtn^[k] (select answer id result s)) := by
  intro h
  have hform : Numbered 0 [none, some afterE5] := by
    intro i f hf
    match i with
    | 0 => simp at hf
    | 1 =>
      obtain rfl : afterE5 = f := by simpa using hf
      rfl
    | i + 2 => simp at hf
  have hid : (0 : Int) < 1 := by decide
  obtain ⟨-, hmoves, -, hindex⟩ := select_frame drawn hid [none, some afterE5] .boot
  have hlen : (select drawn 1 [none, some afterE5] .boot).moveArray.length = 1 := by
    rw [hmoves]
    rfl
  have hk := h .boot drawn 1 [none, some afterE5] hid hform 1
  rw [nextbtn_iterate hindex, hlen] at hk
  obtain ⟨g, hg, hply⟩ := exists_ply_of_shows (j := 0) hid (hk Nat.one_pos)
  obtain rfl : g = afterE5 := by simpa using hg
  simp [afterE5] at hply

theorem viewer_follows_iff_e4 :
    (∀ k, 0 < (nextbtn^[k] (select drawn 1 [some afterE4, none] .boot)).index →
      ShowsMove (nextbtn^[k] (select drawn 1 [some afterE4, none] .boot))) ↔
      NoGap [some afterE4, none] := by
  refine viewer_follows_iff .boot drawn (by decide) ?_
  intro i f hf
  match i with
  | 0 =>
    obtain rfl : afterE4 = f := by simpa using hf
    rfl
  | 1 => simp at hf
  | i + 2 => simp at hf

def Fen.ofDto (dto : FenDTO) : Fen where
  id := dto.id
  ply := dto.ply
  fenString := dto.fenString
  move := dto.move.getD ""

/-- The responses of the service have the form that the page expects. -/
theorem numbered_of_fenResponse {lib : Chess.Library} {id : Int} {rows : List StoredMove}
    {body : List (Option FenDTO)} (h : lib.fenResponse id rows = .ok body)
    (hlen : rows.length < 2 ^ 31) : Numbered 0 (body.map (Option.map Fen.ofDto)) := by
  intro i f hf
  simp only [List.getElem?_map, Option.map_eq_some_iff] at hf
  obtain ⟨_, hi, dto, rfl, rfl⟩ := hf
  obtain ⟨hply, hlt⟩ := lib.ply_of_entry h hi
  have hbmod : plyOfIndex i = (i : Int) + 1 := by
    apply Int.bmod_eq_of_le_mul_two
    · push_cast
      omega
    · push_cast
      omega
  simp only [Fen.ofDto, hply, hbmod]
  omega

end SmakChess.Web
