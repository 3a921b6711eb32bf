import SmakChess.BoardRoundTrip

/-! The methods of `chessboard.js` that the page calls. -/

namespace SmakChess.Web

open Objects

/-- `START_POSITION`. -/
def startPosition : PositionObject := (fenToObj startFen).getD .empty

/-- What is passed to `widget.position`, where `other` is no text and no object. -/
inductive PositionArg
  | other
  | text (s : String)
  | object (pos : PositionObject)

def setCurrentPosition (currentPosition position : PositionObject) : PositionObject :=
  if objToFen currentPosition = objToFen position then currentPosition else position

/-- `widget.position`, to set a position. -/
def setPosition (currentPosition : PositionObject) (position : PositionArg) : PositionObject :=
  let position : PositionArg := match position with
    | .text s => if s.toLower = "start" then .object startPosition else position
    | _ => position
  let position : PositionArg := match position with
    | .text s => ((fenToObj s).map PositionArg.object).getD position
    | _ => position
  match position with
  | .object pos =>
    if validPositionObject pos then setCurrentPosition currentPosition pos else currentPosition
  | _ => currentPosition

def calculatePositionFromMoves (position : PositionObject) (moves : Object String String) :
    PositionObject :=
  moves.entries.foldl (fun newPosition e =>
    match newPosition.get e.1 with
    | none => newPosition
    | some piece => (newPosition.delete e.1).set e.2 piece) position

/-- The squares of an argument of `widget.move`, which is none for `false`. -/
def moveArgument (arg : Option String) : Option (String × String) :=
  arg.bind fun move =>
    if validMove move then
      match move.toList.splitOn '-' with
      | a :: b :: _ => some (String.ofList a, String.ofList b)
      | _ => none
    else none

def collectMoves (args : List (Option String)) : Object String String :=
  args.foldl (fun moves arg => ((moveArgument arg).map fun e => moves.set e.1 e.2).getD moves) .empty

/-- `widget.move`. -/
def widgetMove (currentPosition : PositionObject) (args : List (Option String)) : PositionObject :=
  if args = [] then currentPosition
  else setPosition currentPosition
    (.object (calculatePositionFromMoves currentPosition (collectMoves args)))

def widgetStart (currentPosition : PositionObject) : PositionObject :=
  setPosition currentPosition (.text "start")

/-! What the methods leave. -/

section Widget

variable {pos cur obj : PositionObject} {fen move a b : String} {args : List (Option String)}

theorem get_setCurrentPosition (h : validPositionObject cur = true) (hpos : validPositionObject pos = true) :
    (setCurrentPosition cur pos).get = pos.get ∧
      validPositionObject (setCurrentPosition cur pos) = true := by
  unfold setCurrentPosition
  split
  next heq => exact ⟨(objToFen_eq_iff h hpos).mp heq, h⟩
  · exact ⟨rfl, hpos⟩

theorem setPosition_object (h : validPositionObject cur = true) (hpos : validPositionObject pos = true) :
    (setPosition cur (.object pos)).get = pos.get ∧
      validPositionObject (setPosition cur (.object pos)) = true := by
  have hset : setPosition cur (.object pos) = setCurrentPosition cur pos := by
    simp only [setPosition, hpos, if_true]
  rw [hset]
  exact get_setCurrentPosition h hpos

theorem mem_of_mem_cutInfo {c : Char} {s : List Char} (h : c ∈ cutInfo s) : c ∈ s := by
  induction s with
  | nil => exact h
  | cons d s ih =>
    rw [cutInfo] at h
    split at h
    · cases h
    · exact (List.mem_cons.mp h).elim (fun h => h ▸ List.mem_cons_self)
        fun h => List.mem_cons_of_mem d (ih h)

theorem toList_toLower (s : String) : s.toLower.toList = s.toList.map Char.toLower := String.toList_map

/-- A FEN that is accepted has slashes, so it is not taken for the name of the start. -/
theorem toLower_ne_start (h : validFen fen = true) : fen.toLower ≠ "start" := by
  intro hstart
  have hslash : '/' ∉ fen.toList := by
    intro hmem
    have hlower : '/' ∈ fen.toLower.toList := by
      rw [toList_toLower]
      exact List.mem_map.mpr ⟨'/', hmem, by decide⟩
    rw [hstart] at hlower
    exact absurd hlower (by decide)
  have hexpand : '/' ∉ expandFenEmptySquares (cutInfo fen.toList) := by
    rw [expandFenEmptySquares_eq, List.mem_flatMap]
    rintro ⟨c, hc, hmem⟩
    exact not_mem_expandLetter (fun heq => hslash (heq ▸ mem_of_mem_cutInfo hc)) hmem
  have hlen := (validFen_iff.mp h).length
  rw [List.splitOn_eq_singleton hexpand] at hlen
  exact absurd hlen (by simp)

theorem setPosition_fen (h : validPositionObject cur = true) (hfen : fenToObj fen = some obj) :
    (setPosition cur (.text fen)).get = obj.get ∧
      validPositionObject (setPosition cur (.text fen)) = true := by
  have hvalid : validFen fen = true := by
    unfold fenToObj at hfen
    split_ifs at hfen with hvalid
    exact hvalid
  obtain ⟨obj', hobj, hpos, -⟩ := objToFen_fenToObj hvalid
  obtain rfl : obj = obj' := Option.some.inj (hfen.symm.trans hobj)
  have hset : setPosition cur (.text fen) = setCurrentPosition cur obj := by
    simp only [setPosition, if_neg (toLower_ne_start hvalid), hfen, Option.map_some, Option.getD_some,
      hpos, if_true]
  rw [hset]
  exact get_setCurrentPosition h hpos

theorem validFen_startFen : validFen startFen = true := by decide +kernel

theorem startPosition_valid : validPositionObject startPosition = true := by
  obtain ⟨obj, hobj, hpos, -⟩ := objToFen_fenToObj validFen_startFen
  rw [startPosition, hobj]
  exact hpos

theorem widgetStart_spec (h : validPositionObject cur = true) :
    (widgetStart cur).get = startPosition.get ∧ validPositionObject (widgetStart cur) = true := by
  obtain ⟨obj, hobj, hpos, -⟩ := objToFen_fenToObj validFen_startFen
  have hstart : startPosition = obj := by rw [startPosition, hobj, Option.getD_some]
  have hset : widgetStart cur = setCurrentPosition cur startPosition := by
    have hlower : "start".toLower = "start" := by
      rw [← String.toList_inj, toList_toLower]
      decide
    simp only [widgetStart, setPosition, hlower, if_true, hstart, hpos]
  rw [hset]
  exact get_setCurrentPosition h (hstart ▸ hpos)

/-- An argument of `widget.move` is taken apart as the page's moves are. -/
theorem moveArgument_some (move : String) : moveArgument (some move) = squaresOf move := by
  have hdash : validFile '-' = false ∧ validRank '-' = false := by decide
  rw [moveArgument, Option.bind_some]
  cases hsq : squaresOf move with
  | some ab =>
    unfold squaresOf at hsq
    split at hsq
    next x r y q hlist =>
      split_ifs at hsq with hv
      obtain rfl : (String.ofList [x, r], String.ofList [y, q]) = ab := Option.some.inj hsq
      simp only [Bool.and_eq_true] at hv
      obtain ⟨⟨⟨hx, hr⟩, hy⟩, hq⟩ := hv
      have hfirst : '-' ∉ [x, r] := by
        intro hmem
        rcases List.mem_pair.mp hmem with heq | heq
        · rw [← heq, hdash.1] at hx
          cases hx
        · rw [← heq, hdash.2] at hr
          cases hr
      have hsecond : '-' ∉ [y, q] := by
        intro hmem
        rcases List.mem_pair.mp hmem with heq | heq
        · rw [← heq, hdash.1] at hy
          cases hy
        · rw [← heq, hdash.2] at hq
          cases hq
      have hsplit : move.toList.splitOn '-' = [[x, r], [y, q]] := by
        rw [hlist, show [x, r, '-', y, q] = [x, r] ++ '-' :: [y, q] from rfl,
          List.splitOn_append_cons_self_of_not_mem hfirst, List.splitOn_eq_singleton hsecond]
      have hmove : validMove move = true := by
        simp [validMove, hsplit, validSquare, hx, hr, hy, hq]
      rw [if_pos hmove, hsplit]
    · cases hsq
  | none =>
    split
    next hmove =>
      exfalso
      unfold validMove at hmove
      split at hmove
      next x y hsplit =>
        have hlist : move.toList = x ++ '-' :: y := by
          have hjoin : ['-'].intercalate (move.toList.splitOn '-') = move.toList :=
            List.intercalate_splitOn '-'
          rw [hsplit] at hjoin
          simpa [List.intercalate, List.intersperse] using hjoin.symm
        simp only [validSquare, Bool.and_eq_true, String.toList_ofList] at hmove
        obtain ⟨hx, hy⟩ := hmove
        split at hx
        next f r =>
          split at hy
          next g q =>
            rw [Bool.and_eq_true] at hx hy
            simp [squaresOf, hlist, hx.1, hx.2, hy.1, hy.2] at hsq
          · cases hy
        · cases hx
      · cases hmove
    · rfl

end Widget

/-! Moves. -/

section Moves

variable {cur : PositionObject} {o : Object String String} {p : BoardPosition} {move a b k v : String}
  {args : List (Option String)} {es : List (String × String)}

/-- A piece goes from one square to another, if there is one. -/
def BoardPosition.carry (p : BoardPosition) (e : String × String) : BoardPosition :=
  match p e.1 with
  | none => p
  | some piece => Function.update (Function.update p e.1 none) e.2 (some piece)

theorem move_eq_carry (p : BoardPosition) (move : String) :
    p.move move = ((squaresOf move).map p.carry).getD p := by
  rw [BoardPosition.move]
  cases squaresOf move <;> rfl

theorem get_carry (piece : String) : ((cur.delete a).set b piece).get =
    Function.update (Function.update cur.get a none) b (some piece) := by
  funext square
  simp only [get_set, get_delete, Function.update_apply]

theorem squaresOf_valid {e : String × String} (h : squaresOf move = some e) :
    validSquare e.1 = true ∧ validSquare e.2 = true := by
  unfold squaresOf at h
  split at h
  next x r y q hlist =>
    split_ifs at h with hv
    simp only [Bool.and_eq_true] at hv
    obtain rfl : (String.ofList [x, r], String.ofList [y, q]) = e := Option.some.inj h
    simp [validSquare, hv]
  · cases h

theorem get_calculatePositionFromMoves (o : Object String String) (cur : PositionObject) :
    (calculatePositionFromMoves cur o).get = o.entries.foldl BoardPosition.carry cur.get := by
  rw [calculatePositionFromMoves]
  generalize o.entries = es
  induction es generalizing cur with
  | nil => rfl
  | cons e es ih =>
    rw [List.foldl_cons, List.foldl_cons, ih]
    congr 1
    rw [BoardPosition.carry]
    cases h : cur.get e.1 with
    | none => rfl
    | some piece => exact get_carry piece

theorem valid_carry {e : String × String} (hsq : validSquare e.2 = true)
    (h : ∀ square code, p square = some code → validSquare square = true ∧ validPieceCode code = true) :
    ∀ square code, p.carry e square = some code →
      validSquare square = true ∧ validPieceCode code = true := by
  intro square code hget
  cases hpiece : p e.1 with
  | none =>
    simp only [BoardPosition.carry, hpiece] at hget
    exact h square code hget
  | some piece =>
    simp only [BoardPosition.carry, hpiece, Function.update_apply] at hget
    split_ifs at hget with hto hfrom
    · obtain rfl := Option.some.inj hget
      exact ⟨hto ▸ hsq, (h e.1 piece hpiece).2⟩
    · exact h square code hget

theorem valid_calculatePositionFromMoves (h : validPositionObject cur = true)
    (hsq : ∀ e ∈ o.entries, validSquare e.2 = true) :
    validPositionObject (calculatePositionFromMoves cur o) = true := by
  rw [validPositionObject_iff] at h ⊢
  rw [get_calculatePositionFromMoves]
  generalize o.entries = es at hsq
  generalize cur.get = p at h
  induction es generalizing p with
  | nil => exact h
  | cons e es ih =>
    obtain ⟨he, hes⟩ := List.forall_mem_cons.mp hsq
    exact ih hes _ (valid_carry he h)

theorem collectMoves_mem : ∀ e ∈ (collectMoves args).entries, validSquare e.2 = true := by
  rw [collectMoves]
  suffices h : ∀ o : Object String String, (∀ e ∈ o.entries, validSquare e.2 = true) →
      ∀ e ∈ (args.foldl (fun moves arg =>
        ((moveArgument arg).map fun e => moves.set e.1 e.2).getD moves) o).entries,
        validSquare e.2 = true from h .empty (fun e he => absurd he List.not_mem_nil)
  induction args with
  | nil => exact fun o ho => ho
  | cons arg args ih =>
    intro o ho
    rw [List.foldl_cons]
    apply ih
    cases hsq : moveArgument arg with
    | none => exact ho
    | some ab =>
      have hvalid : validSquare ab.2 = true := by
        cases arg with
        | none => cases hsq
        | some move =>
          rw [moveArgument_some] at hsq
          exact (squaresOf_valid hsq).2
      rintro ⟨k, v⟩ he
      rw [Option.map_some, Option.getD_some, mem_entries, get_set] at he
      split at he
      · obtain rfl := by simpa using he
        exact hvalid
      · exact ho (k, v) (mem_entries.mpr he)

/-- The moves in the order of the arguments, as long as no two start from one
square. -/
theorem entries_collectMoves (h : ((args.filterMap moveArgument).map Prod.fst).Nodup) :
    (collectMoves args).entries = args.filterMap moveArgument := by
  rw [collectMoves]
  suffices hall : ∀ o : Object String String,
      ((o.entries ++ args.filterMap moveArgument).map Prod.fst).Nodup →
      (args.foldl (fun moves arg => ((moveArgument arg).map fun e => moves.set e.1 e.2).getD moves)
        o).entries = o.entries ++ args.filterMap moveArgument from
    hall .empty h
  clear h
  induction args with
  | nil => intro o _; simp
  | cons arg args ih =>
    intro o ho
    rw [List.foldl_cons]
    cases hsq : moveArgument arg with
    | none =>
      rw [List.filterMap_cons_none hsq] at ho ⊢
      exact ih o ho
    | some ab =>
      rw [List.filterMap_cons_some hsq] at ho ⊢
      have hnew : ab.1 ∉ o.keys := by
        rw [List.map_append, List.map_cons] at ho
        intro hmem
        exact (List.nodup_append.mp ho).2.2 ab.1 hmem ab.1 List.mem_cons_self rfl
      have hset : (o.set ab.1 ab.2).entries = o.entries ++ [ab] := entries_set_of_not_mem hnew
      rw [Option.map_some, Option.getD_some, ih (o.set ab.1 ab.2) (by rw [hset]; simpa using ho), hset]
      simp

/-- Moves that start from different squares are played one after another. -/
theorem widgetMove_spec (h : validPositionObject cur = true)
    (hargs : ((args.filterMap moveArgument).map Prod.fst).Nodup) :
    (widgetMove cur args).get = (args.filterMap moveArgument).foldl BoardPosition.carry cur.get ∧
      validPositionObject (widgetMove cur args) = true := by
  have hcalc : validPositionObject (calculatePositionFromMoves cur (collectMoves args)) = true :=
    valid_calculatePositionFromMoves h collectMoves_mem
  unfold widgetMove
  split
  next hnil =>
    subst hnil
    exact ⟨rfl, h⟩
  · obtain ⟨hget, hvalid⟩ := setPosition_object h hcalc
    rw [hget, get_calculatePositionFromMoves, entries_collectMoves hargs]
    exact ⟨rfl, hvalid⟩

theorem widgetMove_single (h : validPositionObject cur = true) (move : String) :
    (widgetMove cur [some move]).get = BoardPosition.move cur.get move ∧
      validPositionObject (widgetMove cur [some move]) = true := by
  have hargs : (([some move].filterMap moveArgument).map Prod.fst).Nodup := by
    rw [List.filterMap_cons, moveArgument_some]
    cases squaresOf move <;> simp
  obtain ⟨hget, hvalid⟩ := widgetMove_spec h hargs
  refine ⟨?_, hvalid⟩
  rw [hget, move_eq_carry, List.filterMap_cons, moveArgument_some]
  cases squaresOf move <;> rfl

end Moves

end SmakChess.Web
