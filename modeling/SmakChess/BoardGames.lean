import SmakChess.BoardPage
import Mathlib.Data.Bool.AllAny

/-! The FEN of a played game on the board of the page, and the FEN of the board. -/

namespace SmakChess.Web

open Objects

section Games

variable {b : Board} {a rest : List Char} {q : Played} {t e : String} {i j s : Nat} {c : Char}
  {rows : List (List Char)} {obj : PositionObject}

/-- A square as it stands in an expanded FEN. -/
def charOf : SmakPiece → Char
  | .emptySquare => '1'
  | .man color kind => (SmakPiece.man color kind).toChar

theorem charOf_spec (k : SmakPiece) : charOf k ∈ fenLetters ∧ manOf (charOf k) = k := by
  cases k with
  | emptySquare => decide
  | man color kind => cases color <;> cases kind <;> decide

def rowsOfBoard (b : Board) : List (List Char) :=
  (List.range 8).map fun i => (List.range 8).map fun j => charOf (b (8 * i + j))

theorem fenRows_rowsOfBoard (b : Board) : FenRows (rowsOfBoard b) where
  length := by simp [rowsOfBoard]
  sections row hrow := by
    obtain ⟨i, -, rfl⟩ := List.mem_map.mp hrow
    refine ⟨by simp, fun c hc => ?_⟩
    obtain ⟨j, -, rfl⟩ := List.mem_map.mp hc
    exact (charOf_spec _).1

theorem cellOf_rowsOfBoard (hi : i < 8) (hj : j < 8) :
    cellOf (rowsOfBoard b) i j = charOf (b (8 * i + j)) := by
  have hrow : (rowsOfBoard b).getD i [] = (List.range 8).map fun j => charOf (b (8 * i + j)) := by
    rw [List.getD_eq_getElem _ _ (by simpa [rowsOfBoard] using hi)]
    simp [rowsOfBoard]
  rw [cellOf, hrow, List.getD_eq_getElem _ _ (by simpa using hj)]
  simp

theorem fenOf_rowsOfBoard (b : Board) : fenOf (rowsOfBoard b) = fenPlacement b :=
  fenOf_eq_placement (fenRows_rowsOfBoard b) fun i hi j hj => by
    rw [cellOf_rowsOfBoard hi hj, (charOf_spec _).2]

theorem boardOf_fenToRows (hs : s < 64) : boardOf (fenToRows (rowsOfBoard b)) s = b s := by
  have hi : s / 8 < 8 := by omega
  have hj : s % 8 < 8 := by omega
  have hrows := fenRows_rowsOfBoard b
  rw [boardOf, ← cellOf_rowsOf hi hj, rowsOf_fenToRows hrows, cellOf_rowsOfBoard hi hj, (charOf_spec _).2,
    Nat.div_add_mod]

/-- The fields behind the first space are cut off. -/
theorem cutInfo_append (ha : ' ' ∉ a) (hrest : rest ≠ [])
    (hline : ∀ c ∈ rest, lineTerminator c = false) : cutInfo (a ++ ' ' :: rest) = a := by
  induction a with
  | nil =>
    have hany : rest.any lineTerminator = false := List.any_eq_false.mpr fun c hc => by simp [hline c hc]
    rw [List.nil_append, cutInfo, if_pos ⟨rfl, hrest, by simp [hany]⟩]
  | cons c a ih =>
    obtain ⟨hc, ha⟩ : ' ' ≠ c ∧ ' ' ∉ a := by simpa using ha
    rw [List.cons_append, cutInfo, if_neg (fun hcut => hc hcut.1.symm), ih ha]

theorem lineTerminator_iff : lineTerminator c = true ↔ c ∈ "\n\r\u2028\u2029".toList :=
  List.contains_iff_mem

theorem not_terminator_of_digit (h : c.isDigit = true) : lineTerminator c = false := by
  have hall : ∀ c ∈ "\n\r\u2028\u2029".toList, c.isDigit = false :=
    List.all_iff_forall_prop.mp (by decide)
  rw [Bool.eq_false_iff]
  intro hline
  rw [hall c (lineTerminator_iff.mp hline)] at h
  cases h

theorem not_terminator_enPassant {p : Position} (h : FenEnPassant p e) :
    ∀ c ∈ e.toList, lineTerminator c = false := by
  rcases h with ⟨s, -, rfl⟩ | ⟨rfl, -⟩
  · have hfile : ∀ f < 8, lineTerminator (Char.ofNat ('a'.toNat + f)) = false := by decide
    intro c hc
    rw [squareName, String.toList_append, List.mem_append] at hc
    rcases hc with hc | hc
    · rw [show c = Char.ofNat ('a'.toNat + fileOf s) by simpa using hc]
      exact hfile (fileOf s) (Nat.mod_lt _ (by decide))
    · exact not_terminator_of_digit (isDigit_of_mem_toString hc)
  · exact List.all_iff_forall_prop.mp (by decide)

/-- What is left of a FEN is its placement field. -/
theorem cutInfo_fenText (he : ∀ c ∈ e.toList, lineTerminator c = false) :
    cutInfo (fenText q e).toList = (fenPlacement q.position.board).toList := by
  have hcastling : ∀ c ∈ (fenCastling q.position.right).toList, lineTerminator c = false := by
    simp only [fenCastling]
    generalize q.position.right .white .kingside = w
    generalize q.position.right .white .queenside = x
    generalize q.position.right .black .kingside = y
    generalize q.position.right .black .queenside = z
    cases w <;> cases x <;> cases y <;> cases z <;> exact List.all_iff_forall_prop.mp (by decide)
  have hside : ∀ c ∈ (fenSide q.position.turn).toList, lineTerminator c = false := by
    cases q.position.turn <;> exact List.all_iff_forall_prop.mp (by decide)
  have hnumber (n : Nat) : ∀ c ∈ (toString n).toList, lineTerminator c = false :=
    fun c hc => not_terminator_of_digit (isDigit_of_mem_toString hc)
  have htext : (fenText q e).toList = (fenPlacement q.position.board).toList ++ ' ' ::
      [' '].intercalate ([fenSide q.position.turn, fenCastling q.position.right, e,
        toString q.halfmoves, toString (q.plies / 2 + 1)].map String.toList) := by
    rw [fenText, String.toList_intercalate, List.map_cons, List.intercalate_cons_of_ne_nil (by simp),
      List.append_assoc]
    rfl
  rw [htext]
  refine cutInfo_append not_mem_fenPlacement ?_ fun c hc => ?_
  · cases hturn : q.position.turn <;> simp [fenSide, List.intercalate, List.intersperse]
  · rcases mem_of_mem_intercalate hc with hspace | ⟨field, hfield, hc⟩
    · rw [List.mem_singleton.mp hspace]
      decide
    · simp only [List.map_cons, List.map_nil, List.mem_cons, List.not_mem_nil, or_false] at hfield
      rcases hfield with rfl | rfl | rfl | rfl | rfl
      · exact hside c hc
      · exact hcastling c hc
      · exact he c hc
      · exact hnumber _ c hc
      · exact hnumber _ c hc

end Games

/-- A FEN of a played game is one for the board too, which then shows the position it
was made from, and whose own FEN is the first field of it. -/
theorem fenToObj_isFen {t : String} {q : Played} (h : IsFen t q) :
    ∃ obj, fenToObj t = some obj ∧ validPositionObject obj = true ∧
      objToFen obj = some (fenPlacement q.position.board) ∧
      ∀ s < 64, boardOf obj s = q.position.board s := by
  obtain ⟨e, he, rfl⟩ := h
  have hrows := fenRows_rowsOfBoard q.position.board
  have hexpand : expandFenEmptySquares (cutInfo (fenText q e).toList) =
      ['/'].intercalate (rowsOfBoard q.position.board) := by
    have hfen := expand_fenOf hrows
    rw [fenOf_rowsOfBoard, cutInfo_of_not_mem not_mem_fenPlacement] at hfen
    rw [cutInfo_fenText (not_terminator_enPassant he), hfen]
  have hvalid : validFen (fenText q e) = true := by
    rw [validFen_iff, hexpand, splitOn_rows hrows]
    exact hrows
  refine ⟨fenToRows (rowsOfBoard q.position.board), ?_, valid_fenToRows hrows, ?_,
    fun s hs => boardOf_fenToRows hs⟩
  · rw [fenToObj_eq hvalid, hexpand, splitOn_rows hrows]
  · rw [objToFen_eq (valid_fenToRows hrows), rowsOf_fenToRows hrows, fenOf_rowsOfBoard]

/-- 1. e4 -/
theorem fenToObj_isFen_e4 : ∃ obj, fenToObj (fenText (Played.initial.play (.quiet 52 36)) "e3") = some obj ∧
    validPositionObject obj = true ∧
    objToFen obj = some (fenPlacement (Played.initial.play (.quiet 52 36)).position.board) ∧
    ∀ s < 64, boardOf obj s = (Played.initial.play (.quiet 52 36)).position.board s :=
  fenToObj_isFen ⟨"e3", .inl ⟨44, by decide, by decide⟩, rfl⟩

/-- The FEN of a position is the placement of its pieces: it is read back as a
position with these pieces, and no position with other pieces has it. -/
theorem objToFen_spec {obj : PositionObject} (h : validPositionObject obj = true) :
    ∃ fen, objToFen obj = some fen ∧ fen = fenPlacement (boardOf obj) ∧
      (∃ obj', fenToObj fen = some obj' ∧ validPositionObject obj' = true ∧ obj'.get = obj.get) ∧
      ∀ other, validPositionObject other = true → (objToFen other = some fen ↔ other.get = obj.get) := by
  obtain ⟨fen, obj', hfen, hobj, hget⟩ := fenToObj_objToFen h
  refine ⟨fen, hfen, ?_, ⟨obj', hobj, ?_, hget⟩, fun other hother => ?_⟩
  · exact Option.some.inj (hfen.symm.trans (objToFen_placement h))
  · rw [validPositionObject_iff] at h ⊢
    rwa [hget]
  · rw [← hfen]
    exact objToFen_eq_iff hother h

theorem objToFen_spec_start : ∃ fen, objToFen startPosition = some fen ∧
    fen = fenPlacement (boardOf startPosition) := by
  obtain ⟨fen, hfen, hplacement, -⟩ := objToFen_spec startPosition_valid
  exact ⟨fen, hfen, hplacement⟩

/-- Of all texts that are read as one position, its own FEN is the one that counts
each run of empty squares and has no other field. -/
theorem fenToObj_spec {t : String} (h : validFen t = true) :
    ∃ obj fen, fenToObj t = some obj ∧ objToFen obj = some fen ∧ fenToObj fen = some obj ∧
      fen.toList = squeezeFenEmptySquares (expandFenEmptySquares (cutInfo t.toList)) ∧
      ∀ u, validFen u = true → (fenToObj u = some obj ↔
        expandFenEmptySquares (cutInfo u.toList) = expandFenEmptySquares (cutInfo t.toList)) := by
  obtain ⟨obj, hobj, hvalid, hfen⟩ := objToFen_fenToObj h
  have hrows := validFen_iff.mp h
  refine ⟨obj, _, hobj, hfen, ?_, String.toList_ofList, fun u hu => ?_⟩
  · have hself : objToFen obj = some (fenOf (rowsOf obj)) := objToFen_eq hvalid
    rw [fenToObj_eq h] at hobj
    obtain rfl := Option.some.inj hobj
    rw [hfen] at hself
    rw [Option.some.inj hself, fenToObj_fenOf (fenRows_rowsOf hvalid), rowsOf_fenToRows hrows]
  · rw [fenToObj_eq h] at hobj
    obtain rfl := Option.some.inj hobj
    rw [fenToObj_eq hu, Option.some_inj]
    constructor
    · intro heq
      -- both texts have the sections of the position
      have hsections := congrArg rowsOf heq
      rw [rowsOf_fenToRows (validFen_iff.mp hu), rowsOf_fenToRows hrows] at hsections
      have hjoin := congrArg (['/'].intercalate ·) hsections
      simpa only [List.intercalate_splitOn] using hjoin
    · intro heq
      rw [heq]

theorem fenToObj_spec_start : ∃ obj fen, fenToObj startFen = some obj ∧ objToFen obj = some fen ∧
    fenToObj fen = some obj := by
  obtain ⟨obj, fen, hobj, hfen, hback, -⟩ := fenToObj_spec validFen_startFen
  exact ⟨obj, fen, hobj, hfen, hback⟩

end SmakChess.Web
