import SmakChess.BoardFen
import SmakChess.FenReading
import Mathlib.Data.Bool.AllAny
import Mathlib.Data.List.GetD
import Mathlib.Data.List.ProdSigma

/-! A position that is turned into a FEN comes back, and so does the placement
field of a FEN up to the way its empty squares are counted. -/

namespace SmakChess.Web

open Objects Texts

/-! Empty squares. -/

section Expand

variable {s t row : List Char} {c : Char} {r k n : Nat} {p : PositionObject}

/-- What `expandFenEmptySquares` makes of a letter. -/
def expandLetter (c : Char) : List Char := if '2' ≤ c ∧ c ≤ '8' then ones (c.toNat - '0'.toNat) else [c]

theorem exists_digit {a b : Char} (h : a ≤ c ∧ c ≤ b) :
    ∃ k < b.toNat - a.toNat + 1, c = Char.ofNat (a.toNat + k) := by
  have hlo : a.toNat ≤ c.toNat := h.1
  have hhi : c.toNat ≤ b.toNat := h.2
  exact ofNat_of_between _ _ _ hlo (by omega)

theorem expandFenEmptySquares_append (s t : List Char) :
    expandFenEmptySquares (s ++ t) = expandFenEmptySquares s ++ expandFenEmptySquares t := by
  simp only [expandFenEmptySquares, replaceLetter, List.flatMap_append]

theorem expandFenEmptySquares_singleton (c : Char) : expandFenEmptySquares [c] = expandLetter c := by
  by_cases h : '2' ≤ c ∧ c ≤ '8'
  · obtain ⟨k, hk, rfl⟩ := exists_digit h
    have hall : ∀ k < 7, expandFenEmptySquares [Char.ofNat (50 + k)] =
        expandLetter (Char.ofNat (50 + k)) := by decide
    exact hall k hk
  · have hne {d : Char} (hd : '2' ≤ d ∧ d ≤ '8') : c ≠ d := fun heq => h (heq ▸ hd)
    simp [expandFenEmptySquares, replaceLetter, expandLetter, h, hne (d := '2') (by decide),
      hne (d := '3') (by decide), hne (d := '4') (by decide), hne (d := '5') (by decide),
      hne (d := '6') (by decide), hne (d := '7') (by decide), hne (d := '8') (by decide)]

theorem expandFenEmptySquares_eq (s : List Char) :
    expandFenEmptySquares s = s.flatMap expandLetter := by
  induction s with
  | nil => rfl
  | cons c s ih =>
    rw [← List.singleton_append, expandFenEmptySquares_append, expandFenEmptySquares_singleton, ih,
      List.flatMap_append, List.flatMap_singleton]

/-- Squeezing a FEN does not change what it expands to. -/
theorem expand_squeeze (s : List Char) :
    (squeezeFenEmptySquares s).flatMap expandLetter = s.flatMap expandLetter := by
  unfold squeezeFenEmptySquares
  rw [flatMap_replaceAll (by decide) (by decide), flatMap_replaceAll (by decide) (by decide),
    flatMap_replaceAll (by decide) (by decide), flatMap_replaceAll (by decide) (by decide),
    flatMap_replaceAll (by decide) (by decide), flatMap_replaceAll (by decide) (by decide),
    flatMap_replaceAll (by decide) (by decide)]

theorem expandLetter_of_mem : ∀ c ∈ '/' :: fenLetters, expandLetter c = [c] :=
  List.all_iff_forall_prop.mp (by decide)

theorem flatMap_expandLetter_of_mem (h : ∀ c ∈ s, c ∈ '/' :: fenLetters) : s.flatMap expandLetter = s := by
  induction s with
  | nil => rfl
  | cons c s ih =>
    obtain ⟨hc, hs⟩ := List.forall_mem_cons.mp h
    rw [List.flatMap_cons, expandLetter_of_mem c hc, ih hs, List.singleton_append]

theorem mem_squeeze (h : c ∈ squeezeFenEmptySquares s) : c ∈ "2345678".toList ∨ c ∈ s := by
  unfold squeezeFenEmptySquares at h
  iterate 7
    rcases mem_replaceAll (by decide) h with hrep | h
    · obtain rfl := List.mem_singleton.mp hrep
      exact .inl (by decide)
  exact .inr h

theorem not_mem_expandLetter (hc : c ≠ '/') : '/' ∉ expandLetter c := by
  unfold expandLetter
  split
  · intro h
    exact absurd (List.eq_of_mem_replicate h) (by decide)
  · simpa using hc.symm

theorem splitOn_expand (s : List Char) : (expandFenEmptySquares s).splitOn '/' =
    (s.splitOn '/').map (List.flatMap expandLetter) := by
  rw [expandFenEmptySquares_eq]
  exact splitOn_flatMap (by decide) (fun c hc => not_mem_expandLetter hc) s

/-! Rows. -/

theorem fenToRow_ones : fenToRow r k p (ones n ++ s) = fenToRow r (k + n) p s := by
  induction n generalizing k with
  | zero => rfl
  | succ n ih =>
    have hone : '1' ≤ '1' ∧ '1' ≤ '8' := by decide
    rw [ones, List.replicate_succ, List.cons_append, fenToRow, if_pos hone]
    change fenToRow r (k + 1) p (ones n ++ s) = _
    rw [ih]
    congr 1
    omega

/-- A number counts as many columns as the ones that it stands for. -/
theorem fenToRow_expand : fenToRow r k p (row.flatMap expandLetter) = fenToRow r k p row := by
  induction row generalizing k p with
  | nil => rfl
  | cons c row ih =>
    rw [List.flatMap_cons]
    by_cases hbig : '2' ≤ c ∧ c ≤ '8'
    · have hdigit : '1' ≤ c ∧ c ≤ '8' := ⟨Char.le_trans (by decide) hbig.1, hbig.2⟩
      rw [expandLetter, if_pos hbig, fenToRow_ones, ih, fenToRow, if_pos hdigit]
    · rw [expandLetter, if_neg hbig, List.singleton_append, fenToRow, fenToRow, ih, ih]

end Expand

/-! Sections. -/

section Sections

variable {row : List Char} {rows : List (List Char)} {c : Char} {r i j k n : Nat} {p obj : PositionObject}
  {square code fen : String}

/-- A section of eight squares. -/
structure FenSection (row : List Char) : Prop where
  length : row.length = 8
  letters : ∀ c ∈ row, c ∈ fenLetters

theorem digit_of_mem : ∀ c ∈ fenLetters, ('1' ≤ c ∧ c ≤ '8' ↔ c = '1') :=
  List.all_iff_forall_prop.mp (by decide)

theorem get_fenToRow_other (h : ∀ j < 8, square ≠ columnRow j r) (hk : k + row.length ≤ 8)
    (hrow : ∀ c ∈ row, c ∈ fenLetters) : (fenToRow r k p row).get square = p.get square := by
  induction row generalizing k p with
  | nil => rfl
  | cons c row ih =>
    obtain ⟨hc, htl⟩ := List.forall_mem_cons.mp hrow
    rw [List.length_cons] at hk
    rw [fenToRow]
    split
    next hdigit =>
      obtain rfl := (digit_of_mem c hc).mp hdigit
      exact ih (by change k + 1 + row.length ≤ 8; omega) htl
    · rw [ih (by omega) htl, get_set, if_neg (h k (by omega))]

theorem get_fenToRow (hr : r < 9) (hk : k + row.length ≤ 8) (hrow : ∀ c ∈ row, c ∈ fenLetters)
    (hj : j < 8) : (fenToRow r k p row).get (columnRow j r) =
      if k ≤ j ∧ j < k + row.length ∧ row.getD (j - k) '1' ≠ '1' then
        some (fenToPieceCode (row.getD (j - k) '1'))
      else p.get (columnRow j r) := by
  induction row generalizing k p with
  | nil => simp [fenToRow]
  | cons c row ih =>
    obtain ⟨hc, htl⟩ := List.forall_mem_cons.mp hrow
    rw [List.length_cons] at hk
    have htail (hlt : k < j) : (c :: row).getD (j - k) '1' = row.getD (j - (k + 1)) '1' := by
      rw [show j - k = j - (k + 1) + 1 by omega]
      rfl
    rw [fenToRow]
    split
    next hdigit =>
      obtain rfl := (digit_of_mem c hc).mp hdigit
      change (fenToRow r (k + 1) p row).get _ = _
      rw [ih (by omega) htl]
      rcases Nat.lt_trichotomy j k with hlt | rfl | hlt
      · rw [if_neg (by omega), if_neg (by omega)]
      · rw [if_neg (by omega), if_neg (by simp)]
      · rw [htail hlt]
        refine if_congr (and_congr (by omega) (and_congr_left' ?_)) rfl rfl
        rw [List.length_cons]
        omega
    next hdigit =>
      have hne : c ≠ '1' := fun h => hdigit ((digit_of_mem c hc).mpr h)
      rw [ih (by omega) htl, get_set]
      rcases Nat.lt_trichotomy j k with hlt | rfl | hlt
      · have hother : columnRow j r ≠ columnRow k r := fun h => by
          have := (columnRow_inj hj (by omega) hr hr h).1
          omega
        rw [if_neg (by omega), if_neg hother, if_neg (by omega)]
      · rw [if_neg (by omega), if_pos rfl, if_pos ⟨le_rfl, by simp, by simpa using hne⟩]
        simp
      · have hother : columnRow j r ≠ columnRow k r := fun h => by
          have := (columnRow_inj hj (by omega) hr hr h).1
          omega
        rw [htail hlt, if_neg hother]
        refine if_congr (and_congr (by omega) (and_congr_left' ?_)) rfl rfl
        rw [List.length_cons]
        omega

def cellOf (rows : List (List Char)) (i j : Nat) : Char := (rows.getD i []).getD j '1'

/-- Eight sections. -/
structure FenRows (rows : List (List Char)) : Prop where
  length : rows.length = 8
  sections : ∀ row ∈ rows, FenSection row

theorem FenRows.getD (h : FenRows rows) (hi : i < 8) : FenSection (rows.getD i []) := by
  rw [List.getD_eq_getElem _ _ (h.length ▸ hi)]
  exact h.sections _ (List.getElem_mem _)

theorem FenRows.cellOf_mem (h : FenRows rows) (hi : i < 8) (hj : j < 8) :
    cellOf rows i j ∈ fenLetters := by
  have hrow := h.getD hi
  rw [cellOf, List.getD_eq_getElem _ _ (hrow.length ▸ hj)]
  exact hrow.letters _ (List.getElem_mem _)

/-- The rows from the eighth down to the one behind `n` rows. -/
theorem get_foldl_rows (h : FenRows rows) (hn : n ≤ 8) (hi : i < 8) (hj : j < 8) :
    ((List.range n).foldl (fun position i => fenToRow (8 - i) 0 position (rows.getD i []))
      .empty).get (columnRow j (8 - i)) =
      if i < n ∧ cellOf rows i j ≠ '1' then some (fenToPieceCode (cellOf rows i j)) else none := by
  induction n with
  | zero => simp
  | succ n ih =>
    have hrow := h.getD (i := n) (by omega)
    have hlen : 0 + (rows.getD n []).length ≤ 8 := by
      rw [hrow.length]
    rw [List.range_succ, List.foldl_append, List.foldl_cons, List.foldl_nil]
    by_cases hin : i = n
    · subst hin
      rw [get_fenToRow (by omega) hlen hrow.letters hj, ih (by omega), hrow.length, Nat.sub_zero,
        ← cellOf]
      by_cases h1 : cellOf rows i j = '1' <;> simp [h1, hj]
    · rw [get_fenToRow_other ?_ hlen hrow.letters, ih (by omega)]
      · exact if_congr (and_congr_left' (by omega)) rfl rfl
      · intro j' hj' heq
        have := (columnRow_inj hj hj' (by omega) (by omega) heq).2
        omega

theorem get_fenToRows (h : FenRows rows) (hi : i < 8) (hj : j < 8) :
    (fenToRows rows).get (columnRow j (8 - i)) =
      if cellOf rows i j = '1' then none else some (fenToPieceCode (cellOf rows i j)) := by
  rw [fenToRows, get_foldl_rows h le_rfl hi hj]
  by_cases h1 : cellOf rows i j = '1' <;> simp [h1, hi]

theorem get_fenToRows_invalid (h : FenRows rows) (hs : validSquare square = false) :
    (fenToRows rows).get square = none := by
  have hother (n : Nat) (hn : n ≤ 8) : ((List.range n).foldl (fun position i =>
      fenToRow (8 - i) 0 position (rows.getD i [])) .empty).get square = none := by
    induction n with
    | zero => rfl
    | succ n ih =>
      have hrow := h.getD (i := n) (by omega)
      rw [List.range_succ, List.foldl_append, List.foldl_cons, List.foldl_nil,
        get_fenToRow_other ?_ (by rw [hrow.length]) hrow.letters, ih (by omega)]
      rintro j hj rfl
      rw [validSquare_columnRow j hj (8 - n) (by omega) (by omega)] at hs
      cases hs
  exact hother 8 le_rfl

/-! Piece codes. -/

theorem pieceCodeToFen_fenToPieceCode : ∀ c ∈ fenLetters, c ≠ '1' →
    pieceCodeToFen (fenToPieceCode c) = c ∧ validPieceCode (fenToPieceCode c) = true :=
  List.all_iff_forall_prop.mp (by decide)

theorem fenToPieceCode_pieceCodeToFen (h : validPieceCode code = true) :
    pieceCodeToFen code ∈ fenLetters ∧ pieceCodeToFen code ≠ '1' ∧
      fenToPieceCode (pieceCodeToFen code) = code := by
  have hall : ∀ letters ∈ "bw".toList ×ˢ "KQRNBP".toList,
      pieceCodeToFen (String.ofList [letters.1, letters.2]) ∈ fenLetters ∧
        pieceCodeToFen (String.ofList [letters.1, letters.2]) ≠ '1' ∧
        fenToPieceCode (pieceCodeToFen (String.ofList [letters.1, letters.2])) =
          String.ofList [letters.1, letters.2] := List.all_iff_forall_prop.mp (by decide)
  unfold validPieceCode at h
  split at h
  next color kind hlist =>
    simp only [Bool.and_eq_true, List.contains_iff_mem] at h
    have hcode : code = String.ofList [color, kind] := by rw [← hlist, String.ofList_toList]
    rw [hcode]
    exact hall (color, kind) (List.mem_product.mpr h)
  · cases h

theorem validPositionObject_iff : validPositionObject obj = true ↔
    ∀ square code, obj.get square = some code → validSquare square = true ∧ validPieceCode code = true := by
  simp only [validPositionObject, List.all_eq_true, Bool.and_eq_true, Prod.forall, mem_entries]

theorem valid_fenToRows (h : FenRows rows) : validPositionObject (fenToRows rows) = true := by
  rw [validPositionObject_iff]
  intro square code hget
  cases hs : validSquare square with
  | false =>
    rw [get_fenToRows_invalid h hs] at hget
    cases hget
  | true =>
    obtain ⟨j, hj, i, hi, rfl⟩ := exists_columnRow hs
    rw [get_fenToRows h hi hj] at hget
    split_ifs at hget with h1
    obtain rfl := by simpa using hget
    exact ⟨rfl, (pieceCodeToFen_fenToPieceCode _ (h.cellOf_mem hi hj) h1).2⟩

/-- The sections of a position, with ones for its empty squares. -/
def rowsOf (obj : PositionObject) : List (List Char) :=
  (List.range 8).map fun i => (List.range 8).map (fenSquare obj i)

theorem cellOf_rowsOf (hi : i < 8) (hj : j < 8) : cellOf (rowsOf obj) i j = fenSquare obj i j := by
  have hrow : (rowsOf obj).getD i [] = (List.range 8).map (fenSquare obj i) := by
    rw [List.getD_eq_getElem _ _ (by simpa [rowsOf] using hi)]
    simp [rowsOf]
  rw [cellOf, hrow, List.getD_eq_getElem _ _ (by simpa using hj)]
  simp

theorem fenSquare_cases (h : validPositionObject obj = true) (i j : Nat) :
    (obj.get (columnRow j (8 - i)) = none ∧ fenSquare obj i j = '1') ∨
      ∃ code, obj.get (columnRow j (8 - i)) = some code ∧ fenSquare obj i j = pieceCodeToFen code ∧
        validPieceCode code = true := by
  cases hget : obj.get (columnRow j (8 - i)) with
  | none => exact .inl ⟨rfl, by rw [fenSquare, hget]⟩
  | some code =>
    exact .inr ⟨code, rfl, by rw [fenSquare, hget], (validPositionObject_iff.mp h _ code hget).2⟩

theorem fenRows_rowsOf (h : validPositionObject obj = true) : FenRows (rowsOf obj) where
  length := by simp [rowsOf]
  sections row hrow := by
    obtain ⟨i, -, rfl⟩ := List.mem_map.mp hrow
    refine ⟨by simp, fun c hc => ?_⟩
    obtain ⟨j, -, rfl⟩ := List.mem_map.mp hc
    rcases fenSquare_cases h i j with ⟨-, h1⟩ | ⟨code, -, hcode, hvalid⟩
    · rw [h1]
      decide
    · rw [hcode]
      exact (fenToPieceCode_pieceCodeToFen hvalid).1

theorem FenRows.ext {rows' : List (List Char)} (h : FenRows rows) (h' : FenRows rows')
    (heq : ∀ i < 8, ∀ j < 8, cellOf rows i j = cellOf rows' i j) : rows = rows' := by
  refine List.ext_getElem (h.length.trans h'.length.symm) fun i hi hi' => ?_
  have hi8 : i < 8 := h.length ▸ hi
  have hrow := h.getD hi8
  have hrow' := h'.getD hi8
  rw [← List.getD_eq_getElem _ [] hi, ← List.getD_eq_getElem _ [] hi']
  refine List.ext_getElem (hrow.length.trans hrow'.length.symm) fun j hj hj' => ?_
  rw [← List.getD_eq_getElem _ '1' hj, ← List.getD_eq_getElem _ '1' hj']
  exact heq i hi8 j (hrow.length ▸ hj)

/-- The position comes back from its sections. -/
theorem get_fenToRows_rowsOf (h : validPositionObject obj = true) :
    (fenToRows (rowsOf obj)).get = obj.get := by
  funext square
  cases hs : validSquare square with
  | false =>
    rw [get_fenToRows_invalid (fenRows_rowsOf h) hs, eq_comm, Option.eq_none_iff_forall_ne_some]
    intro code hget
    rw [(validPositionObject_iff.mp h square code hget).1] at hs
    cases hs
  | true =>
    obtain ⟨j, hj, i, hi, rfl⟩ := exists_columnRow hs
    rw [get_fenToRows (fenRows_rowsOf h) hi hj, cellOf_rowsOf hi hj]
    rcases fenSquare_cases h i j with ⟨hget, h1⟩ | ⟨code, hget, hcode, hvalid⟩
    · rw [hget, if_pos h1]
    · obtain ⟨-, hne, hback⟩ := fenToPieceCode_pieceCodeToFen hvalid
      rw [hget, hcode, if_neg hne, hback]

/-- The sections come back from their position. -/
theorem rowsOf_fenToRows (h : FenRows rows) : rowsOf (fenToRows rows) = rows := by
  refine (fenRows_rowsOf (valid_fenToRows h)).ext h fun i hi j hj => ?_
  rw [cellOf_rowsOf hi hj, fenSquare, get_fenToRows h hi hj]
  by_cases h1 : cellOf rows i j = '1'
  · rw [if_pos h1, h1]
  · rw [if_neg h1]
    exact (pieceCodeToFen_fenToPieceCode _ (h.cellOf_mem hi hj) h1).1

end Sections

/-! Texts. -/

section Texts

variable {rows : List (List Char)} {obj obj' : PositionObject} {fen : String} {s : List Char}

/-- The FEN of some sections. -/
def fenOf (rows : List (List Char)) : String :=
  String.ofList (squeezeFenEmptySquares (['/'].intercalate rows))

theorem objToFen_eq (h : validPositionObject obj = true) : objToFen obj = some (fenOf (rowsOf obj)) := by
  rw [objToFen, if_pos h]
  rfl

theorem slash_not_mem (h : FenRows rows) : ∀ row ∈ rows, '/' ∉ row := fun row hrow hmem =>
  absurd ((h.sections row hrow).letters _ hmem) (by decide)

theorem mem_intercalate_rows (h : FenRows rows) {c : Char} (hc : c ∈ ['/'].intercalate rows) :
    c ∈ '/' :: fenLetters := by
  rcases mem_of_mem_intercalate hc with hslash | ⟨row, hrow, hc⟩
  · exact List.mem_singleton.mp hslash ▸ List.mem_cons_self
  · exact List.mem_cons_of_mem _ ((h.sections row hrow).letters c hc)

theorem cutInfo_of_not_mem (h : ' ' ∉ s) : cutInfo s = s := by
  induction s with
  | nil => rfl
  | cons c s ih =>
    obtain ⟨hc, hs⟩ : ' ' ≠ c ∧ ' ' ∉ s := by simpa using h
    rw [cutInfo, if_neg (fun hcut => hc hcut.1.symm), ih hs]

/-- The FEN of some sections expands to them. -/
theorem expand_fenOf (h : FenRows rows) :
    expandFenEmptySquares (cutInfo (fenOf rows).toList) = ['/'].intercalate rows := by
  have hspace : ' ' ∉ squeezeFenEmptySquares (['/'].intercalate rows) := by
    intro hmem
    rcases mem_squeeze hmem with hdigit | hrow
    · exact absurd hdigit (by decide)
    · exact absurd (mem_intercalate_rows h hrow) (by decide)
  rw [fenOf, String.toList_ofList, cutInfo_of_not_mem hspace, expandFenEmptySquares_eq, expand_squeeze,
    flatMap_expandLetter_of_mem fun c hc => mem_intercalate_rows h hc]

theorem splitOn_rows (h : FenRows rows) : (['/'].intercalate rows).splitOn '/' = rows :=
  List.splitOn_intercalate '/' (slash_not_mem h) (by
    rintro rfl
    exact absurd h.length (by decide))

theorem validFen_iff : validFen fen = true ↔
    FenRows ((expandFenEmptySquares (cutInfo fen.toList)).splitOn '/') := by
  simp only [validFen, Bool.and_eq_true, beq_iff_eq, List.all_eq_true, List.contains_iff_mem]
  exact ⟨fun h => ⟨h.1, fun row hrow => ⟨(h.2 row hrow).1, (h.2 row hrow).2⟩⟩,
    fun h => ⟨h.length, fun row hrow => ⟨(h.sections row hrow).length, (h.sections row hrow).letters⟩⟩⟩

theorem fenToRows_expand (rows : List (List Char)) :
    fenToRows (rows.map (List.flatMap expandLetter)) = fenToRows rows := by
  have hget (i : Nat) : (rows.map (List.flatMap expandLetter)).getD i [] =
      (rows.getD i []).flatMap expandLetter := by
    simp only [List.getD, List.getElem?_map]
    cases rows[i]? <;> rfl
  simp only [fenToRows, hget, fenToRow_expand]

theorem fenToObj_eq (h : validFen fen = true) : fenToObj fen =
    some (fenToRows ((expandFenEmptySquares (cutInfo fen.toList)).splitOn '/')) := by
  rw [fenToObj, if_pos h, splitOn_expand, fenToRows_expand]

theorem fenToObj_fenOf (h : FenRows rows) : fenToObj (fenOf rows) = some (fenToRows rows) := by
  have hvalid : validFen (fenOf rows) = true := by
    rw [validFen_iff, expand_fenOf h, splitOn_rows h]
    exact h
  rw [fenToObj_eq hvalid, expand_fenOf h, splitOn_rows h]

/-- Every position has a FEN, from which it comes back. -/
theorem fenToObj_objToFen (h : validPositionObject obj = true) :
    ∃ fen obj', objToFen obj = some fen ∧ fenToObj fen = some obj' ∧ obj'.get = obj.get :=
  ⟨_, _, objToFen_eq h, fenToObj_fenOf (fenRows_rowsOf h), get_fenToRows_rowsOf h⟩

/-- Every FEN that is accepted has a position, whose FEN is the one with each run of
empty squares counted. -/
theorem objToFen_fenToObj (h : validFen fen = true) :
    ∃ obj, fenToObj fen = some obj ∧ validPositionObject obj = true ∧ objToFen obj =
      some (String.ofList (squeezeFenEmptySquares (expandFenEmptySquares (cutInfo fen.toList)))) := by
  have hrows := validFen_iff.mp h
  refine ⟨_, fenToObj_eq h, valid_fenToRows hrows, ?_⟩
  rw [objToFen_eq (valid_fenToRows hrows), rowsOf_fenToRows hrows, fenOf, List.intercalate_splitOn]

/-- Two positions have one FEN when they have the same pieces. -/
theorem objToFen_eq_iff (h : validPositionObject obj = true) (h' : validPositionObject obj' = true) :
    objToFen obj = objToFen obj' ↔ obj.get = obj'.get := by
  constructor
  · intro heq
    rw [objToFen_eq h, objToFen_eq h'] at heq
    have hobj := congrArg (Option.bind · fenToObj) heq
    simp only [Option.bind_some, fenToObj_fenOf (fenRows_rowsOf h), fenToObj_fenOf (fenRows_rowsOf h')] at hobj
    rw [← get_fenToRows_rowsOf h, Option.some.inj hobj, get_fenToRows_rowsOf h']
  · intro heq
    have hsquare : fenSquare obj = fenSquare obj' := by
      funext i j
      simp only [fenSquare, heq]
    rw [objToFen_eq h, objToFen_eq h', rowsOf, rowsOf, hsquare]

end Texts

/-! The standard's way of counting empty squares. -/

section Placement

variable {obj : PositionObject} {row a b : List Char} {rows : List (List Char)} {c : Char} {n : Nat}

theorem not_mem_ones (h : c ≠ '1') (n : Nat) : c ∉ ones n := fun hmem => h (List.eq_of_mem_replicate hmem)

/-- No run of empty squares goes across another letter. -/
theorem squeeze_append_cons (h : c ≠ '1') (a b : List Char) : squeezeFenEmptySquares (a ++ c :: b) =
    squeezeFenEmptySquares a ++ c :: squeezeFenEmptySquares b := by
  unfold squeezeFenEmptySquares
  rw [replaceAll_append_cons (by decide) (not_mem_ones h 8),
    replaceAll_append_cons (by decide) (not_mem_ones h 7),
    replaceAll_append_cons (by decide) (not_mem_ones h 6),
    replaceAll_append_cons (by decide) (not_mem_ones h 5),
    replaceAll_append_cons (by decide) (not_mem_ones h 4),
    replaceAll_append_cons (by decide) (not_mem_ones h 3),
    replaceAll_append_cons (by decide) (not_mem_ones h 2)]

theorem squeeze_ones : ∀ n ≤ 8, squeezeFenEmptySquares (ones n) = (emptyCells n).toList := by decide

theorem manOf_of_mem (hc : c ∈ fenLetters) (h1 : c ≠ '1') :
    ∃ color kind, manOf c = .man color kind ∧ (SmakPiece.man color kind).toChar = c := by
  have hall : ∀ c ∈ fenLetters, c ≠ '1' → manOf c ≠ .emptySquare ∧ (manOf c).toChar = c :=
    List.all_iff_forall_prop.mp (by decide)
  obtain ⟨hne, hchar⟩ := hall c hc h1
  cases hman : manOf c with
  | emptySquare => exact absurd hman hne
  | man color kind => exact ⟨color, kind, rfl, hman ▸ hchar⟩

theorem squeeze_row (hn : n + row.length ≤ 8) (h : ∀ c ∈ row, c ∈ fenLetters) :
    squeezeFenEmptySquares (ones n ++ row) = (fenRank n (row.map manOf)).toList := by
  induction row generalizing n with
  | nil =>
    rw [List.append_nil]
    exact squeeze_ones n (by simpa using hn)
  | cons c row ih =>
    obtain ⟨hc, hrow⟩ := List.forall_mem_cons.mp h
    rw [List.length_cons] at hn
    by_cases h1 : c = '1'
    · subst h1
      have hones : ones n ++ '1' :: row = ones (n + 1) ++ row := by
        rw [ones, ones, List.replicate_succ', List.append_assoc, List.singleton_append]
      have hempty : manOf '1' = .emptySquare := by decide
      rw [hones, ih (by omega) hrow, List.map_cons, hempty, fenRank]
    · obtain ⟨color, kind, hman, hchar⟩ := manOf_of_mem hc h1
      have htail := ih (n := 0) (by omega) hrow
      rw [squeeze_append_cons h1, squeeze_ones n (by omega), List.map_cons, hman, fenRank,
        String.toList_append, String.toList_append, hchar, ← htail]
      simp [ones]

theorem squeeze_intercalate (rows : List (List Char)) : squeezeFenEmptySquares (['/'].intercalate rows) =
    ['/'].intercalate (rows.map squeezeFenEmptySquares) := by
  induction rows with
  | nil => decide
  | cons row rows ih =>
    by_cases hrows : rows = []
    · simp [hrows]
    · have hmap : rows.map squeezeFenEmptySquares ≠ [] := by simpa using hrows
      rw [List.map_cons, List.intercalate_cons_of_ne_nil hrows, List.intercalate_cons_of_ne_nil hmap,
        List.append_assoc, List.append_assoc, List.singleton_append, List.singleton_append,
        squeeze_append_cons (by decide), ih]

theorem fenOf_eq_placement {b : Board} (h : FenRows rows)
    (hb : ∀ i < 8, ∀ j < 8, manOf (cellOf rows i j) = b (8 * i + j)) : fenOf rows = fenPlacement b := by
  have hrow (i : Nat) (hi : i < 8) : (rows.getD i []).map manOf =
      (List.range 8).map fun j => b (8 * i + j) := by
    have hlen := (h.getD hi).length
    refine List.ext_getElem (by rw [List.length_map, hlen, List.length_map, List.length_range]) fun j hj hj' => ?_
    have hj8 : j < 8 := by simpa using hj'
    have hcell := hb i hi j hj8
    rw [cellOf, List.getD_eq_getElem _ _ (hlen ▸ hj8)] at hcell
    simpa using hcell
  have hrows : rows.map squeezeFenEmptySquares = ((List.range 8).map fun i =>
      fenRank 0 ((List.range 8).map fun j => b (8 * i + j))).map String.toList := by
    refine List.ext_getElem (by simp [h.length]) fun i hi hi' => ?_
    have hi8 : i < 8 := by simpa [h.length] using hi
    have hsection := h.getD hi8
    have hsqueeze := squeeze_row (n := 0) (by rw [hsection.length]) hsection.letters
    rw [hrow i hi8, ones, List.replicate_zero, List.nil_append,
      List.getD_eq_getElem _ _ (h.length ▸ hi8)] at hsqueeze
    simpa using hsqueeze
  rw [fenOf, squeeze_intercalate, hrows, fenPlacement, ← String.toList_inj, String.toList_ofList,
    String.toList_intercalate]
  rfl

/-- The pieces of a position on the squares of a board. -/
def boardOf (obj : PositionObject) : Board := fun s => manOf (fenSquare obj (s / 8) (s % 8))

theorem objToFen_placement (h : validPositionObject obj = true) :
    objToFen obj = some (fenPlacement (boardOf obj)) := by
  rw [objToFen_eq h, fenOf_eq_placement (fenRows_rowsOf h) fun i hi j hj => ?_]
  rw [cellOf_rowsOf hi hj, boardOf, show (8 * i + j) / 8 = i by omega, show (8 * i + j) % 8 = j by omega]

end Placement

end SmakChess.Web
