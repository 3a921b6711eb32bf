import SmakChess.Fen

/-! A FEN determines the pieces, the side to move and the move number. -/

namespace SmakChess

def allMen : List SmakPiece :=
  [Color.white, Color.black].flatMap fun c =>
    [Kind.pawn, .rook, .knight, .bishop, .queen, .king].map (SmakPiece.man c)

def manOf (c : Char) : SmakPiece := (allMen.find? fun k => k.toChar == c).getD .emptySquare

/-- The squares of one rank. -/
def cellsOf : List Char → List SmakPiece
  | [] => []
  | c :: t =>
    if c.isDigit then List.replicate (c.toNat - '0'.toNat) .emptySquare ++ cellsOf t
    else manOf c :: cellsOf t

section Ranks

variable {b b' : Board} {c : Char} {k n s : Nat} {ks : List SmakPiece} {t : List Char}

theorem manOf_toChar (c : Color) (k : Kind) :
    (SmakPiece.man c k).toChar.isDigit = false ∧
      manOf (SmakPiece.man c k).toChar = .man c k := by
  cases c <;> cases k <;> decide

theorem toList_toString (n : Nat) : (toString n).toList = Nat.toDigits 10 n := by
  rw [Nat.toString_eq_repr, Nat.toList_repr]

theorem cellsOf_emptyCells (hn : n < 10) :
    cellsOf ((emptyCells n).toList ++ t) = List.replicate n .emptySquare ++ cellsOf t := by
  unfold emptyCells
  split_ifs with h
  · simp [h]
  · have hdigit : ∀ n < 10,
        n.digitChar.isDigit = true ∧ n.digitChar.toNat - '0'.toNat = n := by decide
    rw [toList_toString, Nat.toDigits_of_lt_base hn, List.singleton_append, cellsOf,
      if_pos (hdigit n hn).1, (hdigit n hn).2]

theorem cellsOf_fenRank (h : n + ks.length < 10) :
    cellsOf (fenRank n ks).toList = List.replicate n .emptySquare ++ ks := by
  induction ks generalizing n with
  | nil => simpa [fenRank, cellsOf] using cellsOf_emptyCells (t := []) h
  | cons k ks ih =>
    rw [List.length_cons] at h
    cases k with
    | emptySquare =>
      rw [fenRank, ih (by omega), List.replicate_succ', List.append_assoc, List.singleton_append]
    | man c k =>
      obtain ⟨hdigit, hman⟩ := manOf_toChar c k
      rw [fenRank, String.toList_append, String.toList_append, List.append_assoc,
        cellsOf_emptyCells (by omega)]
      simp [cellsOf, hdigit, hman, ih (n := 0) (by omega)]

theorem isDigit_of_mem_toString (h : c ∈ (toString n).toList) : c.isDigit = true := by
  rw [toList_toString] at h
  exact Nat.isDigit_of_mem_toDigits (by decide) (by decide) h

theorem mem_fenRank (h : c ∈ (fenRank n ks).toList) :
    c.isDigit = true ∨ ∃ d k, c = (SmakPiece.man d k).toChar := by
  have hcells {n : Nat} (h : c ∈ (emptyCells n).toList) : c.isDigit = true := by
    unfold emptyCells at h
    split_ifs at h
    · simp at h
    · exact isDigit_of_mem_toString h
  induction ks generalizing n with
  | nil => exact .inl (hcells h)
  | cons k ks ih =>
    cases k with
    | emptySquare => exact ih h
    | man d k =>
      simp only [fenRank, String.toList_append, List.mem_append] at h
      rcases h with (h | h) | h
      · exact .inl (hcells h)
      · exact .inr ⟨d, k, by simpa using h⟩
      · exact ih h

theorem not_mem_fenRank (h : c ∈ (fenRank n ks).toList) : c ≠ '/' ∧ c ≠ ' ' := by
  rcases mem_fenRank h with h | ⟨d, k, rfl⟩
  · constructor
    · rintro rfl
      cases h
    · rintro rfl
      cases h
  · cases d <;> cases k <;> decide

theorem fenPlacement_inj (h : fenPlacement b = fenPlacement b') (hs : s < 64) : b s = b' s := by
  have hsplit (b : Board) : (fenPlacement b).toList.splitOn '/' =
      (List.range 8).map fun r => (fenRank 0 ((List.range 8).map fun f => b (8 * r + f))).toList := by
    rw [fenPlacement, String.toList_intercalate]
    refine (List.splitOn_intercalate '/' ?_ (by simp)).trans (by simp)
    simp only [List.map_map, List.mem_map]
    rintro _ ⟨r, -, rfl⟩ hmem
    exact (not_mem_fenRank hmem).1 rfl
  have hranks := (hsplit b).symm.trans ((congrArg (fun t => t.toList.splitOn '/') h).trans
    (hsplit b'))
  have hrank := List.map_inj_left.mp hranks (s / 8) (by simp; omega)
  have hcells := congrArg cellsOf hrank
  rw [cellsOf_fenRank (by simp), cellsOf_fenRank (by simp), List.replicate_zero, List.nil_append,
    List.nil_append] at hcells
  have hcell := List.map_inj_left.mp hcells (s % 8) (by simp; omega)
  rwa [Nat.div_add_mod] at hcell

end Ranks

section Fields

variable {t e : String} {q q' : Played} {c : Char}

theorem mem_of_mem_intercalate {ys : List Char} {ls : List (List Char)}
    (h : c ∈ ys.intercalate ls) : c ∈ ys ∨ ∃ l ∈ ls, c ∈ l := by
  induction ls with
  | nil => simp at h
  | cons l ls ih =>
    by_cases hls : ls = []
    · subst hls
      exact .inr ⟨l, by simp, by simpa using h⟩
    · rw [List.intercalate_cons_of_ne_nil hls, List.append_assoc, List.mem_append,
        List.mem_append] at h
      rcases h with h | h | h
      · exact .inr ⟨l, by simp, h⟩
      · exact .inl h
      · rcases ih h with h | ⟨l', hl', h⟩
        · exact .inl h
        · exact .inr ⟨l', List.mem_cons_of_mem l hl', h⟩

theorem not_mem_fenPlacement {b : Board} : ' ' ∉ (fenPlacement b).toList := by
  rw [fenPlacement, String.toList_intercalate]
  intro h
  rcases mem_of_mem_intercalate h with h | ⟨l, hl, h⟩
  · cases List.mem_singleton.mp h
  · simp only [List.map_map, List.mem_map] at hl
    obtain ⟨r, -, rfl⟩ := hl
    exact (not_mem_fenRank h).2 rfl

theorem not_mem_fenCastling {right : Color → Wing → Bool} : ' ' ∉ (fenCastling right).toList := by
  simp only [fenCastling]
  generalize right .white .kingside = w
  generalize right .white .queenside = x
  generalize right .black .kingside = y
  generalize right .black .queenside = z
  cases w <;> cases x <;> cases y <;> cases z <;> decide

theorem not_mem_squareName {s : Nat} : ' ' ∉ (squareName s).toList := by
  have hfile : ∀ f < 8, Char.ofNat ('a'.toNat + f) ≠ ' ' := by decide
  intro h
  rw [squareName, String.toList_append, List.mem_append] at h
  rcases h with h | h
  · exact hfile (fileOf s) (Nat.mod_lt _ (by decide)) (by simpa [eq_comm] using h)
  · cases isDigit_of_mem_toString h

theorem not_mem_enPassant {p : Position} (h : FenEnPassant p e) : ' ' ∉ e.toList := by
  rcases h with ⟨s, -, rfl⟩ | ⟨rfl, -⟩
  · exact not_mem_squareName
  · decide

theorem splitOn_fenText (he : ' ' ∉ e.toList) : (fenText q e).toList.splitOn ' ' =
    [fenPlacement q.position.board, fenSide q.position.turn, fenCastling q.position.right, e,
      toString q.halfmoves, toString (q.plies / 2 + 1)].map String.toList := by
  rw [fenText, String.toList_intercalate]
  refine List.splitOn_intercalate ' ' ?_ (by simp)
  have hnumber (n : Nat) : ' ' ∉ (toString n).toList :=
    fun h => by cases isDigit_of_mem_toString h
  have hside : ' ' ∉ (fenSide q.position.turn).toList := by
    cases q.position.turn <;> decide
  simp only [List.map_cons, List.map_nil, List.forall_mem_cons]
  exact ⟨not_mem_fenPlacement, hside, not_mem_fenCastling, he, hnumber _, hnumber _, by simp⟩

theorem toString_nat_inj {m n : Nat} (h : (toString m).toList = (toString n).toList) : m = n := by
  rw [toList_toString, toList_toString] at h
  rw [← Nat.ofDigitChars_ten_toDigits (n := m), h, Nat.ofDigitChars_ten_toDigits]

/-- Two positions with one FEN have the same pieces, the same side to move and
the same move number. -/
theorem eq_of_isFen (h : IsFen t q) (h' : IsFen t q') :
    (∀ s < 64, q.position.board s = q'.position.board s) ∧
      q.position.turn = q'.position.turn ∧ q.plies / 2 = q'.plies / 2 := by
  obtain ⟨e, he, rfl⟩ := h
  obtain ⟨e', he', ht⟩ := h'
  have hfields := congrArg (fun t => t.toList.splitOn ' ') ht
  simp only [splitOn_fenText (not_mem_enPassant he), splitOn_fenText (not_mem_enPassant he'),
    List.map_cons, List.map_nil, List.cons.injEq, String.toList_inj, and_true] at hfields
  obtain ⟨hboard, hside, -, -, -, hmove⟩ := hfields
  refine ⟨fun s hs => fenPlacement_inj hboard hs, ?_, ?_⟩
  · cases hq : q.position.turn <;> cases hq' : q'.position.turn <;>
      simp [hq, hq', fenSide] at hside ⊢
  · have hnat := toString_nat_inj (congrArg String.toList hmove)
    omega

end Fields

end SmakChess
