import SmakChess.FenList
import SmakChess.Fen
import Mathlib.Data.List.Dedup

/-! What it means that a chess library follows the rules, and one that does. -/

namespace SmakChess

def SmakPiece.kind : SmakPiece → Chess.PieceType
  | .emptySquare => none
  | .man _ k => some k

/-- The board counts its squares from a8, the chess library has ranks and files. -/
def Chess.squareAt (s : Nat) : Chess.Square := ⟨7 - rowOf s, fileOf s⟩

namespace Position

def promotes (p : Position) (x s : Nat) : Prop :=
  p.board x = .man p.turn .pawn ∧ rowOf s = lastRow p.turn

instance (p : Position) (x s : Nat) : Decidable (p.promotes x s) :=
  inferInstanceAs (Decidable (_ ∧ _))

def source (p : Position) : Move → Nat
  | .quiet x _ | .capture x _ | .enPassant x _ => x
  | .castle _ => kingStartingsquare p.turn

/-- Castling goes to the rook's square. -/
def target (p : Position) : Move → Nat
  | .quiet _ s | .capture _ s | .enPassant _ s => s
  | .castle v => rookStartingsquare p.turn v

def typeOf (p : Position) : Move → Chess.MoveType
  | .quiet x s | .capture x s => if p.promotes x s then .promotion else .normal
  | .enPassant _ _ => .enPassant
  | .castle _ => .castling

/-- A move as the chess library writes it, with the piece a pawn is promoted to. -/
def codeWith (p : Position) (k : Kind) (m : Move) : Chess.Move :=
  ⟨p.typeOf m, Chess.squareAt (p.source m), Chess.squareAt (p.target m),
    if p.typeOf m = .promotion then k else .knight⟩

def code (p : Position) (m : Move) : Chess.Move := p.codeWith .queen m

def promotionKinds : List Kind := [.knight, .bishop, .rook, .queen]

end Position

/-- `shows b q`: the library's board `b` is the position of the game `q`. -/
structure Chess.Library.FollowsRules (lib : Chess.Library)
    (shows : lib.Board → Played → Prop) : Prop where
  start : shows lib.start .initial
  pieceAt : ∀ b q s, shows b q → s < 64 →
    lib.pieceAt b (Chess.squareAt s) = (q.position.board s).kind
  legalmoves : ∀ b q g c, shows b q →
    (c ∈ lib.legalmoves b g ↔ ∃ m, q.position.legal m ∧
      g.covers (q.position.board (q.position.source m)).kind = true ∧
      ∃ k ∈ Position.promotionKinds, c = q.position.codeWith k m)
  makeMove : ∀ b q m, shows b q → q.position.legal m →
    shows (lib.makeMove b (q.position.code m)) (q.play m)
  getFen : ∀ b q, shows b q → IsFen (lib.getFen b) q

section Code

variable {p : Position} {m n : Move} {x s : Nat}

theorem squareAt_inj {x s : Nat} : Chess.squareAt x = Chess.squareAt s ↔ x = s := by
  constructor
  · intro h
    have hr := congrArg Chess.Square.rank h
    have hf := congrArg Chess.Square.file h
    simp only [Chess.squareAt, rowOf, fileOf] at hr hf
    omega
  · rintro rfl
    rfl

theorem not_legal_quiet_capture (hq : p.legal (.quiet x s)) : ¬ p.legal (.capture x s) := by
  rintro ⟨⟨-, -, -, ho, -⟩, -⟩
  rw [hq.1.2.2.2.1] at ho
  cases ho

theorem typeOf_quiet_ne :
    p.typeOf (.quiet x s) ≠ .enPassant ∧ p.typeOf (.quiet x s) ≠ .castling := by
  simp only [Position.typeOf]
  split_ifs <;> decide

theorem rookStartingsquare_injective {c : Color} {v w : Wing}
    (h : rookStartingsquare c v = rookStartingsquare c w) : v = w := by
  cases c <;> cases v <;> cases w <;> first | rfl | cases h

/-- The bits of a legal move determine it. -/
theorem codeWith_injective {k l : Kind} (hm : p.legal m) (hn : p.legal n)
    (h : p.codeWith k m = p.codeWith l n) : m = n := by
  have htype : p.typeOf m = p.typeOf n := congrArg Chess.Move.typeOf h
  have hsource : p.source m = p.source n := squareAt_inj.mp (congrArg Chess.Move.source h)
  have htarget : p.target m = p.target n := squareAt_inj.mp (congrArg Chess.Move.target h)
  have hstep (y t : Nat) := typeOf_quiet_ne (p := p) (x := y) (s := t)
  cases m with
  | quiet x s =>
    cases n with
    | quiet y t =>
      obtain rfl : x = y := hsource
      obtain rfl : s = t := htarget
      rfl
    | capture y t =>
      obtain rfl : x = y := hsource
      obtain rfl : s = t := htarget
      exact absurd hn (not_legal_quiet_capture hm)
    | enPassant y t => exact absurd htype (hstep x s).1
    | castle v => exact absurd htype (hstep x s).2
  | capture x s =>
    cases n with
    | quiet y t =>
      obtain rfl : x = y := hsource
      obtain rfl : s = t := htarget
      exact absurd hm (not_legal_quiet_capture hn)
    | capture y t =>
      obtain rfl : x = y := hsource
      obtain rfl : s = t := htarget
      rfl
    | enPassant y t => exact absurd htype (hstep x s).1
    | castle v => exact absurd htype (hstep x s).2
  | enPassant x s =>
    cases n with
    | quiet y t | capture y t => exact absurd htype.symm (hstep y t).1
    | enPassant y t =>
      obtain rfl : x = y := hsource
      obtain rfl : s = t := htarget
      rfl
    | castle v => cases htype
  | castle v =>
    cases n with
    | quiet y t | capture y t => exact absurd htype.symm (hstep y t).2
    | enPassant y t => cases htype
    | castle w => rw [rookStartingsquare_injective htarget]

end Code

namespace Position

def candidates : List Move :=
  [.castle .kingside, .castle .queenside] ++ (List.range 64).flatMap fun x =>
    (List.range 64).flatMap fun s => [.quiet x s, .capture x s, .enPassant x s]

def legalMoves (p : Position) : List Move := candidates.filter fun m => p.legal m

theorem mem_legalMoves {p : Position} {m : Move} : m ∈ p.legalMoves ↔ p.legal m := by
  simp only [legalMoves, List.mem_filter, decide_eq_true_eq, and_iff_right_iff_imp]
  intro hm
  cases m with
  | quiet x s | capture x s | enPassant x s =>
    have hx : x < 64 := hm.1.1
    have hs : s < 64 := hm.1.2.1
    simp [candidates, hx, hs]
  | castle v => cases v <;> simp [candidates]

theorem legalMoves_eq_nil {p : Position} (hking : ¬ p.legal (.castle .kingside))
    (hqueen : ¬ p.legal (.castle .queenside))
    (h : ∀ x < 64, (p.board x).owner = some p.turn → ∀ s < 64,
      ¬ p.legal (.quiet x s) ∧ ¬ p.legal (.capture x s) ∧ ¬ p.legal (.enPassant x s)) :
    p.legalMoves = [] := by
  rw [List.eq_nil_iff_forall_not_mem]
  intro m hm
  have hl := mem_legalMoves.mp hm
  cases m with
  | quiet x s => exact (h x hl.1.1 hl.1.2.2.1 s hl.1.2.1).1 hl
  | capture x s => exact (h x hl.1.1 hl.1.2.2.1 s hl.1.2.1).2.1 hl
  | enPassant x s =>
    have howner : (p.board x).owner = some p.turn := by
      rw [hl.1.2.2.2.1]
      rfl
    exact (h x hl.1.1 howner s hl.1.2.1).2.2 hl
  | castle v =>
    cases v with
    | kingside => exact hking hl
    | queenside => exact hqueen hl

/-- The legal move of a code, where promotions are to a queen. -/
def withCode (p : Position) (c : Chess.Move) : Option Move :=
  p.legalMoves.find? fun m => p.code m = c

theorem withCode_code {p : Position} {m : Move} (hm : p.legal m) :
    p.withCode (p.code m) = some m := by
  cases hn : p.withCode (p.code m) with
  | none =>
    have hall := List.find?_eq_none.mp hn m (mem_legalMoves.mpr hm)
    exact absurd (by simp) hall
  | some n =>
    have hcode : p.code n = p.code m := by simpa using List.find?_some hn
    have hlegal := mem_legalMoves.mp (List.mem_of_find?_eq_some hn)
    rw [codeWith_injective hlegal hm hcode]

end Position

/-- A chess library over played games. It does not look for repetitions or for
too little material. -/
def rulesLibrary : Chess.Library where
  Board := Played
  start := .initial
  pieceAt q sq := (q.position.board (8 * (7 - sq.rank) + sq.file).toNat).kind
  legalmoves q g :=
    (q.position.legalMoves.filter fun m =>
      g.covers (q.position.board (q.position.source m)).kind).flatMap fun m =>
        (Position.promotionKinds.map fun k => q.position.codeWith k m).dedup
  makeMove q c :=
    match q.position.withCode c with
    | some m => q.play m
    | none => q
  makeNullMove q :=
    ⟨{ q.position with turn := q.position.turn.other, enPassant := none },
      q.halfmoves + 1, q.plies + 1⟩
  getFen q := fenText q ((q.position.enPassant.map squareName).getD "-")
  isGameOver q :=
    if q.position.legalMoves = [] then
      if inCheck q.position.board q.position.turn then (.checkmate, .lose)
      else (.stalemate, .draw)
    else if 100 ≤ q.halfmoves then (.fiftyMoveRule, .draw)
    else (.none, .none)
  moveToUci c :=
    let name (sq : Chess.Square) : String := squareName (8 * (7 - sq.rank) + sq.file).toNat
    name c.source ++
      match c.typeOf with
      | .castling => name ⟨c.target.rank, if c.source.file < c.target.file then 6 else 2⟩
      | .promotion => name c.target ++ (SmakPiece.man .black c.promotionType).toChar.toString
      | _ => name c.target

theorem rulesLibrary_followsRules : rulesLibrary.FollowsRules Eq where
  start := rfl
  pieceAt := by
    rintro q _ s rfl hs
    have hsq : (8 * (7 - (Chess.squareAt s).rank) + (Chess.squareAt s).file).toNat = s := by
      simp only [Chess.squareAt, rowOf, fileOf]
      omega
    simp only [rulesLibrary, hsq]
  legalmoves := by
    rintro q _ g c rfl
    simp only [rulesLibrary, List.mem_flatMap, List.mem_filter, List.mem_dedup,
      List.mem_map, Position.mem_legalMoves]
    constructor
    · rintro ⟨m, ⟨hm, hg⟩, k, hk, rfl⟩
      exact ⟨m, hm, hg, k, hk, rfl⟩
    · rintro ⟨m, hm, hg, k, hk, rfl⟩
      exact ⟨m, ⟨hm, hg⟩, k, hk, rfl⟩
  makeMove := by
    rintro q _ m rfl hm
    simp only [rulesLibrary, Position.withCode_code hm]
  getFen := by
    rintro q _ rfl
    refine ⟨(q.position.enPassant.map squareName).getD "-", ?_, rfl⟩
    cases he : q.position.enPassant with
    | some s => exact Or.inl ⟨s, he, rfl⟩
    | none =>
      refine Or.inr ⟨rfl, fun x s hm => ?_⟩
      have hs := hm.1.2.2.1
      rw [he] at hs
      cases hs

theorem isGameOver_rulesLibrary {q : Played} {m : Move} (hm : q.position.legal m)
    (h : q.halfmoves < 100) : (rulesLibrary.isGameOver q).1 = .none := by
  have hne : q.position.legalMoves ≠ [] :=
    List.ne_nil_of_mem (Position.mem_legalMoves.mpr hm)
  simp [rulesLibrary, hne, Nat.not_le.mpr h]

section Found

variable {lib : Chess.Library} {shows : lib.Board → Played → Prop} {b : lib.Board}
  {q : Played} {x s : Nat}

theorem intToSquare_natCast (s : Nat) : intToSquare s = Chess.squareAt s := by
  simp [intToSquare, Chess.squareAt, rowOf, fileOf]

theorem covers_pieceToPiecegen (t : Chess.PieceType) :
    (pieceToPiecegen t).covers t = true := by
  cases t <;> simp [pieceToPiecegen, Chess.PieceGenType.covers]

/-- A move without its type is found when a plain step or capture is legal. -/
theorem finds_iff (hr : lib.FollowsRules shows) (hb : shows b q) (hx : x < 64) :
    lib.finds b (.make (Chess.squareAt x) (Chess.squareAt s)) = true ↔
      ¬ q.position.promotes x s ∧
        (q.position.legal (.quiet x s) ∨ q.position.legal (.capture x s)) := by
  have hpiece : lib.pieceAt b (Chess.squareAt x) = (q.position.board x).kind :=
    hr.pieceAt b q x hb hx
  simp only [Chess.Library.finds, Chess.Move.make, List.contains_iff_mem, hpiece,
    hr.legalmoves b q _ _ hb]
  constructor
  · rintro ⟨m, hm, -, k, -, h⟩
    have htype : Chess.MoveType.normal = q.position.typeOf m := congrArg Chess.Move.typeOf h
    have hsource : x = q.position.source m := squareAt_inj.mp (congrArg Chess.Move.source h)
    have htarget : s = q.position.target m := squareAt_inj.mp (congrArg Chess.Move.target h)
    cases m with
    | quiet y t =>
      obtain rfl : x = y := hsource
      obtain rfl : s = t := htarget
      refine ⟨fun hp => ?_, Or.inl hm⟩
      simp [Position.typeOf, hp] at htype
    | capture y t =>
      obtain rfl : x = y := hsource
      obtain rfl : s = t := htarget
      refine ⟨fun hp => ?_, Or.inr hm⟩
      simp [Position.typeOf, hp] at htype
    | enPassant y t => cases htype
    | castle v => cases htype
  · rintro ⟨hp, hm | hm⟩
    · refine ⟨.quiet x s, hm, covers_pieceToPiecegen _, .knight, by decide, ?_⟩
      simp [Position.codeWith, Position.typeOf, Position.source, Position.target, hp]
    · refine ⟨.capture x s, hm, covers_pieceToPiecegen _, .knight, by decide, ?_⟩
      simp [Position.codeWith, Position.typeOf, Position.source, Position.target, hp]

end Found

end SmakChess
