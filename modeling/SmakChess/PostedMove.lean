import SmakChess.MoveMessage
import SmakChess.PbLaws

/-! The JSON object that is made of a decoded move, whatever bytes it was decoded from. -/

namespace SmakChess

open Pb (SmakChessMoveT PbBytesArray SmakMessageT)

namespace Pb

/-- `smak_pb_msg_decode`, whose `msg_out` is `SMAK_MESSAGE_INIT_ZERO`. -/
def smakPbMsgDecode (buf : List UInt8) : Option SmakMessageT :=
  if smakMessageSize < buf.length then none
  else (pbDecode smakMessageMsg .unset (.over buf [])).toOption.map Prod.fst

/-- What the conversion returns and fills for a byte string that decodes as a move.
Its only check, for NULL, passes. -/
def postedMove (s : Storage) (buf : List UInt8) : Option (Int × SmakJsonMoveObj) :=
  match smakPbMsgDecode buf with
  | some (.move mv) => some (0, smakJsonMoveObjInternalGetFromPb s mv)
  | _ => none

end Pb

def IsLetter (c : UInt8) : Prop :=
  65 ≤ c.toNat ∧ c.toNat ≤ 90 ∨ 97 ≤ c.toNat ∧ c.toNat ≤ 122

/-- `out` is the upper-case letter of the letter `c`, or `c` itself. -/
def IsUpperCase (c out : UInt8) : Prop :=
  (∃ i < 26, (c.toNat = 65 + i ∨ c.toNat = 97 + i) ∧ out.toNat = 65 + i) ∨ ¬ IsLetter c ∧ out = c

/-- Whether a piece has to be a letter, or may be another byte, such as the blank of
an empty square. -/
inductive PieceReading
  | letter
  | byte
  deriving DecidableEq, Repr

/-- The array holds the byte `c` alone. -/
def Pb.PbBytesArray.Holds (b : PbBytesArray) (c : UInt8) : Prop :=
  b.size = 1 ∧ b.bytes.head? = some c

def PieceReading.Admits (r : PieceReading) (piece : PbBytesArray) : Prop :=
  ∃ c, piece.Holds c ∧ (r = .letter → IsLetter c)

def PieceReading.Fills (r : PieceReading) (piece : PbBytesArray) (out : UInt8) : Prop :=
  ∃ c, piece.Holds c ∧ (r = .letter → IsLetter c) ∧ IsUpperCase c out

structure FillsFaithfully (r : PieceReading) (mv : SmakChessMoveT) (out : SmakJsonMoveObj) :
    Prop where
  ply : out.ply = mv.ply
  fromSquare : out.fromSquare.toNat = mv.fromSquare.toNat
  toSquare : out.toSquare.toNat = mv.toSquare.toNat
  piece : r.Fills mv.piece out.piece
  captured : r.Fills mv.captured out.captured
  moveType : ∃ t : MoveType, mv.moveType.toNat = t.number ∧ out.moveType = some t.text

/-- A move that is not refused is filled in faithfully. -/
def ConvertsOrRefuses (r : PieceReading) (s : Storage) (buf : List UInt8) (mv : SmakChessMoveT) :
    Prop :=
  ∃ res out, Pb.postedMove s buf = some (res, out) ∧ (res < 0 ∨ FillsFaithfully r mv out)

structure Convertible (r : PieceReading) (mv : SmakChessMoveT) : Prop where
  fromSquare : mv.fromSquare.toNat < 2 ^ 16
  toSquare : mv.toSquare.toNat < 2 ^ 16
  piece : r.Admits mv.piece
  captured : r.Admits mv.captured
  moveType : mv.moveType.toNat < 4

section Json

variable {r : PieceReading} {b : PbBytesArray} {mv : SmakChessMoveT} {s : Storage}
  {buf : List UInt8}

theorem toUInt16_toNat_eq_iff (x : UInt32) : x.toUInt16.toNat = x.toNat ↔ x.toNat < 2 ^ 16 := by
  have hlt := x.toUInt16.toNat_lt
  rw [UInt32.toNat_toUInt16]
  omega

theorem isUpperCase_toupper (c : UInt8) : IsUpperCase c (toupper c) := by
  unfold toupper
  split_ifs with h
  · rw [UInt8.le_iff_toNat_le, UInt8.le_iff_toNat_le] at h
    have h32 : (32 : UInt8) ≤ c := by
      rw [UInt8.le_iff_toNat_le]
      exact (by decide : (32 : UInt8).toNat ≤ 97).trans h.1
    have h97 : (97 : UInt8).toNat = 97 := rfl
    have h122 : (122 : UInt8).toNat = 122 := rfl
    have hsub : (32 : UInt8).toNat = 32 := rfl
    refine .inl ⟨c.toNat - 97, by omega, .inr (by omega), ?_⟩
    rw [UInt8.toNat_sub_of_le _ _ h32]
    omega
  · have hlow : ¬ (97 ≤ c.toNat ∧ c.toNat ≤ 122) := by
      rwa [UInt8.le_iff_toNat_le, UInt8.le_iff_toNat_le] at h
    by_cases hup : 65 ≤ c.toNat ∧ c.toNat ≤ 90
    · exact .inl ⟨c.toNat - 65, by omega, .inl (by omega), by omega⟩
    · exact .inr ⟨not_or.mpr ⟨hup, hlow⟩, rfl⟩

theorem fills_toupper_iff : r.Fills b (toupper (b.bytes.headD 0)) ↔ r.Admits b := by
  constructor
  · rintro ⟨c, hc, hr, -⟩
    exact ⟨c, hc, hr⟩
  · rintro ⟨c, hc, hr⟩
    refine ⟨c, hc, hr, ?_⟩
    rw [List.headD_eq_head?_getD, hc.2]
    exact isUpperCase_toupper c

theorem moveTypeStrings_number (t : MoveType) : moveTypeStrings[t.number]? = some t.text := by
  cases t <;> rfl

theorem exists_number_eq {n : Nat} (h : n < 4) : ∃ t : MoveType, n = t.number := by
  match n, h with
  | 0, _ => exact ⟨.enPassant, rfl⟩
  | 1, _ => exact ⟨.castling, rfl⟩
  | 2, _ => exact ⟨.promotion, rfl⟩
  | 3, _ => exact ⟨.normal, rfl⟩

theorem fillsFaithfully_iff :
    FillsFaithfully r mv (smakJsonMoveObjInternalGetFromPb s mv) ↔ Convertible r mv := by
  constructor
  · rintro ⟨-, hfrom, hto, hpiece, hcaptured, t, ht, -⟩
    refine ⟨(toUInt16_toNat_eq_iff _).mp hfrom, (toUInt16_toNat_eq_iff _).mp hto,
      fills_toupper_iff.mp hpiece, fills_toupper_iff.mp hcaptured, ?_⟩
    rw [ht]
    exact moveType_number_lt t
  · rintro ⟨hfrom, hto, hpiece, hcaptured, hmt⟩
    obtain ⟨t, ht⟩ := exists_number_eq hmt
    refine ⟨rfl, (toUInt16_toNat_eq_iff _).mpr hfrom, (toUInt16_toNat_eq_iff _).mpr hto,
      fills_toupper_iff.mpr hpiece, fills_toupper_iff.mpr hcaptured, t, ht, ?_⟩
    have hname := moveTypeStrings_number t
    rw [← ht] at hname
    exact hname

theorem postedMove_of_decode (h : Pb.smakPbMsgDecode buf = some (.move mv)) :
    Pb.postedMove s buf = some (0, smakJsonMoveObjInternalGetFromPb s mv) := by
  rw [Pb.postedMove, h]

theorem smakPbMsgDecode_of_nanopb {pb : Nanopb} (hd : pb.decode = Pb.nanopbDecode)
    (buf : List UInt8) : smakPbMsgDecode pb buf = (Pb.smakPbMsgDecode buf).map SmakMessageT.view := by
  unfold smakPbMsgDecode Pb.smakPbMsgDecode
  split_ifs
  · rfl
  · rw [hd, Pb.nanopbDecode]
    cases Pb.pbDecode Pb.smakMessageMsg .unset (.over buf []) <;> rfl

theorem headD_moveOf_view {c : UInt8} (h : b.Holds c) :
    (Pb.arrayOf b.view).bytes.headD 0 = b.bytes.headD 0 := by
  obtain ⟨size, bytes⟩ := b
  obtain ⟨rfl, hhead⟩ := h
  obtain ⟨bs, rfl⟩ := List.head?_eq_some_iff.mp hhead
  rfl

/-- Where the arrays hold a byte each, the rest of this development posts the same
object. -/
theorem postedMove_of_nanopb {pb : Nanopb} {p c : UInt8} (hd : pb.decode = Pb.nanopbDecode)
    (h : Pb.smakPbMsgDecode buf = some (.move mv)) (hp : mv.piece.Holds p)
    (hc : mv.captured.Holds c) : postedMove pb s buf = Pb.postedMove s buf := by
  have hdecode : smakPbMsgDecode pb buf = some (.move mv.view) := by
    rw [smakPbMsgDecode_of_nanopb hd, h]
    rfl
  rw [postedMove_of_decode h, postedMove, hdecode]
  simp only [smakJsonMoveObjInternalGetFromPb, Pb.moveOf, SmakChessMoveT.view,
    headD_moveOf_view hp, headD_moveOf_view hc]

end Json

/-- The conversion checks nothing, so it is right for the moves that need no check. -/
theorem postedMove_faithful_iff (r : PieceReading) (s : Storage) (buf : List UInt8)
    (mv : SmakChessMoveT) (h : Pb.smakPbMsgDecode buf = some (.move mv)) :
    ConvertsOrRefuses r s buf mv ↔ Convertible r mv := by
  have hposted := postedMove_of_decode (s := s) h
  rw [← fillsFaithfully_iff (s := s)]
  constructor
  · rintro ⟨res, out, hout, hf⟩
    obtain ⟨rfl, rfl⟩ := Prod.mk.inj (Option.some.inj (hposted.symm.trans hout))
    exact hf.resolve_left (Int.lt_irrefl 0)
  · exact fun hf => ⟨0, _, hposted, .inr hf⟩

/-- The pawn of `e2` to `e4`, with `moveType` as its type. -/
def pawnMoveBytes (moveType : UInt8) : List UInt8 :=
  [0x0A, 16, 8, 1, 16, 1, 24, 12, 32, 28, 0x2A, 1, 80, 0x32, 1, 90, 0x38, moveType]

def pawnMoveT (moveType : UInt32) : SmakChessMoveT :=
  ⟨1, 1, 12, 28, ⟨1, [80, 0]⟩, ⟨1, [90, 0]⟩, moveType⟩

theorem pawnMove_faithful :
    ConvertsOrRefuses .letter (smakStorageInit none) (pawnMoveBytes 3) (pawnMoveT 3) := by
  have hdecode : Pb.smakPbMsgDecode (pawnMoveBytes 3) = some (.move (pawnMoveT 3)) := rfl
  refine (postedMove_faithful_iff .letter _ _ _ hdecode).mpr ?_
  exact ⟨by decide, by decide, ⟨80, ⟨rfl, rfl⟩, fun _ => .inl (by decide)⟩,
    ⟨90, ⟨rfl, rfl⟩, fun _ => .inl (by decide)⟩, by decide⟩

/-- The table has no entry for the type. -/
theorem strangeMove_not_faithful :
    Pb.smakPbMsgDecode (pawnMoveBytes 4) = some (.move (pawnMoveT 4)) ∧
      ¬ ConvertsOrRefuses .letter (smakStorageInit none) (pawnMoveBytes 4) (pawnMoveT 4) ∧
      ¬ ConvertsOrRefuses .byte (smakStorageInit none) (pawnMoveBytes 4) (pawnMoveT 4) := by
  have hdecode : Pb.smakPbMsgDecode (pawnMoveBytes 4) = some (.move (pawnMoveT 4)) := rfl
  have hnot (r : PieceReading) :
      ¬ ConvertsOrRefuses r (smakStorageInit none) (pawnMoveBytes 4) (pawnMoveT 4) := by
    rintro ⟨res, out, hout, hf⟩
    obtain ⟨rfl, rfl⟩ :=
      Prod.mk.inj (Option.some.inj ((postedMove_of_decode hdecode).symm.trans hout))
    have hconvertible := fillsFaithfully_iff.mp (hf.resolve_left (Int.lt_irrefl 0))
    exact absurd hconvertible.moveType (by decide)
  exact ⟨hdecode, hnot .letter, hnot .byte⟩

end SmakChess
