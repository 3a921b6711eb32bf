import SmakChess.Conn
import SmakChess.Framing
import SmakChess.Model

/-! A move message on its way: its length on the line decides whether it is accepted. -/

namespace SmakChess

open Protobuf

def MoveType.number : MoveType → Nat
  | .enPassant => 0
  | .castling => 1
  | .promotion => 2
  | .normal => 3

def MoveType.text : MoveType → String
  | .enPassant => "enpassant"
  | .castling => "castling"
  | .promotion => "promotion"
  | .normal => "normal"

/-- What the board has to send: one byte for each piece, and one of the types. -/
structure Sendable (mv : SmakChessMove) : Prop where
  piece : ∃ b, mv.piece = .single b
  captured : ∃ b, mv.captured = .single b
  moveType : ∃ t : MoveType, mv.moveType.toNat = t.number

def RoundTrips (pb : Nanopb) (bytes : List UInt8) (mv : SmakChessMove) : Prop :=
  ∃ ctx, handleRx bytes = some ctx ∧ smakPbMsgDecode pb ctx.buffer = some (.move mv)

/-- Every number takes the longest encoding it can. -/
def Longest (mv : SmakChessMove) : Prop :=
  2 ^ 63 ≤ mv.id.toNat ∧ 2 ^ 28 ≤ mv.ply.toNat ∧ 2 ^ 28 ≤ mv.fromSquare.toNat ∧
    2 ^ 28 ≤ mv.toSquare.toNat ∧ mv.moveType.toNat ≠ MoveType.enPassant.number

/-- What the conversion returns and fills for a byte string that decodes as a move.
Its only check, for NULL, passes. Behind the bytes of an array there is nothing. -/
def postedMove (pb : Nanopb) (s : Storage) (buf : List UInt8) : Option (Int × SmakJsonMoveObj) :=
  match smakPbMsgDecode pb buf with
  | some (.move mv) => some (0, smakJsonMoveObjInternalGetFromPb s (Pb.moveOf mv))
  | _ => none

section Length

variable {k n c : Nat} {mv : SmakChessMove} {pb : Nanopb} {bufSize : Nat} {bytes : List UInt8}

theorem lt_length_putVarint (hc : c ≤ k) (h : 128 ^ c ≤ n) : c < (putVarint k n).length := by
  induction k generalizing n c with
  | zero =>
    obtain rfl := Nat.le_zero.mp hc
    exact Nat.zero_lt_one
  | succ k ih =>
    by_cases hlt : n < 128
    · cases c with
      | zero => simp [putVarint, hlt]
      | succ c =>
        have hpow : 128 ^ 1 ≤ 128 ^ (c + 1) := Nat.pow_le_pow_right (by decide) (by omega)
        omega
    · rw [putVarint, if_neg hlt, List.length_cons]
      cases c with
      | zero => exact Nat.succ_pos _
      | succ c =>
        have hdiv : 128 ^ c ≤ n / 128 := by
          rw [Nat.le_div_iff_mul_le (by decide), ← pow_succ]
          exact h
        exact Nat.succ_lt_succ (ih (Nat.le_of_succ_le_succ hc) hdiv)

theorem size_uintField_eq_iff (hk : k < 8) (hc : c ≤ 9) (hn : n < 128 ^ (c + 1)) :
    (encodeFields (uintField k n)).length = c + 2 ↔ 128 ^ c ≤ n := by
  have hpos : 0 < 128 ^ c := Nat.pow_pos (by decide)
  unfold uintField
  split_ifs with hzero
  · have hnone : (encodeFields []).length = 0 := rfl
    omega
  have hkey : (encodeVarint (8 * k + 0)).length ≤ 1 :=
    @putVarint_length_le 9 _ 0 (by omega)
  have hkey' := encodeVarint_length_pos (8 * k + 0)
  have hle : (encodeVarint n).length ≤ c + 1 := putVarint_length_le hn
  have hsize : (encodeFields [⟨k, .varint n⟩]).length = 1 + (encodeVarint n).length := by
    rw [encodeFields_singleton]
    simp only [WireField.encode, WireValue.wireType, WireValue.payload, List.length_append]
    omega
  rw [hsize]
  constructor
  · intro h
    by_contra hlt
    cases c with
    | zero => omega
    | succ c =>
      have hshort : (encodeVarint n).length ≤ c + 1 := putVarint_length_le (by omega)
      omega
  · intro h
    have hlong : c < (encodeVarint n).length := lt_length_putVarint hc h
    omega

theorem size_bytesField_single (hk : k < 8) (b : UInt8) :
    (encodeFields (bytesField k (.single b))).length = 3 := by
  have h := @size_member k [b] hk (Nat.lt_of_lt_of_le (Nat.lt_succ_self 1) (by decide))
  have hfield : bytesField k (.single b) = [⟨k, .bytes [b]⟩] := if_neg (List.cons_ne_nil b [])
  rw [hfield, encodeFields_singleton]
  exact h

theorem moveType_number_lt (t : MoveType) : t.number < 4 := by
  cases t <;> decide

theorem length_lt_iff (h : Sendable mv) :
    (pbEncode (.move mv)).length < smakMessageSize ↔ ¬ Longest mv := by
  obtain ⟨⟨p, hp⟩, ⟨q, hq⟩, ⟨t, ht⟩⟩ := h
  have htype := moveType_number_lt t
  have hid : mv.id.toNat < 128 ^ (9 + 1) := by have := mv.id.toNat_lt; omega
  have hply : mv.ply.toNat < 128 ^ (4 + 1) := by have := mv.ply.toNat_lt; omega
  have hfrom : mv.fromSquare.toNat < 128 ^ (4 + 1) := by have := mv.fromSquare.toNat_lt; omega
  have hto : mv.toSquare.toNat < 128 ^ (4 + 1) := by have := mv.toSquare.toNat_lt; omega
  have hmt : mv.moveType.toNat < 128 ^ (0 + 1) := by omega
  have h1 := size_uintField_le (k := 1) (by decide) hid
  have h2 := size_uintField_le (k := 2) (by decide) hply
  have h3 := size_uintField_le (k := 3) (by decide) hfrom
  have h4 := size_uintField_le (k := 4) (by decide) hto
  have h7 := size_uintField_le (k := 7) (by decide) hmt
  have e1 := size_uintField_eq_iff (k := 1) (by decide) (by decide) hid
  have e2 := size_uintField_eq_iff (k := 2) (by decide) (by decide) hply
  have e3 := size_uintField_eq_iff (k := 3) (by decide) (by decide) hfrom
  have e4 := size_uintField_eq_iff (k := 4) (by decide) (by decide) hto
  have e7 := size_uintField_eq_iff (k := 7) (by decide) (by decide) hmt
  have h5 := size_bytesField_single (k := 5) (by decide) p
  have h6 := size_bytesField_single (k := 6) (by decide) q
  rw [← hp] at h5
  rw [← hq] at h6
  have hsum := encodeFields_fields_length mv
  have hmax : smakMessageSize = 39 := rfl
  have hzero : MoveType.enPassant.number = 0 := rfl
  rw [pbEncode_move_length, Longest, hmax, hzero]
  omega

/-- A message that is short enough for `handle_rx` is decoded as it was encoded. -/
theorem roundTrips_iff_length (hwire : pb.encode = pbEncode)
    (hc : smakChessMoveMsgCreate pb bufSize mv = some bytes) :
    RoundTrips pb bytes mv ↔ (pbEncode (.move mv)).length < smakMessageSize := by
  obtain ⟨hbytes, -⟩ := bytes_of_created (Created.move bufSize mv bytes hc)
  rw [← hwire, ← hbytes]
  constructor
  · rintro ⟨ctx, hrx, -⟩
    by_contra hlen
    rw [handleRx, dif_neg hlen] at hrx
    cases hrx
  · intro hlen
    refine ⟨⟨bytes, hlen⟩, dif_pos hlen, ?_⟩
    have hdecode : pb.decode bytes = some (.move mv) := by
      rw [hbytes]
      exact pb.decode_encode _
    exact (if_neg (Nat.not_lt.mpr hlen.le)).trans hdecode

end Length

/-- A move comes through as it was sent, unless it fills the whole buffer. -/
theorem roundTrips_iff (pb : Nanopb) (hwire : pb.encode = pbEncode) (bufSize : Nat)
    (mv : SmakChessMove) (h : Sendable mv) (bytes : List UInt8)
    (hc : smakChessMoveMsgCreate pb bufSize mv = some bytes) :
    RoundTrips pb bytes mv ↔ ¬ Longest mv :=
  (roundTrips_iff_length hwire hc).trans (length_lt_iff h)

def pawnMove : SmakChessMove := ⟨1, 1, 12, 28, .single 80, .single 90, 3⟩

theorem pawnMove_sendable : Sendable pawnMove := ⟨⟨80, rfl⟩, ⟨90, rfl⟩, .normal, rfl⟩

theorem pawnMove_roundTrips : RoundTrips wireFormat (pbEncode (.move pawnMove)) pawnMove :=
  (roundTrips_iff wireFormat rfl 39 pawnMove pawnMove_sendable _ (by decide)).mpr
    fun h => absurd h.1 (by decide)

def longMove : SmakChessMove :=
  ⟨18446744073709551615, 4294967295, 4294967295, 4294967295, .single 80, .single 90, 3⟩

theorem longMove_not_roundTrips :
    smakChessMoveMsgCreate wireFormat 39 longMove = some (pbEncode (.move longMove)) ∧
      ¬ RoundTrips wireFormat (pbEncode (.move longMove)) longMove := by
  have hc : smakChessMoveMsgCreate wireFormat 39 longMove = some (pbEncode (.move longMove)) := by
    decide +kernel
  have hs : Sendable longMove := ⟨⟨80, rfl⟩, ⟨90, rfl⟩, .normal, rfl⟩
  refine ⟨hc, fun h => (length_lt_iff hs).mp ((roundTrips_iff_length rfl hc).mp h) ?_⟩
  exact ⟨by decide +kernel, by decide +kernel, by decide +kernel, by decide +kernel,
    by decide +kernel⟩

end SmakChess
