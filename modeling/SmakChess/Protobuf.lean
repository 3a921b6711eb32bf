import Mathlib.Algebra.BigOperators.Group.List.Basic
import Mathlib.Algebra.Order.Monoid.Unbundled.Pow
import Mathlib.Tactic.Common
import Mathlib.Tactic.Ring

/-! The protobuf wire format: varints, fields, and messages as folds over the
fields of a byte string. A message takes at least the bytes that the shortest
encoding of what it holds takes. -/

namespace Protobuf

/-! Varints. -/

/-- Seven bits a byte, lowest first, in at most `k + 1` bytes. -/
def putVarint : Nat → Nat → List UInt8
  | 0, n => [UInt8.ofNat n]
  | k + 1, n => if n < 128 then [UInt8.ofNat n] else UInt8.ofNat (n % 128 + 128) :: putVarint k (n / 128)

def takeVarint : Nat → List UInt8 → Option (Nat × List UInt8)
  | _, [] => none
  | 0, b :: bs => if b.toNat < 128 then some (b.toNat, bs) else none
  | k + 1, b :: bs =>
    if b.toNat < 128 then some (b.toNat, bs)
    else (takeVarint k bs).map fun r => (b.toNat - 128 + 128 * r.1, r.2)

def encodeVarint (n : Nat) : List UInt8 := putVarint 9 n

def decodeVarint (bs : List UInt8) : Option (Nat × List UInt8) :=
  (takeVarint 9 bs).filter fun r => r.1 < 2 ^ 64

section Varint

variable {k n c : Nat} {bs rest : List UInt8}

theorem toNat_ofNat (h : n < 256) : (UInt8.ofNat n).toNat = n := by
  rw [UInt8.toNat_ofNat']
  omega

theorem takeVarint_putVarint (h : n < 128 ^ (k + 1)) :
    takeVarint k (putVarint k n ++ rest) = some (n, rest) := by
  induction k generalizing n with
  | zero =>
    have hb : (UInt8.ofNat n).toNat = n := toNat_ofNat (by omega)
    have hlt : n < 128 := by omega
    simp [putVarint, takeVarint, hb, hlt]
  | succ k ih =>
    by_cases hlt : n < 128
    · have hb : (UInt8.ofNat n).toNat = n := toNat_ofNat (by omega)
      simp [putVarint, takeVarint, hb, hlt]
    · have hb : (UInt8.ofNat (n % 128 + 128)).toNat = n % 128 + 128 := toNat_ofNat (by omega)
      have hdiv : n / 128 < 128 ^ (k + 1) := by
        rw [Nat.div_lt_iff_lt_mul (by decide), ← pow_succ]
        exact h
      have hge : ¬ n % 128 + 128 < 128 := by omega
      have hn : n % 128 + 128 * (n / 128) = n := Nat.mod_add_div n 128
      simp only [putVarint, if_neg hlt, List.cons_append, takeVarint, hb, if_neg hge, ih hdiv,
        Option.map_some, Nat.add_sub_cancel, hn]

theorem takeVarint_lt (h : takeVarint k bs = some (n, rest)) :
    ∃ c, n < 128 ^ (c + 1) ∧ bs.length = c + 1 + rest.length := by
  induction k generalizing bs n with
  | zero =>
    cases bs with
    | nil => simp [takeVarint] at h
    | cons b bs =>
      simp only [takeVarint] at h
      split_ifs at h with hb
      obtain ⟨rfl, rfl⟩ := by simpa using h
      exact ⟨0, by omega, by simp [Nat.add_comm]⟩
  | succ k ih =>
    cases bs with
    | nil => simp [takeVarint] at h
    | cons b bs =>
      simp only [takeVarint] at h
      split_ifs at h with hb
      · obtain ⟨rfl, rfl⟩ := by simpa using h
        exact ⟨0, by omega, by simp [Nat.add_comm]⟩
      · obtain ⟨⟨m, r⟩, hm, heq⟩ := Option.map_eq_some_iff.mp h
        obtain ⟨rfl, rfl⟩ := by simpa using heq
        obtain ⟨c, hc, hlen⟩ := ih hm
        refine ⟨c + 1, ?_, by simp only [List.length_cons]; omega⟩
        have hbyte := b.toNat_lt
        have hpow : 128 ^ (c + 1 + 1) = 128 * 128 ^ (c + 1) := pow_succ' 128 (c + 1)
        rw [hpow]
        omega

theorem putVarint_length_le (h : n < 128 ^ (c + 1)) : (putVarint k n).length ≤ c + 1 := by
  induction k generalizing n c with
  | zero => simp [putVarint]
  | succ k ih =>
    by_cases hlt : n < 128
    · simp [putVarint, hlt]
    · cases c with
      | zero => exact absurd (by simpa using h) hlt
      | succ c =>
        have hdiv : n / 128 < 128 ^ (c + 1) := by
          rw [Nat.div_lt_iff_lt_mul (by decide), ← pow_succ]
          exact h
        have hrest := ih hdiv
        simp only [putVarint, if_neg hlt, List.length_cons]
        omega

theorem decodeVarint_encodeVarint (h : n < 2 ^ 64) :
    decodeVarint (encodeVarint n ++ rest) = some (n, rest) := by
  have hpow : n < 128 ^ (9 + 1) := by omega
  simpa [decodeVarint, encodeVarint, takeVarint_putVarint hpow] using h

/-- No encoding of a number is shorter than its varint. -/
theorem encodeVarint_length_le (h : decodeVarint bs = some (n, rest)) :
    (encodeVarint n).length + rest.length ≤ bs.length := by
  obtain ⟨htake, -⟩ := Option.filter_eq_some_iff.mp h
  obtain ⟨c, hc, hlen⟩ := takeVarint_lt htake
  have hput : (encodeVarint n).length ≤ c + 1 := putVarint_length_le hc
  omega

theorem encodeVarint_length_pos (n : Nat) : 0 < (encodeVarint n).length := by
  unfold encodeVarint putVarint
  split_ifs <;> simp

end Varint

/-! Fields. -/

inductive WireValue
  | varint (n : Nat)
  | fixed64 (bs : List UInt8)
  | bytes (bs : List UInt8)
  | fixed32 (bs : List UInt8)
  deriving DecidableEq, Repr

structure WireField where
  number : Nat
  value : WireValue
  deriving DecidableEq, Repr

def WireValue.wireType : WireValue → Nat
  | .varint _ => 0
  | .fixed64 _ => 1
  | .bytes _ => 2
  | .fixed32 _ => 5

def WireValue.payload : WireValue → List UInt8
  | .varint n => encodeVarint n
  | .fixed64 bs => bs
  | .bytes bs => encodeVarint bs.length ++ bs
  | .fixed32 bs => bs

def WireField.encode (f : WireField) : List UInt8 :=
  encodeVarint (8 * f.number + f.value.wireType) ++ f.value.payload

def WireField.size (f : WireField) : Nat := f.encode.length

def WireField.Valid (f : WireField) : Prop :=
  0 < f.number ∧ 8 * f.number + f.value.wireType < 2 ^ 32 ∧
    match f.value with
    | .varint n => n < 2 ^ 64
    | .fixed64 bs => bs.length = 8
    | .bytes bs => bs.length < 2 ^ 64
    | .fixed32 bs => bs.length = 4

def takeBytes (n : Nat) (bs : List UInt8) : Option (List UInt8 × List UInt8) :=
  if n ≤ bs.length then some (bs.take n, bs.drop n) else none

def decodeValue (wireType : Nat) (bs : List UInt8) : Option (WireValue × List UInt8) :=
  match wireType with
  | 0 => (decodeVarint bs).map fun r => (.varint r.1, r.2)
  | 1 => (takeBytes 8 bs).map fun r => (.fixed64 r.1, r.2)
  | 2 => (decodeVarint bs).bind fun r => (takeBytes r.1 r.2).map fun r => (.bytes r.1, r.2)
  | 5 => (takeBytes 4 bs).map fun r => (.fixed32 r.1, r.2)
  | _ => none

def decodeField (bs : List UInt8) : Option (WireField × List UInt8) :=
  (decodeVarint bs).bind fun key =>
    if 8 ≤ key.1 ∧ key.1 < 2 ^ 32 then
      (decodeValue (key.1 % 8) key.2).map fun r => (⟨key.1 / 8, r.1⟩, r.2)
    else none

/-- The fields of at most `k` bytes. -/
def decodeFields : Nat → List UInt8 → Option (List WireField)
  | _, [] => some []
  | 0, _ :: _ => none
  | k + 1, b :: bs =>
    (decodeField (b :: bs)).bind fun r => (decodeFields k r.2).map fun fs => r.1 :: fs

def parse (bs : List UInt8) : Option (List WireField) := decodeFields bs.length bs

def encodeFields (fs : List WireField) : List UInt8 := fs.flatMap WireField.encode

section Fields

variable {f : WireField} {fs : List WireField} {k n : Nat} {bs rest : List UInt8} {v : WireValue}

theorem takeBytes_append (bs rest : List UInt8) :
    takeBytes bs.length (bs ++ rest) = some (bs, rest) := by
  simp [takeBytes]

theorem length_of_takeBytes {as : List UInt8} (h : takeBytes n bs = some (as, rest)) :
    as.length = n ∧ as.length + rest.length = bs.length := by
  unfold takeBytes at h
  split_ifs at h with hn
  obtain ⟨rfl, rfl⟩ := by simpa using h
  simp only [List.length_take, List.length_drop]
  omega

theorem decodeField_encode (h : f.Valid) : decodeField (f.encode ++ rest) = some (f, rest) := by
  obtain ⟨number, value⟩ := f
  obtain ⟨hpos, hkey, hvalue⟩ := h
  have hwire : value.wireType < 8 := by cases value <;> simp [WireValue.wireType]
  have hmod : (8 * number + value.wireType) % 8 = value.wireType := by omega
  have hdiv : (8 * number + value.wireType) / 8 = number := by omega
  have hge : 8 ≤ 8 * number + value.wireType ∧ 8 * number + value.wireType < 2 ^ 32 := by
    dsimp only at hpos hkey
    omega
  have hdecode : decodeValue value.wireType (value.payload ++ rest) = some (value, rest) := by
    cases value with
    | varint n => simp [decodeValue, WireValue.wireType, WireValue.payload, decodeVarint_encodeVarint hvalue]
    | fixed64 bs =>
      have htake := takeBytes_append bs rest
      rw [show bs.length = 8 from hvalue] at htake
      simp [decodeValue, WireValue.wireType, WireValue.payload, htake]
    | bytes bs =>
      simp [decodeValue, WireValue.wireType, WireValue.payload, decodeVarint_encodeVarint hvalue,
        takeBytes_append]
    | fixed32 bs =>
      have htake := takeBytes_append bs rest
      rw [show bs.length = 4 from hvalue] at htake
      simp [decodeValue, WireValue.wireType, WireValue.payload, htake]
  rw [WireField.encode, List.append_assoc, decodeField,
    decodeVarint_encodeVarint (by dsimp only at hkey ⊢; omega), Option.bind_some, if_pos hge, hmod, hdiv,
    hdecode, Option.map_some]

theorem payload_length_le {w : Nat} (h : decodeValue w bs = some (v, rest)) :
    w = v.wireType ∧ v.payload.length + rest.length ≤ bs.length := by
  unfold decodeValue at h
  split at h
  · obtain ⟨r, hr, heq⟩ := Option.map_eq_some_iff.mp h
    obtain ⟨rfl, rfl⟩ := by simpa using heq
    exact ⟨rfl, encodeVarint_length_le hr⟩
  · obtain ⟨r, hr, heq⟩ := Option.map_eq_some_iff.mp h
    obtain ⟨rfl, rfl⟩ := by simpa using heq
    exact ⟨rfl, (length_of_takeBytes hr).2.le⟩
  · obtain ⟨r, hr, htake⟩ := Option.bind_eq_some_iff.mp h
    obtain ⟨r', hr', heq⟩ := Option.map_eq_some_iff.mp htake
    obtain ⟨rfl, rfl⟩ := by simpa using heq
    have hlen := encodeVarint_length_le hr
    obtain ⟨hn, hsum⟩ := length_of_takeBytes hr'
    refine ⟨rfl, ?_⟩
    simp only [WireValue.payload, List.length_append, hn]
    omega
  · obtain ⟨r, hr, heq⟩ := Option.map_eq_some_iff.mp h
    obtain ⟨rfl, rfl⟩ := by simpa using heq
    exact ⟨rfl, (length_of_takeBytes hr).2.le⟩
  · cases h

theorem size_le_of_decodeField (h : decodeField bs = some (f, rest)) :
    f.size + rest.length ≤ bs.length := by
  obtain ⟨⟨key, bs'⟩, hkey, hf⟩ := Option.bind_eq_some_iff.mp h
  split_ifs at hf with hrange
  obtain ⟨⟨v, rest'⟩, hv, heq⟩ := Option.map_eq_some_iff.mp hf
  obtain ⟨rfl, rfl⟩ := by simpa using heq
  obtain ⟨hwire, hpayload⟩ := payload_length_le hv
  have hlen := encodeVarint_length_le hkey
  dsimp only at hwire hpayload
  have hkey' : 8 * (key / 8) + v.wireType = key := by
    rw [← hwire]
    exact Nat.div_add_mod key 8
  simp only [WireField.size, WireField.encode, hkey', List.length_append]
  omega

theorem size_pos (f : WireField) : 0 < f.size := by
  have hpos := encodeVarint_length_pos (8 * f.number + f.value.wireType)
  simp only [WireField.size, WireField.encode, List.length_append]
  omega

theorem decodeFields_encodeFields (h : ∀ f ∈ fs, f.Valid) (hk : (encodeFields fs).length ≤ k) :
    decodeFields k (encodeFields fs) = some fs := by
  induction fs generalizing k with
  | nil => cases k <;> rfl
  | cons f fs ih =>
    obtain ⟨hf, hfs⟩ := List.forall_mem_cons.mp h
    have hpos := size_pos f
    have hlen : (encodeFields (f :: fs)).length = f.size + (encodeFields fs).length := by
      simp [encodeFields, WireField.size]
    obtain ⟨b, bs, hbs⟩ := List.exists_cons_of_length_pos (l := encodeFields (f :: fs)) (by omega)
    have hfield : decodeField (b :: bs) = some (f, encodeFields fs) := by
      rw [← hbs]
      exact decodeField_encode hf
    cases k with
    | zero => omega
    | succ k =>
      rw [hbs, decodeFields, hfield, Option.bind_some, ih hfs (by omega), Option.map_some]

theorem parse_encodeFields (h : ∀ f ∈ fs, f.Valid) : parse (encodeFields fs) = some fs :=
  decodeFields_encodeFields h le_rfl

theorem sum_size_le_of_decodeFields (h : decodeFields k bs = some fs) :
    (fs.map WireField.size).sum ≤ bs.length := by
  induction k generalizing bs fs with
  | zero =>
    cases bs with
    | nil =>
      obtain rfl : [] = fs := by simpa [decodeFields] using h
      simp
    | cons b bs => simp [decodeFields] at h
  | succ k ih =>
    cases bs with
    | nil =>
      obtain rfl : [] = fs := by simpa [decodeFields] using h
      simp
    | cons b bs =>
      obtain ⟨⟨f, rest⟩, hf, hrest⟩ := Option.bind_eq_some_iff.mp h
      obtain ⟨fs', hfs, rfl⟩ := Option.map_eq_some_iff.mp hrest
      have hsize := size_le_of_decodeField hf
      have hsum := ih hfs
      dsimp only at hsum
      simp only [List.map_cons, List.sum_cons]
      omega

end Fields

/-! Messages. -/

section Messages

variable {α : Type*} {set : α → WireField → Option α} {a a' : α} {bs : List UInt8} {fs : List WireField}

/-- The message that the fields of `bs` leave when set one after another. -/
def decodeMessage (set : α → WireField → Option α) (a : α) (bs : List UInt8) : Option α :=
  (parse bs).bind fun fs => fs.foldlM set a

theorem decodeMessage_encodeFields (h : ∀ f ∈ fs, f.Valid) :
    decodeMessage set a (encodeFields fs) = fs.foldlM set a := by
  rw [decodeMessage, parse_encodeFields h, Option.bind_some]

theorem decodeMessage_mono {set' : α → WireField → Option α}
    (hset : ∀ a f a', set a f = some a' → set' a f = some a')
    (h : decodeMessage set a bs = some a') : decodeMessage set' a bs = some a' := by
  obtain ⟨fs, hfs, hfold⟩ := Option.bind_eq_some_iff.mp h
  rw [decodeMessage, hfs, Option.bind_some]
  clear h hfs
  induction fs generalizing a with
  | nil => exact hfold
  | cons f fs ih =>
    rw [List.foldlM_cons] at hfold ⊢
    obtain ⟨b, hb, hrest⟩ := Option.bind_eq_some_iff.mp hfold
    rw [hset a f b hb]
    exact ih hrest

/-- What setting a field adds to the size of a message fits in the field, so
what a byte string adds fits in the byte string. -/
theorem size_le_of_decodeMessage {size : α → Nat}
    (hset : ∀ a f a', set a f = some a' → size a' ≤ size a + f.size)
    (h : decodeMessage set a bs = some a') : size a' ≤ size a + bs.length := by
  obtain ⟨fs, hfs, hfold⟩ := Option.bind_eq_some_iff.mp h
  have hsum := sum_size_le_of_decodeFields hfs
  have hle : size a' ≤ size a + (fs.map WireField.size).sum := by
    clear h hfs hsum
    induction fs generalizing a with
    | nil =>
      obtain rfl : a = a' := by simpa using hfold
      simp
    | cons f fs ih =>
      rw [List.foldlM_cons] at hfold
      obtain ⟨b, hb, hrest⟩ := Option.bind_eq_some_iff.mp hfold
      have hstep := hset a f b hb
      have htail := ih hrest
      simp only [List.map_cons, List.sum_cons]
      omega
  omega

end Messages

end Protobuf
