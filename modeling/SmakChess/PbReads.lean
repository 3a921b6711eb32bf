import SmakChess.PbDecode

/-! What the decoder may read: the outcome depends on the message alone, never on
the memory behind it. -/

namespace SmakChess.Pb

/-- A message in memory that goes on with `beyond`. -/
def PbIstream.over (bs beyond : List UInt8) : PbIstream := ⟨bs ++ beyond, bs.length⟩

def Fails {α : Type} (f : Read α) (bs : List UInt8) : Prop :=
  ∃ msg, ∀ t, f (.over bs t) = .error (.errmsg msg)

/-- An error depends on the message only, and a value on the bytes that are used
up for it. -/
def Reads {α : Type} (f : Read α) : Prop :=
  ∀ bs, Fails f bs ∨ ∃ a used rest, used ++ rest = bs ∧
    ∀ rest' t, f (.over (used ++ rest') t) = .ok (a, .over rest' t)

/-- The same, of what reads up to the end of a message. -/
def ReadsAll {α : Type} (f : Read α) : Prop :=
  ∀ bs, Fails f bs ∨ ∃ a, ∀ t, f (.over bs t) = .ok (a, .over [] t)

section Reads

variable {α β : Type} {f : Read α} {g : α → Read β} {a : α} {bs rest t : List UInt8} {n : Nat}

theorem fails_returnError (msg : String) : Fails (returnError msg : Read α) bs :=
  ⟨msg, fun _ => rfl⟩

theorem reads_returnError (msg : String) : Reads (returnError msg : Read α) :=
  fun _ => .inl (fails_returnError msg)

theorem reads_pure (a : α) : Reads (pure a) :=
  fun bs => .inr ⟨a, [], bs, rfl, fun _ _ => rfl⟩

theorem bind_of_error {s : PbIstream} {e : PbError} (h : f s = .error e) :
    (f >>= g) s = .error e := by
  simp [bind, StateT.bind, Except.bind, h]

theorem bind_of_ok {s s' : PbIstream} (h : f s = .ok (a, s')) : (f >>= g) s = g a s' := by
  simp [bind, StateT.bind, Except.bind, h]

theorem Reads.bind (hf : Reads f) (hg : ∀ a, Reads (g a)) : Reads (f >>= g) := by
  intro bs
  rcases hf bs with ⟨msg, he⟩ | ⟨a, used, rest, rfl, ha⟩
  · exact .inl ⟨msg, fun t => bind_of_error (he t)⟩
  · rcases hg a rest with ⟨msg, he⟩ | ⟨b, used', rest', rfl, hb⟩
    · exact .inl ⟨msg, fun t => (bind_of_ok (ha rest t)).trans (he t)⟩
    · refine .inr ⟨b, used ++ used', rest', List.append_assoc .., fun r t => ?_⟩
      rw [List.append_assoc, bind_of_ok (ha (used' ++ r) t), hb]

theorem Reads.ite {p : Prop} [Decidable p] {f g : Read α} (hf : Reads f) (hg : Reads g) :
    Reads (if p then f else g) := by
  split
  · exact hf
  · exact hg

theorem pbRead_over (bs rest t : List UInt8) :
    pbRead bs.length (.over (bs ++ rest) t) = .ok (bs, .over rest t) := by
  have hleft : ¬ (PbIstream.over (bs ++ rest) t).bytesLeft < bs.length := by simp [PbIstream.over]
  have hlen : ¬ (PbIstream.over (bs ++ rest) t).state.length < bs.length := by
    simp only [PbIstream.over, List.length_append]
    omega
  by_cases h0 : bs.length = 0
  · obtain rfl := List.length_eq_zero_iff.mp h0
    rfl
  · rw [pbRead, if_neg h0, if_neg hleft, if_neg hlen]
    simp [PbIstream.over]

theorem reads_pbRead (n : Nat) : Reads (pbRead n) := by
  intro bs
  by_cases h : n ≤ bs.length
  · have htake : (bs.take n).length = n := List.length_take_of_le h
    refine .inr ⟨bs.take n, bs.take n, bs.drop n, List.take_append_drop n bs, fun r t => ?_⟩
    have hread := pbRead_over (bs.take n) r t
    rwa [htake] at hread
  · refine .inl ⟨"end-of-stream", fun t => ?_⟩
    rw [pbRead, if_neg (by omega), if_pos (by simpa [PbIstream.over] using h)]

theorem pbReadbyte_cons (b : UInt8) : pbReadbyte (.over (b :: bs) t) = .ok (b, .over bs t) := rfl

theorem reads_pbReadbyte : Reads pbReadbyte
  | [] => .inl ⟨"end-of-stream", fun _ => rfl⟩
  | b :: bs => .inr ⟨b, [b], bs, rfl, fun _ _ => rfl⟩

theorem reads_varint32Step (bitpos result byte : Nat) : Reads (varint32Step bitpos result byte) := by
  unfold varint32Step
  refine .ite ?_ (.ite (.ite (reads_returnError _) (reads_pure _)) (reads_pure _))
  exact .ite (reads_returnError _) (reads_pure _)

theorem reads_varint32Loop (k bitpos result : Nat) : Reads (varint32Loop k bitpos result) := by
  induction k generalizing bitpos result with
  | zero => exact reads_returnError _
  | succ k ih =>
    refine reads_pbReadbyte.bind fun byte => (reads_varint32Step _ _ _).bind fun result' => ?_
    exact .ite (ih _ _) (reads_pure _)

theorem reads_varintLoop (k bitpos result : Nat) : Reads (varintLoop k bitpos result) := by
  induction k generalizing bitpos result with
  | zero => exact reads_returnError _
  | succ k ih =>
    refine reads_pbReadbyte.bind fun byte => .ite (reads_returnError _) ?_
    exact .ite (ih _ _) (reads_pure _)

theorem reads_varint32Rest (byte : Nat) : Reads (varint32Rest byte) :=
  .ite (reads_pure _) (reads_varint32Loop _ _ _)

theorem pbDecodeVarint32_eq :
    pbDecodeVarint32 = pbReadbyte >>= fun byte => varint32Rest byte.toNat := by
  funext s
  simp only [pbDecodeVarint32, pbDecodeVarint32Eof, bind, StateT.bind, Except.bind]
  cases pbReadbyte s with
  | error e => rfl
  | ok r => cases h : varint32Rest r.1.toNat r.2 <;> simp [h, Except.mapError]

theorem reads_pbDecodeVarint32 : Reads pbDecodeVarint32 := by
  rw [pbDecodeVarint32_eq]
  exact reads_pbReadbyte.bind fun byte => reads_varint32Rest _

/-- The loop needs no more turns than there are bytes to skip. -/
theorem skipVarintLoop_enough (k : Nat) (bs : List UInt8) (hk : bs.length < k) :
    Fails (skipVarintLoop k) bs ∨ ∃ used rest, used ++ rest = bs ∧
      ∀ k' rest' t, used.length < k' →
        skipVarintLoop k' (.over (used ++ rest') t) = .ok ((), .over rest' t) := by
  induction k generalizing bs with
  | zero => omega
  | succ k ih =>
    cases bs with
    | nil => exact .inl ⟨"end-of-stream", fun t => rfl⟩
    | cons b bs =>
      have hread (r t : List UInt8) : pbRead 1 (.over (b :: r) t) = .ok ([b], .over r t) :=
        pbRead_over [b] r t
      by_cases hb : b.toNat &&& 0x80 = 0
      · refine .inr ⟨[b], bs, rfl, fun k' r t hk' => ?_⟩
        cases k' with
        | zero => omega
        | succ k' =>
          rw [List.singleton_append, skipVarintLoop, bind_of_ok (hread r t)]
          simp only [List.any_cons, List.any_nil, hb, bne_self_eq_false, Bool.or_self,
            Bool.false_eq_true, if_false]
          rfl
      · have hany : ([b].any fun b => b.toNat &&& 0x80 != 0) = true := by simpa using hb
        rcases ih bs (by simpa using hk) with ⟨msg, he⟩ | ⟨used, rest, rfl, hok⟩
        · refine .inl ⟨msg, fun t => ?_⟩
          rw [skipVarintLoop, bind_of_ok (hread bs t), if_pos hany, he]
        · refine .inr ⟨b :: used, rest, rfl, fun k' r t hk' => ?_⟩
          cases k' with
          | zero => omega
          | succ k' =>
            rw [List.cons_append, skipVarintLoop, bind_of_ok (hread _ t), if_pos hany]
            exact hok k' r t (by simpa using hk')

theorem reads_pbSkipVarint : Reads pbSkipVarint := by
  intro bs
  rcases skipVarintLoop_enough (bs.length + 1) bs (Nat.lt_succ_self _) with h | ⟨used, rest, h, hok⟩
  · exact .inl h
  · refine .inr ⟨(), used, rest, h, fun r t => hok _ r t ?_⟩
    simp only [PbIstream.over, List.length_append]
    omega

theorem reads_pbSkipBytes (n : Nat) : Reads (pbSkipBytes n) :=
  (reads_pbRead n).bind fun _ => reads_pure ()

theorem reads_pbSkipField (wireType : Nat) : Reads (pbSkipField wireType) := by
  unfold pbSkipField
  split
  · exact reads_pbSkipVarint
  · exact reads_pbSkipBytes 8
  · exact reads_pbDecodeVarint32.bind fun length => reads_pbSkipBytes length
  · exact reads_pbSkipBytes 4
  · exact reads_returnError _

theorem reads_pbDecodeBool : Reads pbDecodeBool :=
  reads_pbDecodeVarint32.bind fun _ => reads_pure _

theorem reads_pbDecVarint (dataSize : Nat) : Reads (pbDecVarint dataSize) := by
  refine (reads_varintLoop _ _ _).bind fun value => ?_
  split
  · exact reads_returnError _
  · exact .ite (reads_returnError _) (reads_pure _)

theorem reads_pbDecBytes (dataSize : Nat) (dest : PbBytesArray) :
    Reads (pbDecBytes dataSize dest) := by
  refine reads_pbDecodeVarint32.bind fun size => .ite (reads_returnError _) ?_
  exact .ite (reads_returnError _) ((reads_pbRead size).bind fun bytes => reads_pure _)

/-- A substream is the bytes of a string, whatever comes behind them. -/
theorem ReadsAll.fromSubstream (hf : ReadsAll f) : Reads (fromSubstream f) := by
  intro bs
  rcases reads_pbDecodeVarint32 bs with ⟨msg, he⟩ | ⟨size, used, rest, rfl, hsize⟩
  · have hmake (t : List UInt8) : pbMakeStringSubstream (.over bs t) = .error (.errmsg msg) :=
      bind_of_error (he t)
    exact .inl ⟨msg, fun t => by rw [Pb.fromSubstream, hmake]; rfl⟩
  · by_cases hlt : rest.length < size
    · have hmake (t : List UInt8) : pbMakeStringSubstream (.over (used ++ rest) t) =
          .error (.errmsg "parent stream too short") :=
        (bind_of_ok (hsize rest t)).trans (if_pos hlt)
      exact .inl ⟨_, fun t => by rw [Pb.fromSubstream, hmake]; rfl⟩
    · have htake : (rest.take size).length = size := List.length_take_of_le (by omega)
      have hmake (r t : List UInt8) :
          pbMakeStringSubstream (.over (used ++ (rest.take size ++ r)) t) =
            .ok (.over (rest.take size) (r ++ t), ⟨rest.take size ++ r ++ t, r.length⟩) := by
        rw [pbMakeStringSubstream, bind_of_ok (hsize _ t)]
        simp [PbIstream.over, htake]
      have hrest : rest.take size ++ rest.drop size = rest := List.take_append_drop size rest
      rcases hf (rest.take size) with ⟨msg, he⟩ | ⟨a, ha⟩
      · refine .inl ⟨msg, fun t => ?_⟩
        rw [Pb.fromSubstream, ← hrest, hmake]
        change (f _ >>= _) = _
        rw [he]
        rfl
      · refine .inr ⟨a, used ++ rest.take size, rest.drop size, ?_, fun r t => ?_⟩
        · rw [List.append_assoc, hrest]
        · rw [Pb.fromSubstream, List.append_assoc, hmake]
          change (f _ >>= _) = _
          rw [ha]
          rfl

end Reads

end SmakChess.Pb
