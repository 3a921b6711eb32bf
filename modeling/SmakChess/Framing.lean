import SmakChess.Messages

/-! The serial line from the board to the ESP. The board writes its messages
back to back, and each callback on the ESP is taken for one message. -/

namespace SmakChess

/-! The board. -/

/-- `pb_encode` into a buffer of `bufSize` bytes. -/
def msgCreate (pb : Nanopb) (bufSize : Nat) (m : SmakMessage) : Option (List UInt8) :=
  if bufSize < smakMessageSize then none
  else if (pb.encode m).length ≤ bufSize then some (pb.encode m)
  else none

def smakNewGameMsgCreate (pb : Nanopb) (bufSize : Nat) (value : Bool) : Option (List UInt8) :=
  msgCreate pb bufSize (.newGame value)

def smakChessMoveMsgCreate (pb : Nanopb) (bufSize : Nat) (mv : SmakChessMove) :
    Option (List UInt8) :=
  msgCreate pb bufSize (.move mv)

/-- A message that one of the two functions has encoded. -/
inductive Created (pb : Nanopb) : SmakMessage → List UInt8 → Prop
  | newGame (bufSize : Nat) (value : Bool) (bytes : List UInt8)
      (h : smakNewGameMsgCreate pb bufSize value = some bytes) : Created pb (.newGame value) bytes
  | move (bufSize : Nat) (mv : SmakChessMove) (bytes : List UInt8)
      (h : smakChessMoveMsgCreate pb bufSize mv = some bytes) : Created pb (.move mv) bytes

structure Encoded (pb : Nanopb) where
  message : SmakMessage
  bytes : List UInt8
  created : Created pb message bytes

/-! The ESP. -/

/-- `smak_pb_ctx_t`: the bytes of the buffer that were written. -/
structure SmakPbCtx where
  buffer : List UInt8
  fits : buffer.length < smakMessageSize

/-- `handle_rx`: what it puts in `send_queue`, or nothing when it refuses. -/
def handleRx (data : List UInt8) : Option SmakPbCtx :=
  if h : data.length < smakMessageSize then some ⟨data, h⟩ else none

def smakPbMsgDecode (pb : Nanopb) (buf : List UInt8) : Option SmakMessage :=
  if buf.length > smakMessageSize then none else pb.decode buf

/-- The message of one item of `send_queue`. `read_queue_task` passes over an
item that does not decode or holds neither a move nor a new game. -/
def readMessage (pb : Nanopb) (ctx : SmakPbCtx) : Option SmakMessage :=
  (smakPbMsgDecode pb ctx.buffer).filter fun m => m ≠ .unset

structure Delivery (stream : List UInt8) where
  callbacks : List (List UInt8)
  flatten : callbacks.flatten = stream

def received (pb : Nanopb) (callbacks : List (List UInt8)) : List SmakMessage :=
  (callbacks.filterMap handleRx).filterMap (readMessage pb)

section Framing

variable {pb : Nanopb} {m : SmakMessage} {c : List UInt8} {cs : List (List UInt8)}

theorem bytes_of_created {bytes : List UInt8} (h : Created pb m bytes) :
    bytes = pb.encode m ∧ m ≠ .unset := by
  have hcreate : ∃ bufSize, msgCreate pb bufSize m = some bytes := by
    cases h with
    | newGame bufSize value _ h => exact ⟨bufSize, h⟩
    | move bufSize mv _ h => exact ⟨bufSize, h⟩
  obtain ⟨bufSize, hcreate⟩ := hcreate
  refine ⟨?_, by cases h <;> simp⟩
  unfold msgCreate at hcreate
  split_ifs at hcreate
  exact (Option.some.inj hcreate).symm

theorem received_cons : received pb (c :: cs) =
    ((handleRx c).bind (readMessage pb)).toList ++ received pb cs := by
  unfold received
  cases hc : handleRx c with
  | none => simp [hc]
  | some ctx => cases hm : readMessage pb ctx <;> simp [hc, hm]

theorem bind_readMessage_eq_some : (handleRx c).bind (readMessage pb) = some m ↔
    c.length < smakMessageSize ∧ pb.decode c = some m ∧ m ≠ .unset := by
  unfold handleRx
  split_ifs with hlen
  · have hle : ¬ c.length > smakMessageSize := by omega
    simp [readMessage, smakPbMsgDecode, hle, hlen, Option.filter_eq_some_iff]
  · simp [hlen]

theorem encode_le_of_read (h : (handleRx c).bind (readMessage pb) = some m) :
    0 < (pb.encode m).length ∧ (pb.encode m).length ≤ c.length := by
  obtain ⟨-, hdecode, hne⟩ := bind_readMessage_eq_some.mp h
  exact ⟨List.length_pos_of_ne_nil (pb.encode_ne_nil m hne), pb.length_encode_le c m hdecode⟩

theorem read_encode (hne : m ≠ .unset) (hlen : (pb.encode m).length < smakMessageSize) :
    (handleRx (pb.encode m)).bind (readMessage pb) = some m :=
  bind_readMessage_eq_some.mpr ⟨hlen, pb.decode_encode m, hne⟩

theorem read_nil : (handleRx []).bind (readMessage pb) = none := by
  cases h : (handleRx []).bind (readMessage pb) with
  | none => rfl
  | some m =>
    obtain ⟨hpos, hle⟩ := encode_le_of_read h
    rw [List.length_nil] at hle
    omega

theorem received_length_le (cs : List (List UInt8)) :
    ((received pb cs).map fun m => (pb.encode m).length).sum ≤ cs.flatten.length := by
  induction cs with
  | nil => simp [received]
  | cons c cs ih =>
    rw [received_cons, List.flatten_cons, List.length_append]
    cases h : (handleRx c).bind (readMessage pb) with
    | none =>
      simp only [Option.toList_none, List.nil_append]
      omega
    | some m =>
      have hle := (encode_le_of_read h).2
      simp only [Option.toList_some, List.singleton_append, List.map_cons, List.sum_cons]
      omega

theorem flatMap_bytes_length (ms : List (Encoded pb)) :
    ((ms.map Encoded.message).map fun m => (pb.encode m).length).sum =
      (ms.flatMap Encoded.bytes).length := by
  induction ms with
  | nil => rfl
  | cons e ms ih =>
    simp only [List.map_cons, List.sum_cons, List.flatMap_cons, List.length_append, ih,
      (bytes_of_created e.created).1]

/-- Bytes are only read as what was sent when no callback splits or joins
messages: every callback is at least as long as its message, and there are no
bytes to spare. -/
theorem callbacks_of_received (cs : List (List UInt8)) (ms : List (Encoded pb))
    (hcut : cs.flatten = ms.flatMap Encoded.bytes)
    (h : received pb cs = ms.map Encoded.message) :
    cs.filter (· ≠ []) = ms.map Encoded.bytes ∧ ∀ e ∈ ms, e.bytes.length < smakMessageSize := by
  induction cs generalizing ms with
  | nil =>
    obtain rfl : ms = [] := List.map_eq_nil_iff.mp h.symm
    simp
  | cons c cs ih =>
    have hrest : ((received pb cs).map fun m => (pb.encode m).length).sum ≤ cs.flatten.length :=
      received_length_le cs
    rw [received_cons] at h
    rw [List.flatten_cons] at hcut
    cases hc : (handleRx c).bind (readMessage pb) with
    | none =>
      rw [hc, Option.toList_none, List.nil_append] at h
      rw [h, flatMap_bytes_length, ← hcut, List.length_append] at hrest
      obtain rfl : c = [] := List.eq_nil_of_length_eq_zero (by omega)
      obtain ⟨hfilter, hlen⟩ := ih ms hcut h
      exact ⟨by simpa using hfilter, hlen⟩
    | some m =>
      rw [hc, Option.toList_some, List.singleton_append] at h
      cases ms with
      | nil => simp at h
      | cons e ms =>
        obtain ⟨hm, htail⟩ := List.cons.inj h
        obtain ⟨hpos, hle⟩ := encode_le_of_read hc
        have hbytes : e.bytes = pb.encode m := by rw [(bytes_of_created e.created).1, ← hm]
        rw [htail, flatMap_bytes_length] at hrest
        have hsum := congrArg List.length hcut
        simp only [List.flatMap_cons, List.length_append, hbytes] at hsum
        rw [List.flatMap_cons] at hcut
        obtain ⟨hce, hflat⟩ := List.append_inj hcut (by rw [hbytes]; omega)
        obtain ⟨hfilter, hlen⟩ := ih ms hflat htail
        have hne : c ≠ [] := List.ne_nil_of_length_pos (by omega)
        refine ⟨by rw [List.filter_cons_of_pos (by simpa using hne), hfilter, hce, List.map_cons], ?_⟩
        exact List.forall_mem_cons.mpr ⟨hce ▸ (bind_readMessage_eq_some.mp hc).1, hlen⟩

theorem received_filter (cs : List (List UInt8)) :
    received pb cs = received pb (cs.filter (· ≠ [])) := by
  induction cs with
  | nil => rfl
  | cons c cs ih =>
    by_cases hc : c = []
    · rw [hc, received_cons, read_nil, ih]
      simp
    · rw [List.filter_cons_of_pos (by simpa using hc), received_cons, received_cons, ih]

theorem received_bytes (ms : List (Encoded pb))
    (h : ∀ e ∈ ms, e.bytes.length < smakMessageSize) :
    received pb (ms.map Encoded.bytes) = ms.map Encoded.message := by
  induction ms with
  | nil => rfl
  | cons e ms ih =>
    obtain ⟨he, hms⟩ := List.forall_mem_cons.mp h
    obtain ⟨hbytes, hne⟩ := bytes_of_created e.created
    rw [hbytes] at he
    rw [List.map_cons, received_cons, hbytes, read_encode hne he, ih hms]
    rfl

end Framing

/-- The ESP reads what the board sent, exactly when the callbacks that hold any
bytes are the messages one by one and no message fills the buffer. -/
theorem received_iff_callbacks (pb : Nanopb) (ms : List (Encoded pb))
    (d : Delivery (ms.flatMap Encoded.bytes)) :
    received pb d.callbacks = ms.map Encoded.message ↔
      d.callbacks.filter (· ≠ []) = ms.map Encoded.bytes ∧
        ∀ e ∈ ms, e.bytes.length < smakMessageSize := by
  constructor
  · exact callbacks_of_received d.callbacks ms d.flatten
  · rintro ⟨hfilter, hlen⟩
    rw [received_filter, hfilter, received_bytes ms hlen]

def newGameSent : Encoded wireFormat where
  message := .newGame true
  bytes := [18, 2, 8, 1]
  created := .newGame 78 true _ rfl

def joinedCallback : Delivery ([newGameSent, newGameSent].flatMap Encoded.bytes) where
  callbacks := [[18, 2, 8, 1, 18, 2, 8, 1]]
  flatten := rfl

theorem joined_callback_not_received :
    received wireFormat joinedCallback.callbacks ≠
      [newGameSent, newGameSent].map Encoded.message := by
  decide

end SmakChess
