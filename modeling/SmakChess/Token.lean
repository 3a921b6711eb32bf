import SmakChess.Machine
import SmakChess.Conn

/-! The bearer token of `smak_conn.c`: the response of the authentication
server, and the header string that every request carries. -/

namespace SmakChess

open Machine

/-- The text of a C string: no byte of it is the terminator. -/
structure CString where
  bytes : List UInt8
  noNul : (0 : UInt8) ∉ bytes
  deriving DecidableEq

/-- An access outside one of the buffers. -/
inductive AuthFault
  | tokenInfo
  | tokenRespBuf
  | tokenGlobalStr
  deriving DecidableEq, Repr

def tokenInfoSize : Nat := 4096

def tokenGlobalStrSize : Nat := 4096

def CString.append (s t : CString) : CString where
  bytes := s.bytes ++ t.bytes
  noNul h := (List.mem_append.mp h).elim s.noNul t.noNul

def strcat (dst src : CString) : Except AuthFault CString :=
  if dst.bytes.length + src.bytes.length < tokenGlobalStrSize then .ok (dst.append src)
  else .error .tokenGlobalStr

def bearer : CString where
  bytes := [66, 101, 97, 114, 101, 114, 32]
  noNul := by decide

structure TokenInfo where
  buf : List UInt8
  len : Nat

/-- The static data. `tokenRespBuf` is the local of the call in progress, which
the handler reaches as `user_data`; nothing is a null pointer. -/
structure AuthState where
  tokenValid : Bool
  tokenInfo : TokenInfo
  tokenRespBuf : Option (List UInt8)
  respSize : Nat
  tokenGlobalStr : CString

def AuthState.boot : AuthState where
  tokenValid := false
  tokenInfo := { buf := List.replicate tokenInfoSize 0, len := 0 }
  tokenRespBuf := none
  respSize := 0
  tokenGlobalStr := bearer

/-- The events that `http_auth_event_handler` acts on, with the answer of
`esp_http_client_is_chunked_response`. -/
inductive AuthEvent
  | onData (chunked : Bool) (data : List UInt8)
  | onFinish (chunked : Bool)
  | disconnected
  deriving DecidableEq, Repr

def onDataChunked (st : AuthState) (data : List UInt8) : Except AuthFault AuthState :=
  if st.respSize + data.length ≤ tokenInfoSize then
    .ok { st with
      tokenInfo :=
        { buf := memcpy st.tokenInfo.buf st.respSize data
          len := st.respSize + data.length }
      respSize := st.respSize + data.length }
  else .error .tokenInfo

/-- `realloc` leaves the bytes it adds undefined; they are written before they
are read. -/
def realloc (buf : Option (List UInt8)) (size : Nat) : List UInt8 :=
  (buf.getD []).take size ++ List.replicate (size - (buf.getD []).length) 0

def onDataWhole (st : AuthState) (data : List UInt8) : Except AuthFault AuthState :=
  let buf := if data.length > httpBufferSize then
    some (realloc st.tokenRespBuf (httpBufferSize * 2)) else st.tokenRespBuf
  let len := if data.length < httpBufferSize - st.respSize then data.length
    else httpBufferSize - st.respSize
  if len = 0 then .ok { st with tokenRespBuf := buf }
  else match buf with
    | none => .error .tokenRespBuf
    | some b => .ok { st with
        tokenRespBuf := some (memcpy b st.respSize (data.take len))
        respSize := st.respSize + len }

/-- A whole response is copied without its length. -/
def onFinishWhole (st : AuthState) : Except AuthFault AuthState :=
  if st.respSize = 0 then .ok { st with tokenRespBuf := none, tokenValid := true }
  else match st.tokenRespBuf with
    | none => .error .tokenRespBuf
    | some b => .ok { st with
        tokenInfo := { st.tokenInfo with
          buf := memcpy st.tokenInfo.buf 0 (b.take st.respSize) }
        tokenRespBuf := none
        respSize := 0
        tokenValid := true }

def httpAuthEventHandler (st : AuthState) : AuthEvent → Except AuthFault AuthState
  | .onData true data => onDataChunked st data
  | .onData false data => onDataWhole st data
  | .onFinish true => .ok { st with respSize := 0, tokenValid := true }
  | .onFinish false => onFinishWhole st
  | .disconnected =>
    if st.tokenRespBuf.isSome then
      .ok { st with tokenRespBuf := none, respSize := 0, tokenValid := false }
    else .ok { st with respSize := 0 }

/-- One call as the outside decides it: the answer of `calloc`, the events of
`esp_http_client_perform`, and whether the clean-up raises one more. -/
structure TokenRequest where
  allocated : Bool
  performed : List AuthEvent
  disconnects : Bool
  deriving DecidableEq, Repr

/-- The string that `cJSON` finds under `"access_token"` in a text. -/
abbrev TokenReader := List UInt8 → Option CString

def requestToken (readToken : TokenReader) (st : AuthState) (r : TokenRequest) :
    Except AuthFault (AuthState × Option CString) := do
  if !r.allocated then
    return (st, none)
  let st := { st with tokenRespBuf := some (List.replicate (httpBufferSize + 1) 0) }
  let st ← r.performed.foldlM httpAuthEventHandler st
  if st.tokenInfo.len < tokenInfoSize then
    let st := { st with
      tokenInfo := { st.tokenInfo with buf := st.tokenInfo.buf.set st.tokenInfo.len 0 } }
    return (st, readToken (cString st.tokenInfo.buf))
  else throw .tokenInfo

/-- The result is the string at the address returned, and nothing for `NULL`. -/
def smakHttpAuthTokenGet (readToken : TokenReader) (st : AuthState) (r : TokenRequest) :
    Except AuthFault (AuthState × Option CString) := do
  let (st, strVal) ← requestToken readToken st r
  match strVal with
  | none => return (st, none)
  | some strVal =>
    let st := { st with tokenGlobalStr := ← strcat st.tokenGlobalStr strVal }
    let st ← if r.disconnects then httpAuthEventHandler st .disconnected else pure st
    return (st, some st.tokenGlobalStr)

/-! The calls of the token task and of the first request, one after the other. -/

def tokenStep (readToken : TokenReader) (st : AuthState) (r : TokenRequest) :
    Except AuthFault AuthState :=
  (smakHttpAuthTokenGet readToken st r).map Prod.fst

def answer (readToken : TokenReader) (st : AuthState) (r : TokenRequest) : Option CString :=
  match requestToken readToken st r with
  | .ok (_, strVal) => strVal
  | .error _ => none

def tokens (readToken : TokenReader) (rs : List TokenRequest) : List CString :=
  outputs (tokenStep readToken) (fun st r _ => (answer readToken st r).toList) .boot rs

/-- A call that finds a token leaves the header of this token, inside its
buffer, and one that does not leaves the header as it was. -/
def HeaderRight (readToken : TokenReader) (st : AuthState) (r : TokenRequest) : Prop :=
  smakHttpAuthTokenGet readToken st r ≠ .error .tokenGlobalStr ∧
    ∀ st' result, smakHttpAuthTokenGet readToken st r = .ok (st', result) →
      match answer readToken st r with
      | some token => st'.tokenGlobalStr = bearer.append token ∧ result = some st'.tokenGlobalStr
      | none => st'.tokenGlobalStr = st.tokenGlobalStr ∧ result = none

/-! One call. -/

section Call

variable {readToken : TokenReader} {st st' u : AuthState} {r : TokenRequest} {e : AuthEvent}
  {es : List AuthEvent} {rs : List TokenRequest} {strVal : Option CString} {token s t : CString}
  {f : AuthFault}

@[ext] theorem CString.ext (h : s.bytes = t.bytes) : s = t := by
  cases s
  cases t
  simpa using h

theorem append_eq_append : s.append token = t.append token ↔ s = t := by
  constructor
  · intro h
    have hb : s.bytes ++ token.bytes = t.bytes ++ token.bytes := congrArg CString.bytes h
    exact CString.ext (List.append_cancel_right hb)
  · rintro rfl
    rfl

def KeepsHeader (st : AuthState) : Except AuthFault AuthState → Prop
  | .ok st' => st'.tokenGlobalStr = st.tokenGlobalStr
  | .error f => f ≠ .tokenGlobalStr

theorem keepsHeader_handler : KeepsHeader st (httpAuthEventHandler st e) := by
  cases e with
  | onData chunked data =>
    cases chunked with
    | true =>
      simp only [httpAuthEventHandler, onDataChunked]
      split_ifs <;> simp [KeepsHeader]
    | false =>
      simp only [httpAuthEventHandler, onDataWhole]
      generalize (if data.length > httpBufferSize then
        some (realloc st.tokenRespBuf (httpBufferSize * 2)) else st.tokenRespBuf) = buf
      generalize (if data.length < httpBufferSize - st.respSize then data.length
        else httpBufferSize - st.respSize) = len
      split_ifs
      · rfl
      · cases buf <;> simp [KeepsHeader]
  | onFinish chunked =>
    cases chunked with
    | true => rfl
    | false =>
      simp only [httpAuthEventHandler, onFinishWhole]
      split_ifs
      · rfl
      · split <;> simp [KeepsHeader]
  | disconnected =>
    simp only [httpAuthEventHandler]
    split_ifs <;> rfl

theorem keepsHeader_foldlM : KeepsHeader st (es.foldlM httpAuthEventHandler st) := by
  induction es generalizing st with
  | nil => rfl
  | cons e es ih =>
    have he := @keepsHeader_handler st e
    rw [List.foldlM_cons]
    cases hst : httpAuthEventHandler st e with
    | error f =>
      rw [hst] at he
      exact he
    | ok u =>
      rw [hst] at he
      have hes := @ih u
      have hbind : (Except.ok u >>= fun u => es.foldlM httpAuthEventHandler u) =
          es.foldlM httpAuthEventHandler u := rfl
      rw [hbind]
      cases hu : es.foldlM httpAuthEventHandler u with
      | error f =>
        rw [hu] at hes
        exact hes
      | ok w =>
        rw [hu] at hes
        exact Eq.trans hes he

theorem keepsHeader_requestToken :
    KeepsHeader st ((requestToken readToken st r).map Prod.fst) := by
  unfold requestToken
  split_ifs
  · rfl
  · have hk := @keepsHeader_foldlM
      { st with tokenRespBuf := some (List.replicate (httpBufferSize + 1) 0) } r.performed
    cases hu : r.performed.foldlM httpAuthEventHandler
        { st with tokenRespBuf := some (List.replicate (httpBufferSize + 1) 0) } with
    | error f =>
      rw [hu] at hk
      simp only [hu, bind, Except.bind]
      exact hk
    | ok u =>
      rw [hu] at hk
      simp only [hu, bind, Except.bind, pure, Except.pure]
      split_ifs
      · exact hk
      · simp [KeepsHeader, throw, throwThe, MonadExceptOf.throw, Except.map]

theorem smakHttpAuthTokenGet_of_none (h : requestToken readToken st r = .ok (u, none)) :
    smakHttpAuthTokenGet readToken st r = .ok (u, none) := by
  simp only [smakHttpAuthTokenGet, h, bind, Except.bind, pure, Except.pure]

theorem smakHttpAuthTokenGet_of_error (h : requestToken readToken st r = .error f) :
    smakHttpAuthTokenGet readToken st r = .error f := by
  simp only [smakHttpAuthTokenGet, h, bind, Except.bind]

theorem smakHttpAuthTokenGet_of_fits (h : requestToken readToken st r = .ok (u, some token))
    (hfits : u.tokenGlobalStr.bytes.length + token.bytes.length < tokenGlobalStrSize) :
    ∃ w, smakHttpAuthTokenGet readToken st r = .ok (w, some w.tokenGlobalStr) ∧
      w.tokenGlobalStr = u.tokenGlobalStr.append token := by
  simp only [smakHttpAuthTokenGet, h, strcat, if_pos hfits, bind, Except.bind, pure, Except.pure,
    httpAuthEventHandler]
  split_ifs <;> exact ⟨_, rfl, rfl⟩

theorem smakHttpAuthTokenGet_of_overflow (h : requestToken readToken st r = .ok (u, some token))
    (hfits : ¬ u.tokenGlobalStr.bytes.length + token.bytes.length < tokenGlobalStrSize) :
    smakHttpAuthTokenGet readToken st r = .error .tokenGlobalStr := by
  simp only [smakHttpAuthTokenGet, h, strcat, if_neg hfits, bind, Except.bind]

/-- What a call comes to: a fault elsewhere, no token, a token that is appended,
or a token that the buffer has no room for. -/
inductive CallOutcome (readToken : TokenReader) (st : AuthState) (r : TokenRequest) : Prop
  | fault (f : AuthFault) (ha : answer readToken st r = none) (hf : f ≠ .tokenGlobalStr)
      (hget : smakHttpAuthTokenGet readToken st r = .error f)
  | noToken (u : AuthState) (ha : answer readToken st r = none)
      (hu : u.tokenGlobalStr = st.tokenGlobalStr)
      (hget : smakHttpAuthTokenGet readToken st r = .ok (u, none))
  | appended (w : AuthState) (token : CString) (ha : answer readToken st r = some token)
      (hfits : st.tokenGlobalStr.bytes.length + token.bytes.length < tokenGlobalStrSize)
      (hw : w.tokenGlobalStr = st.tokenGlobalStr.append token)
      (hget : smakHttpAuthTokenGet readToken st r = .ok (w, some w.tokenGlobalStr))
  | overflow (token : CString) (ha : answer readToken st r = some token)
      (hfits : ¬ st.tokenGlobalStr.bytes.length + token.bytes.length < tokenGlobalStrSize)
      (hget : smakHttpAuthTokenGet readToken st r = .error .tokenGlobalStr)

theorem call_outcome (readToken : TokenReader) (st : AuthState) (r : TokenRequest) :
    CallOutcome readToken st r := by
  have hk := @keepsHeader_requestToken readToken st r
  cases h : requestToken readToken st r with
  | error f =>
    have ha : answer readToken st r = none := by rw [answer, h]
    rw [h] at hk
    exact .fault f ha hk (smakHttpAuthTokenGet_of_error h)
  | ok v =>
    obtain ⟨u, strVal⟩ := v
    have ha : answer readToken st r = strVal := by rw [answer, h]
    rw [h] at hk
    have hu : u.tokenGlobalStr = st.tokenGlobalStr := hk
    cases strVal with
    | none => exact .noToken u ha hu (smakHttpAuthTokenGet_of_none h)
    | some token =>
      by_cases hfits : u.tokenGlobalStr.bytes.length + token.bytes.length < tokenGlobalStrSize
      · obtain ⟨w, hget, hw⟩ := smakHttpAuthTokenGet_of_fits h hfits
        rw [hu] at hw hfits
        exact .appended w token ha hfits hw hget
      · have hget := smakHttpAuthTokenGet_of_overflow h hfits
        rw [hu] at hfits
        exact .overflow token ha hfits hget

/-- A call gets the header right exactly if it finds no token in a response, or
finds the header without one, and room for the one it brings. -/
theorem headerRight_iff_of_header : HeaderRight readToken st r ↔
    ∀ token, answer readToken st r = some token → st.tokenGlobalStr = bearer ∧
      bearer.bytes.length + token.bytes.length < tokenGlobalStrSize := by
  cases call_outcome readToken st r with
  | fault f ha hf hget => simp [HeaderRight, ha, hget, hf]
  | noToken u ha hu hget => simp [HeaderRight, ha, hget, hu]
  | appended w token ha hfits hw hget =>
    constructor
    · rintro ⟨-, hright⟩ t ht
      obtain rfl : token = t := Option.some.inj (ha.symm.trans ht)
      have hb := hright w _ hget
      rw [ha] at hb
      have hbearer := append_eq_append.mp (hw.symm.trans hb.1)
      exact ⟨hbearer, hbearer ▸ hfits⟩
    · intro hb
      refine ⟨by simp [hget], fun st' result hst => ?_⟩
      obtain ⟨rfl, rfl⟩ : w = st' ∧ some w.tokenGlobalStr = result := by simpa [hget] using hst
      rw [ha]
      exact ⟨by rw [hw, (hb token ha).1], rfl⟩
  | overflow token ha hfits hget =>
    refine iff_of_false (fun h => h.1 hget) fun hb => ?_
    obtain ⟨hbearer, hroom⟩ := hb token ha
    exact hfits (hbearer ▸ hroom)

theorem header_of_tokenStep (h : tokenStep readToken st r = .ok st') :
    st'.tokenGlobalStr.bytes = st.tokenGlobalStr.bytes ++
      (answer readToken st r).toList.flatMap CString.bytes := by
  unfold tokenStep at h
  cases call_outcome readToken st r with
  | fault f ha hf hget =>
    rw [hget] at h
    cases h
  | noToken u ha hu hget =>
    rw [hget] at h
    cases h
    simp [ha, hu]
  | appended w token ha hfits hw hget =>
    rw [hget] at h
    cases h
    simp [ha, hw, CString.append]
  | overflow token ha hfits hget =>
    rw [hget] at h
    cases h

end Call

/-! All calls. -/

section Calls

variable {readToken : TokenReader} {st : AuthState} {r : TokenRequest} {rs p : List TokenRequest}

theorem tokens_concat {st' : AuthState} (h : run (tokenStep readToken) .boot p = .ok st)
    (hs : tokenStep readToken st r = .ok st') :
    tokens readToken (p ++ [r]) = tokens readToken p ++ (answer readToken st r).toList :=
  outputs_concat h hs

/-- Every token that has been found is still in the header. -/
theorem header_of_run (h : run (tokenStep readToken) .boot p = .ok st) :
    st.tokenGlobalStr.bytes = bearer.bytes ++ (tokens readToken p).flatMap CString.bytes := by
  refine Always.of_step (I := fun p st => st.tokenGlobalStr.bytes =
    bearer.bytes ++ (tokens readToken p).flatMap CString.bytes) rfl ?_ p st (List.prefix_refl p) h
  intro q r t t' _ ht hi hs
  rw [header_of_tokenStep hs, hi, tokens_concat ht hs, List.flatMap_append, List.append_assoc]

theorem header_eq_bearer_iff (h : run (tokenStep readToken) .boot p = .ok st) :
    st.tokenGlobalStr = bearer ↔ ∀ u ∈ tokens readToken p, u.bytes = [] := by
  have hb := header_of_run h
  rw [← List.flatMap_eq_nil_iff]
  constructor
  · intro hst
    rw [hst] at hb
    simpa using hb.symm
  · intro hnil
    apply CString.ext
    rw [hb, hnil, List.append_nil]

/-- The header is right after every call, exactly when no call finds a token
once a token that is not empty has been found, and every token has room. -/
theorem headerRight_iff (readToken : TokenReader) (rs : List TokenRequest) :
    (∀ p r st, p ++ [r] <+: rs → run (tokenStep readToken) .boot p = .ok st →
        HeaderRight readToken st r) ↔
      ∀ p r st token, p ++ [r] <+: rs → run (tokenStep readToken) .boot p = .ok st →
        answer readToken st r = some token →
          (∀ u ∈ tokens readToken p, u.bytes = []) ∧
            bearer.bytes.length + token.bytes.length < tokenGlobalStrSize := by
  constructor
  · intro h p r st token hp hr ht
    obtain ⟨hb, hroom⟩ := headerRight_iff_of_header.mp (h p r st hp hr) token ht
    exact ⟨(header_eq_bearer_iff hr).mp hb, hroom⟩
  · intro h p r st hp hr
    rw [headerRight_iff_of_header]
    intro token ht
    obtain ⟨hb, hroom⟩ := h p r st token hp hr ht
    exact ⟨(header_eq_bearer_iff hr).mpr hb, hroom⟩

end Calls

/-! A chunked response that arrives in one piece. -/

section Chunked

variable {st : AuthState} {data buf : List UInt8} {token : CString}

def chunked (data : List UInt8) : TokenRequest where
  allocated := true
  performed := [.onData true data, .onFinish true]
  disconnects := true

theorem cString_terminated (h0 : (0 : UInt8) ∉ data) (hlen : data.length < buf.length) :
    cString ((memcpy buf 0 data).set data.length 0) = data := by
  obtain ⟨b, rest, hrest⟩ : ∃ b rest, buf.drop data.length = b :: rest :=
    List.exists_cons_of_ne_nil (by simp; omega)
  have hset : (memcpy buf 0 data).set data.length 0 = data ++ 0 :: rest := by
    simp [memcpy, hrest]
  rw [hset, cString, List.takeWhile_append_of_pos]
  · simp
  · intro c hc
    have hne : c ≠ 0 := fun h => h0 (h ▸ hc)
    simpa using hne

structure Idle (st : AuthState) : Prop where
  respSize : st.respSize = 0
  length_buf : st.tokenInfo.buf.length = tokenInfoSize

def collected (st : AuthState) (data : List UInt8) : AuthState :=
  { st with
    tokenValid := true
    tokenInfo := { buf := (memcpy st.tokenInfo.buf 0 data).set data.length 0, len := data.length }
    tokenRespBuf := some (List.replicate (httpBufferSize + 1) 0)
    respSize := 0 }

theorem requestToken_chunked (readToken : TokenReader) (hi : Idle st) (h0 : (0 : UInt8) ∉ data)
    (hlen : data.length < tokenInfoSize) :
    requestToken readToken st (chunked data) = .ok (collected st data, readToken data) := by
  have hbuf : data.length < st.tokenInfo.buf.length := by rw [hi.length_buf]; exact hlen
  have hread := cString_terminated h0 hbuf
  have hle : data.length ≤ tokenInfoSize := Nat.le_of_lt hlen
  simp only [requestToken, chunked, Bool.not_true, Bool.false_eq_true, if_false, List.foldlM_cons,
    List.foldlM_nil, httpAuthEventHandler, onDataChunked, hi.respSize, Nat.zero_add, if_pos hle,
    if_pos hlen, bind, Except.bind, pure, Except.pure, hread]
  rfl

theorem idle_collected (hi : Idle st) (hlen : data.length < tokenInfoSize) :
    Idle (collected st data) where
  respSize := rfl
  length_buf := by
    have hbuf := hi.length_buf
    simp only [collected, memcpy, List.length_set, List.length_append, List.length_take,
      List.length_drop]
    omega

/-- A chunked response in one piece is read whole, and the next can come. -/
theorem tokenStep_chunked {readToken : TokenReader} (hi : Idle st) (h0 : (0 : UInt8) ∉ data)
    (hlen : data.length < tokenInfoSize) (ht : readToken data = some token)
    (hroom : st.tokenGlobalStr.bytes.length + token.bytes.length < tokenGlobalStrSize) :
    ∃ w, tokenStep readToken st (chunked data) = .ok w ∧ Idle w ∧
      answer readToken st (chunked data) = some token := by
  have hreq := requestToken_chunked readToken hi h0 hlen
  have hidle := idle_collected hi hlen
  rw [ht] at hreq
  have hstr : strcat (collected st data).tokenGlobalStr token = .ok (st.tokenGlobalStr.append token) :=
    if_pos hroom
  refine ⟨{ collected st data with
    tokenRespBuf := none
    tokenValid := false
    tokenGlobalStr := st.tokenGlobalStr.append token }, ?_, ?_, ?_⟩
  · simp only [tokenStep, smakHttpAuthTokenGet, hreq, hstr, bind, Except.bind, pure, Except.pure]
    rfl
  · exact ⟨rfl, hidle.length_buf⟩
  · rw [answer, hreq]

end Chunked

def readAccessToken : TokenReader
  | 123 :: 34 :: 97 :: 99 :: 99 :: 101 :: 115 :: 115 :: 95 :: 116 :: 111 :: 107 :: 101 :: 110 ::
      34 :: 58 :: 34 :: text =>
    let (token, rest) := text.span fun c => c ≠ 34
    if h : rest = [34, 125] ∧ (0 : UInt8) ∉ token then some ⟨token, h.2⟩ else none
  | _ => none

def tokenResponse (c : UInt8) : List UInt8 :=
  [123, 34, 97, 99, 99, 101, 115, 115, 95, 116, 111, 107, 101, 110, 34, 58, 34, c, 34, 125]

/-- The second of two tokens comes after the first. -/
theorem refreshed_header_not_right :
    ∃ st, run (tokenStep readAccessToken) .boot [chunked (tokenResponse 97)] = .ok st ∧
      ¬ HeaderRight readAccessToken st (chunked (tokenResponse 98)) := by
  have hboot : Idle .boot := ⟨rfl, List.length_replicate⟩
  have hfirst : readAccessToken (tokenResponse 97) = some ⟨[97], by decide⟩ := by decide
  obtain ⟨st, hst, hidle, ha⟩ := tokenStep_chunked hboot (by decide) (by decide) hfirst (by decide)
  have hb := header_of_tokenStep hst
  refine ⟨st, run_cons_of_ok hst, ?_⟩
  rw [headerRight_iff_of_header]
  intro h
  have h0 : (0 : UInt8) ∉ tokenResponse 98 := by decide
  have hreq := requestToken_chunked readAccessToken hidle h0 (by decide)
  have hread : readAccessToken (tokenResponse 98) = some ⟨[98], by decide⟩ := by decide
  have hanswer : answer readAccessToken st (chunked (tokenResponse 98)) =
      some ⟨[98], by decide⟩ := by
    rw [answer, hreq]
    exact hread
  rw [(h _ hanswer).1, ha] at hb
  exact absurd hb (by decide)

end SmakChess
