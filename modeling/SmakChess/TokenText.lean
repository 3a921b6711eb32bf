import SmakChess.PostBuffer
import SmakChess.Token
import Mathlib.Data.List.TakeWhile

/-! The text of a token response, for both ways in which it arrives and in any
number of pieces. -/

namespace SmakChess

open Machine

/-- The server may close the connection after its response. -/
structure TokenResponse where
  chunked : Bool
  pieces : List (List UInt8)
  closes : Bool
  deriving DecidableEq, Repr

namespace TokenResponse

def body (r : TokenResponse) : List UInt8 := r.pieces.flatten

def ending (r : TokenResponse) : List AuthEvent :=
  .onFinish r.chunked :: if r.closes then [.disconnected] else []

def events (r : TokenResponse) : List AuthEvent :=
  r.pieces.map (AuthEvent.onData r.chunked) ++ r.ending

end TokenResponse

/-- What the handler writes for an event lies inside the buffer it writes to. -/
def AuthWritesInside (st : AuthState) : AuthEvent → Prop
  | .onData true data => st.respSize + data.length ≤ st.tokenInfo.buf.length
  | .onData false data => ∀ b,
      (if data.length > httpBufferSize then
        some (realloc st.tokenRespBuf (httpBufferSize * 2)) else st.tokenRespBuf) = some b →
      st.respSize + min data.length (httpBufferSize - st.respSize) ≤ b.length
  | .onFinish false => st.respSize ≤ st.tokenInfo.buf.length ∧
      ∀ b, st.tokenRespBuf = some b → st.respSize ≤ b.length
  | _ => True

def AuthSafe (st : AuthState) : List AuthEvent → Prop
  | [] => True
  | e :: es => AuthWritesInside st e ∧
      ∃ u, httpAuthEventHandler st e = .ok u ∧ AuthSafe u es

/-- A call's state before the first event. -/
def prepared (st : AuthState) : AuthState :=
  { st with tokenRespBuf := some (List.replicate (httpBufferSize + 1) 0) }

/-- The text that `cJSON_Parse` is given, when the terminator is written inside
the buffer. -/
def textGiven (st : AuthState) : Option (List UInt8) :=
  if st.tokenInfo.len < tokenInfoSize then
    some (cString (st.tokenInfo.buf.set st.tokenInfo.len 0))
  else none

/-- No write of the handler is outside its buffer, and a body that leaves room for
the terminator is the text that is parsed. -/
def GivesBody (st : AuthState) (r : TokenResponse) : Prop :=
  AuthSafe (prepared st) r.events ∧ (r.body.length < tokenInfoSize →
    ∃ u, r.events.foldlM httpAuthEventHandler (prepared st) = .ok u ∧
      textGiven u = some r.body)

/-- A chunked response is to fit, after what an earlier one has left. -/
def ChunkedFits (st : AuthState) (r : TokenResponse) : Prop :=
  st.respSize + r.body.length ≤ tokenInfoSize ∧ (r.body.length < tokenInfoSize →
    (0 : UInt8) ∉ r.body ∧
    if r.pieces = [] then st.tokenInfo.len = 0 ∨ st.tokenInfo.buf[0]? = some 0
    else st.respSize + r.body.length < tokenInfoSize ∧ (st.respSize = 0 ∨
      (r.body.length < st.respSize ∧ r.body ++ [0] <+: st.tokenInfo.buf)))

/-- A whole response is cut where the last chunked one ended, so it is to end
there, or before it with a terminator in its place. -/
def WholeFits (st : AuthState) (r : TokenResponse) : Prop :=
  r.body.length < tokenInfoSize → (0 : UInt8) ∉ r.body ∧
    if st.respSize = 0 then
      st.tokenInfo.len = r.body.length ∨
        (r.body.length < st.tokenInfo.len ∧ st.tokenInfo.buf[r.body.length]? = some 0)
    else r.body = []

def Fits (st : AuthState) (r : TokenResponse) : Prop :=
  if r.chunked then ChunkedFits st r else WholeFits st r

section Texts

variable {buf a t : List UInt8} {i len : Nat}

theorem cString_eq_iff (h : t.length < buf.length) :
    cString buf = t ↔ (0 : UInt8) ∉ t ∧ t ++ [0] <+: buf := by
  constructor
  · rintro rfl
    have hnul : (0 : UInt8) ∉ cString buf := fun hmem => by
      simpa using List.mem_takeWhile_imp hmem
    have hsplit : cString buf ++ buf.dropWhile (· ≠ 0) = buf := List.takeWhile_append_dropWhile
    refine ⟨hnul, ?_⟩
    cases hrest : buf.dropWhile (· ≠ 0) with
    | nil =>
      rw [hrest, List.append_nil] at hsplit
      rw [hsplit] at h
      exact absurd h (Nat.lt_irrefl _)
    | cons c rest =>
      have hc : c = 0 := by
        have hhead := List.head?_dropWhile_not (fun c : UInt8 => decide (c ≠ 0)) buf
        rw [hrest] at hhead
        simpa using hhead
      rw [hrest, hc] at hsplit
      exact ⟨rest, by rw [List.append_assoc]; exact hsplit⟩
  · rintro ⟨h0, rest, hrest⟩
    rw [← hrest, List.append_assoc, cString, List.takeWhile_append_of_pos]
    · simp
    · intro c hc
      have hne : c ≠ 0 := fun he => h0 (he ▸ hc)
      simpa using hne

theorem prefix_set_start_iff (h0 : (0 : UInt8) ∉ a) (hroom : a.length < buf.length) :
    a ++ [0] <+: (memcpy buf 0 a).set len 0 ↔
      len = a.length ∨ (a.length < len ∧ buf[a.length]? = some 0) := by
  obtain ⟨c, rest, hrest⟩ : ∃ c rest, buf.drop a.length = c :: rest :=
    List.exists_cons_of_ne_nil (by simp; omega)
  have hc : buf[a.length]? = some c := by
    have hhead := congrArg List.head? hrest
    rwa [List.head?_drop] at hhead
  have hbuf : memcpy buf 0 a = a ++ c :: rest := by simp [memcpy, hrest]
  rw [hbuf, hc]
  rcases Nat.lt_trichotomy len a.length with hlt | heq | hgt
  · refine iff_of_false (fun hpre => ?_) (by omega)
    obtain ⟨more, hmore⟩ := hpre
    have hread := congrArg (fun buf => buf[len]?) hmore
    simp only [List.append_assoc, List.getElem?_append_left hlt] at hread
    rw [List.getElem?_set_self (by simp; omega)] at hread
    exact h0 (List.mem_of_getElem? hread)
  · subst heq
    refine iff_of_true ⟨rest, ?_⟩ (.inl rfl)
    simp
  · obtain ⟨k, rfl⟩ : ∃ k, len = a.length + (k + 1) := ⟨len - a.length - 1, by omega⟩
    have hset : (a ++ c :: rest).set (a.length + (k + 1)) 0 = a ++ c :: rest.set k 0 := by
      rw [List.set_append_right _ _ (Nat.le_add_right _ _), Nat.add_sub_cancel_left, List.set_cons_succ]
    rw [hset, List.prefix_append_right_inj, List.cons_prefix_cons]
    constructor
    · rintro ⟨rfl, -⟩
      exact .inr ⟨hgt, rfl⟩
    · intro h
      have hzero := (h.resolve_left (by omega)).2
      exact ⟨(Option.some.inj hzero).symm, List.nil_prefix⟩

end Texts

section Events

variable {st u : AuthState} {e : AuthEvent} {es p q : List AuthEvent}
  {pieces : List (List UInt8)} {data b : List UInt8} {r : TokenResponse}

theorem foldlM_handler_cons (h : httpAuthEventHandler st e = .ok u) :
    (e :: es).foldlM httpAuthEventHandler st = es.foldlM httpAuthEventHandler u := by
  rw [List.foldlM_cons, h]
  rfl

theorem foldlM_handler_append (h : p.foldlM httpAuthEventHandler st = .ok u) :
    (p ++ q).foldlM httpAuthEventHandler st = q.foldlM httpAuthEventHandler u := by
  rw [List.foldlM_append, h]
  rfl

theorem authSafe_cons (hw : AuthWritesInside st e) (h : httpAuthEventHandler st e = .ok u) :
    AuthSafe st (e :: es) ↔ AuthSafe u es := by
  constructor
  · rintro ⟨-, v, hv, hes⟩
    rw [h] at hv
    obtain rfl := Except.ok.inj hv
    exact hes
  · exact fun hes => ⟨hw, u, h, hes⟩

theorem authSafe_append (h : p.foldlM httpAuthEventHandler st = .ok u) :
    AuthSafe st (p ++ q) ↔ AuthSafe st p ∧ AuthSafe u q := by
  induction p generalizing st with
  | nil =>
    obtain rfl : st = u := Except.ok.inj h
    exact ⟨fun hq => ⟨trivial, hq⟩, fun hq => hq.2⟩
  | cons e p ih =>
    cases he : httpAuthEventHandler st e with
    | error f =>
      rw [List.foldlM_cons, he] at h
      cases h
    | ok v =>
      rw [foldlM_handler_cons he] at h
      simp only [List.cons_append, AuthSafe, he, Except.ok.injEq, exists_eq_left', ih h, and_assoc]

theorem AuthSafe.of_append (h : AuthSafe st (p ++ q)) : AuthSafe st p := by
  induction p generalizing st with
  | nil => trivial
  | cons e p ih =>
    obtain ⟨hw, v, hv, hes⟩ := h
    exact ⟨hw, v, hv, ih hes⟩

/-! A chunked response. -/

def afterChunks (st : AuthState) (pieces : List (List UInt8)) : AuthState :=
  { st with
    tokenInfo :=
      { buf := memcpy st.tokenInfo.buf st.respSize pieces.flatten
        len := if pieces = [] then st.tokenInfo.len else st.respSize + pieces.flatten.length }
    respSize := st.respSize + pieces.flatten.length }

theorem handler_chunk (h : st.respSize + data.length ≤ tokenInfoSize) :
    httpAuthEventHandler st (.onData true data) = .ok (afterChunks st [data]) := by
  rw [httpAuthEventHandler, onDataChunked, if_pos h]
  simp [afterChunks]

theorem afterChunks_cons (h : st.respSize + data.length ≤ st.tokenInfo.buf.length) :
    afterChunks (afterChunks st [data]) pieces = afterChunks st (data :: pieces) := by
  have hbuf : memcpy (memcpy st.tokenInfo.buf st.respSize data) (st.respSize + data.length)
      pieces.flatten = memcpy st.tokenInfo.buf st.respSize (data ++ pieces.flatten) :=
    memcpy_memcpy h
  cases pieces with
  | nil => simp [afterChunks, memcpy]
  | cons d ds =>
    rw [List.flatten_cons] at hbuf
    simp [afterChunks, hbuf, Nat.add_assoc]

theorem length_buf_afterChunks (hlen : st.tokenInfo.buf.length = tokenInfoSize)
    (h : st.respSize + data.length ≤ tokenInfoSize) :
    (afterChunks st [data]).tokenInfo.buf.length = tokenInfoSize := by
  have hmem : (memcpy st.tokenInfo.buf st.respSize data).length = st.tokenInfo.buf.length :=
    length_memcpy (by omega)
  simpa [afterChunks] using hmem.trans hlen

theorem foldlM_chunks (hlen : st.tokenInfo.buf.length = tokenInfoSize)
    (hfit : st.respSize + pieces.flatten.length ≤ tokenInfoSize) :
    (pieces.map (AuthEvent.onData true)).foldlM httpAuthEventHandler st =
      .ok (afterChunks st pieces) := by
  induction pieces generalizing st with
  | nil =>
    have hnone : afterChunks st [] = st := by simp [afterChunks, memcpy]
    rw [hnone]
    rfl
  | cons data pieces ih =>
    rw [List.flatten_cons, List.length_append] at hfit
    have hdata : st.respSize + data.length ≤ tokenInfoSize := by omega
    have hsize : (afterChunks st [data]).respSize = st.respSize + data.length := by
      simp [afterChunks]
    rw [List.map_cons, foldlM_handler_cons (handler_chunk hdata),
      ih (length_buf_afterChunks hlen hdata) (by omega), afterChunks_cons (by omega)]

/-- Nothing checks the length of a chunk, so a response is safe when it fits. -/
theorem authSafe_chunks_iff (hlen : st.tokenInfo.buf.length = tokenInfoSize)
    (hsize : st.respSize ≤ tokenInfoSize) :
    AuthSafe st (pieces.map (AuthEvent.onData true)) ↔
      st.respSize + pieces.flatten.length ≤ tokenInfoSize := by
  induction pieces generalizing st with
  | nil => exact iff_of_true trivial hsize
  | cons data pieces ih =>
    rw [List.map_cons, List.flatten_cons, List.length_append]
    by_cases hdata : st.respSize + data.length ≤ tokenInfoSize
    · have hafter : (afterChunks st [data]).respSize = st.respSize + data.length := by
        simp [afterChunks]
      have hinside : AuthWritesInside st (.onData true data) := hdata.trans hlen.ge
      rw [authSafe_cons hinside (handler_chunk hdata),
        ih (length_buf_afterChunks hlen hdata) (by omega), hafter, Nat.add_assoc]
    · refine iff_of_false (fun h => hdata ?_) (by omega)
      exact hlen ▸ h.1

/-! A whole response, bufferedBody in the user buffer first. -/

theorem take_realloc (h : b.length ≤ httpBufferSize * 2) {k : Nat} (hk : k ≤ b.length) :
    httpBufferSize * 2 ≤ (realloc (some b) (httpBufferSize * 2)).length ∧
      (realloc (some b) (httpBufferSize * 2)).take k = b.take k := by
  have hall : b.take (httpBufferSize * 2) = b := List.take_of_length_le h
  rw [realloc, Option.getD_some, hall, List.length_append, List.length_replicate,
    List.take_append_of_le_length hk]
  exact ⟨by omega, rfl⟩

/-- What a piece of a whole response does, `b` being the user buffer. -/
structure Collects (st u : AuthState) (b data : List UInt8) : Prop where
  tokenInfo : u.tokenInfo = st.tokenInfo
  respSize : u.respSize = st.respSize + min data.length (httpBufferSize - st.respSize)
  buffer : ∃ b', u.tokenRespBuf = some b' ∧ httpBufferSize < b'.length ∧
    b'.length ≤ httpBufferSize * 2 ∧
    b'.take u.respSize = b.take st.respSize ++ data.take (httpBufferSize - st.respSize)

theorem handler_whole (hsize : st.respSize ≤ httpBufferSize) (hb : st.tokenRespBuf = some b)
    (hmin : httpBufferSize < b.length) (hmax : b.length ≤ httpBufferSize * 2) :
    AuthWritesInside st (.onData false data) ∧
      ∃ u, httpAuthEventHandler st (.onData false data) = .ok u ∧ Collects st u b data := by
  obtain ⟨c, hc, hcmin, hcmax, htake⟩ : ∃ c, (if data.length > httpBufferSize then
      some (realloc st.tokenRespBuf (httpBufferSize * 2)) else st.tokenRespBuf) = some c ∧
      httpBufferSize < c.length ∧ c.length ≤ httpBufferSize * 2 ∧
      c.take st.respSize = b.take st.respSize := by
    split
    · rw [hb]
      obtain ⟨hlen, htake⟩ := take_realloc hmax (hsize.trans hmin.le)
      refine ⟨_, rfl, Nat.lt_of_lt_of_le (by decide) hlen, ?_, htake⟩
      simp only [realloc, Option.getD_some, List.length_append, List.length_take,
        List.length_replicate]
      omega
    · exact ⟨b, hb, hmin, hmax, rfl⟩
  have hlen : (if data.length < httpBufferSize - st.respSize then data.length
      else httpBufferSize - st.respSize) = min data.length (httpBufferSize - st.respSize) := by
    split <;> omega
  have hcut : data.take (min data.length (httpBufferSize - st.respSize)) =
      data.take (httpBufferSize - st.respSize) := by
    rw [List.take_eq_take_iff]
    omega
  constructor
  · intro d hd
    rw [hc] at hd
    obtain rfl := Option.some.inj hd
    omega
  simp only [httpAuthEventHandler, onDataWhole, hc, hlen, hcut]
  by_cases hzero : min data.length (httpBufferSize - st.respSize) = 0
  · refine ⟨_, if_pos hzero, rfl, (by simp only [hzero]; rfl), c, rfl, hcmin, hcmax, ?_⟩
    rw [← hcut, hzero, List.take_zero, List.append_nil]
    exact htake
  · refine ⟨_, if_neg hzero, rfl, rfl, _, rfl, ?_, ?_, ?_⟩
    · rw [length_memcpy (by simp; omega)]
      exact hcmin
    · rw [length_memcpy (by simp; omega)]
      exact hcmax
    · simp only [memcpy, htake]
      rw [List.take_append_of_le_length (by simp; omega), List.take_of_length_le (by simp; omega)]

theorem foldlM_whole (hsize : st.respSize ≤ httpBufferSize) (hb : st.tokenRespBuf = some b)
    (hmin : httpBufferSize < b.length) (hmax : b.length ≤ httpBufferSize * 2) :
    AuthSafe st (pieces.map (AuthEvent.onData false)) ∧
      ∃ u, (pieces.map (AuthEvent.onData false)).foldlM httpAuthEventHandler st = .ok u ∧
        Collects st u b pieces.flatten := by
  induction pieces generalizing st b with
  | nil => exact ⟨trivial, st, rfl, rfl, by simp, b, hb, hmin, hmax, by simp⟩
  | cons data pieces ih =>
    obtain ⟨hinside, u, hu, hinfo, hrsize, c, hc, hcmin, hcmax, htake⟩ :=
      @handler_whole st data b hsize hb hmin hmax
    obtain ⟨hsafe, w, hw, hinfo', hrsize', c', hc', hcmin', hcmax', htake'⟩ :=
      ih (by omega) hc hcmin hcmax
    refine ⟨(authSafe_cons hinside hu).mpr hsafe, w, (foldlM_handler_cons hu).trans hw,
      hinfo'.trans hinfo, ?_, c', hc', hcmin', hcmax', ?_⟩
    · rw [hrsize', hrsize, List.flatten_cons, List.length_append]
      omega
    · rw [htake', htake, hrsize, List.flatten_cons, List.take_append, List.append_assoc]
      congr 3
      omega

/-! The end of a response. -/

theorem handler_closing (closes : Bool) (u : AuthState) :
    AuthSafe u (if closes then [.disconnected] else []) ∧
      ∃ w, (if closes then [AuthEvent.disconnected] else []).foldlM httpAuthEventHandler u = .ok w ∧
        w.tokenInfo = u.tokenInfo := by
  cases closes with
  | false => exact ⟨trivial, u, rfl, rfl⟩
  | true =>
    obtain ⟨w, hw, hinfo⟩ : ∃ w, httpAuthEventHandler u .disconnected = .ok w ∧
        w.tokenInfo = u.tokenInfo := by
      simp only [httpAuthEventHandler]
      split <;> exact ⟨_, rfl, rfl⟩
    exact ⟨⟨trivial, w, hw, trivial⟩, w, foldlM_handler_cons hw, hinfo⟩

/-- The parts of a response one after the other, `i` being what is parsed then. -/
theorem events_of_parts {i : TokenInfo} {v : AuthState}
    (hsafe : AuthSafe st (r.pieces.map (AuthEvent.onData r.chunked)))
    (hdata : (r.pieces.map (AuthEvent.onData r.chunked)).foldlM httpAuthEventHandler st = .ok u)
    (hinside : AuthWritesInside u (.onFinish r.chunked))
    (hfinish : httpAuthEventHandler u (.onFinish r.chunked) = .ok v) (hi : v.tokenInfo = i) :
    AuthSafe st r.events ∧
      ∃ w, r.events.foldlM httpAuthEventHandler st = .ok w ∧ w.tokenInfo = i := by
  obtain ⟨hclosing, w, hw, hinfo⟩ := handler_closing r.closes v
  refine ⟨(authSafe_append hdata).mpr ⟨hsafe, (authSafe_cons hinside hfinish).mpr hclosing⟩, w, ?_,
    hinfo.trans hi⟩
  rw [TokenResponse.events, foldlM_handler_append hdata]
  exact (foldlM_handler_cons hfinish).trans hw

theorem textGiven_eq_iff {body : List UInt8} (hlen : st.tokenInfo.buf.length = tokenInfoSize)
    (hbody : body.length < tokenInfoSize) :
    textGiven st = some body ↔ st.tokenInfo.len < tokenInfoSize ∧ (0 : UInt8) ∉ body ∧
      body ++ [0] <+: st.tokenInfo.buf.set st.tokenInfo.len 0 := by
  have hroom : body.length < (st.tokenInfo.buf.set st.tokenInfo.len 0).length := by
    rw [List.length_set, hlen]
    exact hbody
  rw [textGiven]
  split
  · rename_i hterm
    rw [Option.some.injEq, cString_eq_iff hroom]
    exact (and_iff_right hterm).symm
  · rename_i hterm
    exact iff_of_false (by simp) fun h => hterm h.1

/-! The states between two calls. -/

structure AuthState.InRange (st : AuthState) : Prop where
  length_buf : st.tokenInfo.buf.length = tokenInfoSize
  len : st.tokenInfo.len < tokenInfoSize
  respSize : st.respSize ≤ httpBufferSize

theorem givesBody_iff_of_events {i : TokenInfo} (hlen : i.buf.length = tokenInfoSize)
    (h : AuthSafe (prepared st) r.events ∧
      ∃ w, r.events.foldlM httpAuthEventHandler (prepared st) = .ok w ∧ w.tokenInfo = i) :
    GivesBody st r ↔ (r.body.length < tokenInfoSize → i.len < tokenInfoSize ∧
      (0 : UInt8) ∉ r.body ∧ r.body ++ [0] <+: i.buf.set i.len 0) := by
  obtain ⟨hall, w, hw, rfl⟩ := h
  rw [GivesBody, and_iff_right hall]
  refine imp_congr_right fun hbody => ?_
  simp only [hw, Except.ok.injEq, exists_eq_left']
  exact textGiven_eq_iff hlen hbody

theorem events_chunked (h : st.InRange) (hr : r.chunked = true)
    (hfit : st.respSize + r.body.length ≤ tokenInfoSize) :
    AuthSafe (prepared st) r.events ∧
      ∃ w, r.events.foldlM httpAuthEventHandler (prepared st) = .ok w ∧
        w.tokenInfo = (afterChunks st r.pieces).tokenInfo := by
  have hlen : (prepared st).tokenInfo.buf.length = tokenInfoSize := h.length_buf
  have hsafe : AuthSafe (prepared st) (r.pieces.map (AuthEvent.onData r.chunked)) := by
    rw [hr]
    exact (authSafe_chunks_iff hlen h.respSize).mpr hfit
  have hdata := foldlM_chunks hlen hfit
  rw [← hr] at hdata
  have hfinish : httpAuthEventHandler (afterChunks (prepared st) r.pieces) (.onFinish r.chunked) =
      .ok { afterChunks (prepared st) r.pieces with respSize := 0, tokenValid := true } := by
    rw [hr]
    rfl
  exact events_of_parts hsafe hdata (by rw [hr]; trivial) hfinish rfl

/-- Without an event the buffer and its length are those of an earlier response. -/
theorem prefix_nothing_iff (h : st.InRange) :
    [] ++ [0] <+: (memcpy st.tokenInfo.buf st.respSize []).set st.tokenInfo.len 0 ↔
      st.tokenInfo.len = 0 ∨ st.tokenInfo.buf[0]? = some 0 := by
  have hkept : memcpy st.tokenInfo.buf st.respSize [] = memcpy st.tokenInfo.buf 0 [] := by
    simp [memcpy]
  have hroom : ([] : List UInt8).length < st.tokenInfo.buf.length := by
    rw [h.length_buf]
    decide
  rw [hkept, prefix_set_start_iff List.not_mem_nil hroom]
  constructor
  · rintro (hzero | ⟨-, hzero⟩)
    · exact .inl hzero
    · exact .inr hzero
  · rintro (hzero | hzero)
    · exact .inl hzero
    · rcases Nat.eq_zero_or_pos st.tokenInfo.len with hlen | hlen
      · exact .inl hlen
      · exact .inr ⟨hlen, hzero⟩

theorem prefix_chunks_iff {body : List UInt8} (h : st.InRange) (h0 : (0 : UInt8) ∉ body)
    (hterm : st.respSize + body.length < tokenInfoSize) :
    body ++ [0] <+: (memcpy st.tokenInfo.buf st.respSize body).set
        (st.respSize + body.length) 0 ↔
      st.respSize = 0 ∨ (body.length < st.respSize ∧ body ++ [0] <+: st.tokenInfo.buf) := by
  rw [← h.length_buf] at hterm
  exact prefix_set_memcpy_iff h0 hterm

theorem givesBody_chunked_iff (h : st.InRange) (hr : r.chunked = true) :
    GivesBody st r ↔ ChunkedFits st r := by
  by_cases hfit : st.respSize + r.body.length ≤ tokenInfoSize
  · have hlen : (afterChunks st r.pieces).tokenInfo.buf.length = tokenInfoSize :=
      (length_memcpy (by rw [h.length_buf]; exact hfit)).trans h.length_buf
    rw [givesBody_iff_of_events hlen (events_chunked h hr hfit), ChunkedFits, and_iff_right hfit]
    refine imp_congr_right fun hbody => ?_
    simp only [afterChunks]
    by_cases hpieces : r.pieces = []
    · have hnone : r.pieces.flatten = [] := by rw [hpieces, List.flatten_nil]
      rw [TokenResponse.body, hnone, if_pos hpieces, if_pos hpieces, and_iff_right h.len,
        prefix_nothing_iff h]
    · rw [if_neg hpieces, if_neg hpieces, and_left_comm]
      exact and_congr_right fun h0 => and_congr_right fun hterm => prefix_chunks_iff h h0 hterm
  · have hlen : (prepared st).tokenInfo.buf.length = tokenInfoSize := h.length_buf
    refine iff_of_false (fun hg => hfit ?_) fun hc => hfit hc.1
    have hsafe := hg.1.of_append
    rw [hr] at hsafe
    exact (authSafe_chunks_iff hlen h.respSize).mp hsafe

/-- What the user buffer holds at the end: zeros in place of what an earlier response
has left, then the body. -/
def bufferedBody (st : AuthState) (r : TokenResponse) : List UInt8 :=
  List.replicate st.respSize 0 ++ r.body.take (httpBufferSize - st.respSize)

theorem length_bufferedBody_le (h : st.InRange) : (bufferedBody st r).length ≤ httpBufferSize := by
  have hle := h.respSize
  simp only [bufferedBody, List.length_append, List.length_replicate, List.length_take]
  omega

theorem handler_finish {b : List UInt8} (hb : u.tokenRespBuf = some b) :
    ∃ v, httpAuthEventHandler u (.onFinish false) = .ok v ∧ v.tokenInfo = { u.tokenInfo with
      buf := memcpy u.tokenInfo.buf 0 (b.take u.respSize) } := by
  simp only [httpAuthEventHandler, onFinishWhole, hb]
  split
  · rename_i hzero
    refine ⟨_, rfl, ?_⟩
    rw [hzero, List.take_zero]
    simp [memcpy]
  · exact ⟨_, rfl, rfl⟩

theorem events_whole (h : st.InRange) (hr : r.chunked = false) :
    AuthSafe (prepared st) r.events ∧
      ∃ w, r.events.foldlM httpAuthEventHandler (prepared st) = .ok w ∧
        w.tokenInfo = { st.tokenInfo with buf := memcpy st.tokenInfo.buf 0 (bufferedBody st r) } := by
  have hle := h.respSize
  obtain ⟨hsafe, u, hu, hinfo, hsize, b, hb, hmin, -, htake⟩ :=
    @foldlM_whole (prepared st) r.pieces _ h.respSize rfl
      (by rw [List.length_replicate]; exact Nat.lt_succ_self _)
      (by rw [List.length_replicate]; decide)
  have hinfo : u.tokenInfo = st.tokenInfo := hinfo
  have hsize : u.respSize = st.respSize + min r.body.length (httpBufferSize - st.respSize) := hsize
  have hcollected : b.take u.respSize = bufferedBody st r := by
    have hzeros : (List.replicate (httpBufferSize + 1) (0 : UInt8)).take st.respSize =
        List.replicate st.respSize 0 := by
      rw [List.take_replicate, Nat.min_eq_left (by omega)]
    exact htake.trans (congrArg (· ++ _) hzeros)
  obtain ⟨v, hfinish, hv⟩ := handler_finish hb
  rw [hcollected, hinfo] at hv
  have hinside : AuthWritesInside u (.onFinish false) := by
    refine ⟨?_, fun c hc => ?_⟩
    · have hfull : st.tokenInfo.buf.length = httpBufferSize := h.length_buf
      rw [hinfo]
      omega
    · rw [hb] at hc
      obtain rfl := Option.some.inj hc
      omega
  rw [← hr] at hsafe hu hfinish hinside
  exact events_of_parts hsafe hu hinside hfinish hv

/-- Behind zeros only an empty text stands at the start of the buffer. -/
theorem prefix_bufferedBody_iff (h0 : (0 : UInt8) ∉ r.body) (hzero : st.respSize ≠ 0) :
    r.body ++ [0] <+: (memcpy st.tokenInfo.buf 0 (bufferedBody st r)).set st.tokenInfo.len 0 ↔
      r.body = [] := by
  obtain ⟨k, hk⟩ := Nat.exists_eq_succ_of_ne_zero hzero
  obtain ⟨rest, hrest⟩ : ∃ rest,
      (memcpy st.tokenInfo.buf 0 (bufferedBody st r)).set st.tokenInfo.len 0 = 0 :: rest := by
    rw [bufferedBody, hk, List.replicate_succ, memcpy]
    cases st.tokenInfo.len <;> exact ⟨_, rfl⟩
  rw [hrest]
  cases hbytes : r.body with
  | nil => exact iff_of_true ⟨rest, rfl⟩ rfl
  | cons c cs =>
    refine iff_of_false (fun hpre => ?_) (List.cons_ne_nil c cs)
    obtain ⟨rfl, -⟩ := List.cons_prefix_cons.mp hpre
    exact h0 (by rw [hbytes]; exact List.mem_cons_self)

theorem givesBody_whole_iff (h : st.InRange) (hr : r.chunked = false) :
    GivesBody st r ↔ WholeFits st r := by
  have hlen : (memcpy st.tokenInfo.buf 0 (bufferedBody st r)).length = tokenInfoSize := by
    have hle : 0 + (bufferedBody st r).length ≤ st.tokenInfo.buf.length := by
      rw [h.length_buf, Nat.zero_add]
      exact length_bufferedBody_le h
    exact (length_memcpy hle).trans h.length_buf
  rw [givesBody_iff_of_events hlen (events_whole h hr), WholeFits]
  refine imp_congr_right fun hbody => ?_
  rw [and_iff_right h.len]
  refine and_congr_right fun h0 => ?_
  by_cases hzero : st.respSize = 0
  · have hle : r.body.length ≤ httpBufferSize := Nat.le_of_lt hbody
    have hwhole : bufferedBody st r = r.body := by
      rw [bufferedBody, hzero, Nat.sub_zero, List.take_of_length_le hle]
      rfl
    rw [if_pos hzero, hwhole]
    exact prefix_set_start_iff h0 (by rw [h.length_buf]; exact hbody)
  · rw [if_neg hzero]
    exact prefix_bufferedBody_iff h0 hzero

theorem givesBody_iff (h : st.InRange) : GivesBody st r ↔ Fits st r := by
  cases hr : r.chunked with
  | true => rw [givesBody_chunked_iff h hr, Fits, if_pos hr]
  | false => rw [givesBody_whole_iff h hr, Fits, if_neg (by simp [hr])]

/-! What holds between two calls of any run. -/

def Sized (st : AuthState) : Prop :=
  st.tokenInfo.buf.length = tokenInfoSize ∧ st.respSize ≤ httpBufferSize

theorem Sized.onDataChunked (h : Sized st) (hu : SmakChess.onDataChunked st data = .ok u) :
    Sized u := by
  obtain ⟨hlen, hsize⟩ := h
  unfold SmakChess.onDataChunked at hu
  split at hu
  · rename_i hfit
    obtain rfl := Except.ok.inj hu
    exact ⟨(length_memcpy (by omega)).trans hlen, hfit⟩
  · cases hu

theorem Sized.onDataWhole (h : Sized st) (hu : SmakChess.onDataWhole st data = .ok u) :
    Sized u := by
  obtain ⟨hlen, hsize⟩ := h
  simp only [SmakChess.onDataWhole] at hu
  split_ifs at hu
  all_goals first
    | exact Except.ok.inj hu ▸ ⟨hlen, hsize⟩
    | (split at hu
       · cases hu
       · obtain rfl := Except.ok.inj hu
         exact ⟨hlen, by simp only; omega⟩)

theorem Sized.onFinishWhole (h : Sized st) (hu : SmakChess.onFinishWhole st = .ok u) :
    Sized u := by
  obtain ⟨hlen, hsize⟩ := h
  unfold SmakChess.onFinishWhole at hu
  split_ifs at hu
  · obtain rfl := Except.ok.inj hu
    exact ⟨hlen, hsize⟩
  · split at hu
    · cases hu
    · rename_i b _
      obtain rfl := Except.ok.inj hu
      refine ⟨(length_memcpy ?_).trans hlen, Nat.zero_le _⟩
      have hle : (b.take st.respSize).length ≤ st.respSize := List.length_take_le ..
      have hsame : httpBufferSize = tokenInfoSize := rfl
      omega

theorem Sized.handler (h : Sized st) (hu : httpAuthEventHandler st e = .ok u) : Sized u := by
  cases e with
  | onData chunked data =>
    cases chunked with
    | true => exact h.onDataChunked hu
    | false => exact h.onDataWhole hu
  | onFinish chunked =>
    cases chunked with
    | true =>
      obtain rfl := Except.ok.inj hu
      exact ⟨h.1, Nat.zero_le _⟩
    | false => exact h.onFinishWhole hu
  | disconnected =>
    simp only [httpAuthEventHandler] at hu
    split_ifs at hu <;> exact Except.ok.inj hu ▸ ⟨h.1, Nat.zero_le _⟩

theorem Sized.foldlM (h : Sized st) (hu : es.foldlM httpAuthEventHandler st = .ok u) : Sized u := by
  induction es generalizing st with
  | nil => exact Except.ok.inj hu ▸ h
  | cons e es ih =>
    cases he : httpAuthEventHandler st e with
    | error f =>
      rw [List.foldlM_cons, he] at hu
      cases hu
    | ok v =>
      rw [foldlM_handler_cons he] at hu
      exact ih (h.handler he) hu

theorem inRange_boot_auth : AuthState.boot.InRange where
  length_buf := List.length_replicate ..
  len := by decide
  respSize := Nat.zero_le _

theorem AuthState.InRange.requestToken {readToken : TokenReader} {q : TokenRequest}
    {strVal : Option CString} (h : st.InRange)
    (hu : SmakChess.requestToken readToken st q = .ok (u, strVal)) : u.InRange := by
  unfold SmakChess.requestToken at hu
  split at hu
  · exact (Prod.mk.inj (Except.ok.inj hu)).1 ▸ h
  · have hprep : Sized (prepared st) := ⟨h.length_buf, h.respSize⟩
    cases hv : q.performed.foldlM httpAuthEventHandler (prepared st) with
    | error f =>
      have hbind : (Except.error f : Except AuthFault (AuthState × Option CString)) =
          .ok (u, strVal) := by
        rw [← hu]
        exact (congrArg (· >>= _) hv).symm
      cases hbind
    | ok v =>
      obtain ⟨hlen, hsize⟩ := hprep.foldlM hv
      have hbind : (if v.tokenInfo.len < tokenInfoSize then _ else _) = Except.ok (u, strVal) :=
        (congrArg (· >>= _) hv).symm.trans hu
      split at hbind
      · rename_i hterm
        obtain ⟨rfl, -⟩ := Prod.mk.inj (Except.ok.inj hbind)
        exact ⟨(List.length_set ..).trans hlen, hterm, hsize⟩
      · cases hbind

theorem AuthState.InRange.disconnected (h : st.InRange) :
    ∃ w, httpAuthEventHandler st .disconnected = .ok w ∧ w.InRange := by
  simp only [httpAuthEventHandler]
  split <;> exact ⟨_, rfl, h.length_buf, h.len, Nat.zero_le _⟩

theorem AuthState.InRange.tokenStep {readToken : TokenReader} {q : TokenRequest} (h : st.InRange)
    (hu : SmakChess.tokenStep readToken st q = .ok u) : u.InRange := by
  cases hreq : SmakChess.requestToken readToken st q with
  | error f =>
    rw [SmakChess.tokenStep, smakHttpAuthTokenGet_of_error hreq] at hu
    cases hu
  | ok result =>
    obtain ⟨v, strVal⟩ := result
    have hv := h.requestToken hreq
    cases strVal with
    | none =>
      rw [SmakChess.tokenStep, smakHttpAuthTokenGet_of_none hreq] at hu
      exact Except.ok.inj hu ▸ hv
    | some token =>
      by_cases hroom : v.tokenGlobalStr.bytes.length + token.bytes.length < tokenGlobalStrSize
      · have hin : AuthState.InRange { v with tokenGlobalStr := v.tokenGlobalStr.append token } :=
          ⟨hv.length_buf, hv.len, hv.respSize⟩
        obtain ⟨w, hw, hwin⟩ := hin.disconnected
        simp only [SmakChess.tokenStep, smakHttpAuthTokenGet, hreq, strcat, if_pos hroom, bind,
          Except.bind, pure, Except.pure] at hu
        split_ifs at hu
        · rw [hw] at hu
          exact Except.ok.inj hu ▸ hwin
        · exact Except.ok.inj hu ▸ hin
      · rw [SmakChess.tokenStep, smakHttpAuthTokenGet_of_overflow hreq hroom] at hu
        cases hu

theorem inRange_of_tokens {readToken : TokenReader} {rs : List TokenRequest}
    (h : run (tokenStep readToken) .boot rs = .ok st) : st.InRange := by
  have halways : Always (tokenStep readToken) (fun _ s => s.InRange) .boot rs :=
    Always.of_step inRange_boot_auth fun _ _ _ _ _ _ hi hs => hi.tokenStep hs
  exact halways rs st (List.prefix_refl rs) h

theorem answer_of_givesBody {readToken : TokenReader} {disconnects : Bool} (h : GivesBody st r)
    (hbody : r.body.length < tokenInfoSize) :
    answer readToken st ⟨true, r.events, disconnects⟩ = readToken r.body := by
  obtain ⟨u, hu, htext⟩ := h.2 hbody
  rw [textGiven] at htext
  split at htext
  · rename_i hterm
    have hreq : requestToken readToken st ⟨true, r.events, disconnects⟩ =
        .ok ({ u with tokenInfo := { u.tokenInfo with
          buf := u.tokenInfo.buf.set u.tokenInfo.len 0 } }, readToken r.body) := by
      rw [← Option.some.inj htext]
      exact (congrArg (· >>= _) hu).trans (if_pos hterm)
    rw [answer, hreq]
  · cases htext

end Events

/-- A response of either kind is parsed as it is where its length fits to what
earlier ones have left. -/
theorem givesBody_iff_fits (readToken : TokenReader) (rs : List TokenRequest) (st : AuthState)
    (h : run (tokenStep readToken) .boot rs = .ok st) (r : TokenResponse) :
    GivesBody st r ↔ Fits st r :=
  givesBody_iff (inRange_of_tokens h)

theorem chunked_givesBody : GivesBody .boot ⟨true, [[123], [125]], true⟩ := by
  refine (givesBody_iff_fits readAccessToken [] .boot rfl ⟨true, [[123], [125]], true⟩).mpr ?_
  have hfits : ChunkedFits .boot ⟨true, [[123], [125]], true⟩ := by
    refine ⟨by decide, fun _ => ⟨by decide, ?_⟩⟩
    rw [if_neg (by decide)]
    exact ⟨by decide, .inl rfl⟩
  exact hfits

/-- The first token arrives with a length, and nothing of it is parsed. -/
theorem whole_not_givesBody : ¬ GivesBody .boot ⟨false, [[123, 125]], true⟩ := by
  rw [givesBody_iff inRange_boot_auth]
  intro h
  have hfits : WholeFits .boot ⟨false, [[123, 125]], true⟩ := h
  obtain ⟨-, hleft⟩ := hfits (by decide)
  have hzero : AuthState.boot.respSize = 0 := rfl
  rw [if_pos hzero] at hleft
  rcases hleft with hlen | ⟨hlt, -⟩
  · exact absurd hlen (by decide)
  · exact absurd hlt (by decide)

end SmakChess
