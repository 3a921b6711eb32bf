import SmakChess.Conn
import SmakChess.Machine

/-! The response buffers of the posts over any sequence of exchanges, some of
which end before their response is complete. -/

namespace SmakChess

inductive PostRequest
  | gamePost
  | gamePatch
  | movePost
  deriving DecidableEq, Repr

/-- The body of the response arrives in pieces, and the end of it may not come. -/
structure Exchange where
  request : PostRequest
  pieces : List (List UInt8)
  finished : Bool
  deriving DecidableEq, Repr

namespace Exchange

def body (x : Exchange) : List UInt8 := x.pieces.flatten

def events (x : Exchange) : List HttpEvent :=
  x.pieces.map HttpEvent.onData ++ if x.finished then [.onFinish] else []

end Exchange

/-- The static `idx`, and the static buffer of each request function. -/
structure PostState where
  idx : Nat
  buf : PostRequest → List UInt8

namespace PostState

def boot : PostState := ⟨0, fun _ => emptyBuf⟩

def after (s : PostState) (x : Exchange) : PostState :=
  let r := perform (s.idx, s.buf x.request) x.events
  ⟨r.1, Function.update s.buf x.request r.2⟩

def step (s : PostState) (x : Exchange) : Except Empty PostState := .ok (s.after x)

end PostState

def writeEnd (s : Nat × List UInt8) : HttpEvent → Nat
  | .onData data => if httpBufferSize - s.1 < data.length then 0 else s.1 + data.length
  | .onFinish => s.1 + 1

def WritesInside (s : PostState) (x : Exchange) : Prop :=
  ∀ p e, p ++ [e] <+: x.events →
    writeEnd (perform (s.idx, s.buf x.request) p) e ≤ (s.buf x.request).length

/-- At the end of a response that fits, the buffer starts with the body and the
terminator. -/
def HoldsBody (s : PostState) (x : Exchange) : Prop :=
  x.finished = true → x.body.length ≤ httpBufferSize →
    x.body ++ [0] <+: (s.after x).buf x.request

/-- Nothing is left of an exchange that ended early, or so much of it that the
buffer is not written where it holds the same body already. -/
def Clean (s : PostState) (x : Exchange) : Prop :=
  x.finished = true → x.body.length ≤ httpBufferSize →
    s.idx = 0 ∨ (x.body.length < s.idx ∧ x.body ++ [0] <+: s.buf x.request)

/-- A text that there is room for after what is left. -/
def TextFits (s : PostState) (x : Exchange) : Prop :=
  (0 : UInt8) ∉ x.body ∧ s.idx + x.body.length ≤ httpBufferSize

structure InRange (s : Nat × List UInt8) : Prop where
  idx : s.1 ≤ httpBufferSize
  length : s.2.length = httpBufferSize + 1

section Handler

variable {s : Nat × List UInt8} {e : HttpEvent} {events : List HttpEvent}
  {pieces : List (List UInt8)} {buf a b : List UInt8} {i : Nat}

theorem length_memcpy (h : i + a.length ≤ buf.length) : (memcpy buf i a).length = buf.length := by
  simp only [memcpy, List.length_append, List.length_take, List.length_drop]
  omega

theorem take_memcpy (h : i ≤ buf.length) : (memcpy buf i a).take i = buf.take i := by
  have hlen : (buf.take i).length = i := List.length_take_of_le h
  rw [memcpy, List.append_assoc, List.take_append_of_le_length hlen.ge, List.take_take,
    Nat.min_self]

theorem memcpy_memcpy (h : i + a.length ≤ buf.length) :
    memcpy (memcpy buf i a) (i + a.length) b = memcpy buf i (a ++ b) := by
  have hlen : (buf.take i ++ a).length = i + a.length := by
    rw [List.length_append, List.length_take_of_le (by omega)]
  have hdrop : (buf.take i ++ a ++ buf.drop (i + a.length)).drop (i + a.length + b.length) =
      buf.drop (i + (a ++ b).length) := by
    have hover : (buf.take i ++ a ++ buf.drop (i + a.length)).drop
        ((buf.take i ++ a).length + b.length) = (buf.drop (i + a.length)).drop b.length :=
      List.drop_length_add_append b.length
    rw [hlen] at hover
    rw [hover, List.drop_drop, List.length_append, Nat.add_assoc]
  have htake : (buf.take i ++ a ++ buf.drop (i + a.length)).take (i + a.length) =
      buf.take i ++ a := by
    rw [← hlen, List.take_left]
  rw [memcpy, memcpy, htake, hdrop, memcpy, List.append_assoc (buf.take i)]

theorem InRange.handle (h : InRange s) : InRange (smakHttpEventHandlerPost s e) := by
  have hidx := h.idx
  have hlen := h.length
  cases e with
  | onData data =>
    simp only [smakHttpEventHandlerPost]
    split
    · exact h
    · exact ⟨by simp only; omega, by simp only; rw [length_memcpy (by omega), hlen]⟩
  | onFinish => exact ⟨Nat.zero_le _, (List.length_set ..).trans hlen⟩

theorem InRange.perform (h : InRange s) (events : List HttpEvent) :
    InRange (perform s events) := by
  induction events generalizing s with
  | nil => exact h
  | cons e events ih => exact ih h.handle

theorem InRange.writeEnd_le (h : InRange s) : writeEnd s e ≤ httpBufferSize + 1 := by
  have hidx := h.idx
  cases e with
  | onData data =>
    simp only [writeEnd]
    split <;> omega
  | onFinish => exact Nat.succ_le_succ hidx

theorem InRange.before_pieces (h : InRange s) (pieces : List (List UInt8)) :
    s.1 ≤ (SmakChess.perform s (pieces.map .onData)).1 ∧
      (SmakChess.perform s (pieces.map .onData)).2.take s.1 = s.2.take s.1 := by
  induction pieces generalizing s with
  | nil => exact ⟨le_rfl, rfl⟩
  | cons data pieces ih =>
    have hidx := h.idx
    have hlen := h.length
    obtain ⟨hle, htake⟩ := ih (h.handle (e := .onData data))
    by_cases hroom : httpBufferSize - s.1 < data.length
    · rw [smakHttpEventHandlerPost, if_pos hroom] at hle htake
      rw [List.map_cons, SmakChess.perform, List.foldl_cons, smakHttpEventHandlerPost, if_pos hroom]
      exact ⟨hle, htake⟩
    · rw [smakHttpEventHandlerPost, if_neg hroom] at hle htake
      rw [List.map_cons, SmakChess.perform, List.foldl_cons, smakHttpEventHandlerPost, if_neg hroom]
      refine ⟨by simp only at hle; exact (Nat.le_add_right _ _).trans hle, ?_⟩
      have hcut := congrArg (List.take s.1) htake
      simp only [List.take_take, Nat.min_eq_left (Nat.le_add_right s.1 data.length)] at hcut
      rw [take_memcpy (by omega)] at hcut
      exact hcut

theorem perform_pieces (h : InRange s) (hfit : s.1 + pieces.flatten.length ≤ httpBufferSize) :
    perform s (pieces.map .onData) =
      (s.1 + pieces.flatten.length, memcpy s.2 s.1 pieces.flatten) := by
  induction pieces generalizing s with
  | nil => simp [perform, memcpy]
  | cons data pieces ih =>
    have hlen := h.length
    rw [List.flatten_cons, List.length_append] at hfit
    have hroom : ¬ httpBufferSize - s.1 < data.length := by omega
    have hhandle : smakHttpEventHandlerPost s (.onData data) =
        (s.1 + data.length, memcpy s.2 s.1 data) := by
      rw [smakHttpEventHandlerPost, if_neg hroom]
    have hin := h.handle (e := .onData data)
    rw [hhandle] at hin
    have hrest := ih hin (by simp only; omega)
    rw [List.map_cons, perform, List.foldl_cons, hhandle]
    refine hrest.trans ?_
    simp only
    rw [memcpy_memcpy (by omega), List.flatten_cons, List.length_append, Nat.add_assoc]

theorem set_memcpy (h : a.length < buf.length) :
    ∃ rest, (memcpy buf 0 a).set a.length 0 = a ++ [0] ++ rest := by
  obtain ⟨b, rest, hrest⟩ : ∃ b rest, buf.drop a.length = b :: rest :=
    List.exists_cons_of_ne_nil (by simp; omega)
  exact ⟨rest, by simp [memcpy, hrest]⟩

theorem getElem?_memcpy (hi : i ≤ buf.length) {n : Nat} (h₁ : i ≤ n) (h₂ : n < i + a.length) :
    (memcpy buf i a)[n]? = a[n - i]? := by
  have hlen : (buf.take i).length = i := List.length_take_of_le hi
  rw [memcpy, List.getElem?_append_left (by rw [List.length_append, hlen]; exact h₂),
    List.getElem?_append_right (hlen.le.trans h₁), hlen]

/-- Where a text and its terminator are written from `i` on, the buffer starts with
the text only if it did so already, below `i`. -/
theorem prefix_set_memcpy_iff (h0 : (0 : UInt8) ∉ a) (hfit : i + a.length < buf.length) :
    a ++ [0] <+: (memcpy buf i a).set (i + a.length) 0 ↔
      i = 0 ∨ (a.length < i ∧ a ++ [0] <+: buf) := by
  rcases Nat.eq_zero_or_pos i with rfl | hpos
  · have hroom : a.length < buf.length := by omega
    obtain ⟨rest, hrest⟩ := set_memcpy hroom
    rw [Nat.zero_add, hrest]
    exact iff_of_true (List.prefix_append _ _) (.inl rfl)
  rcases Nat.lt_or_ge a.length i with hlt | hge
  · have hlen : (a ++ [0]).length ≤ i := by
      rw [List.length_append]
      exact hlt
    have hcut := congrArg (List.take (a ++ [0]).length) (take_memcpy (a := a) (by omega : i ≤ buf.length))
    simp only [List.take_take, Nat.min_eq_left hlen] at hcut
    rw [List.prefix_iff_eq_take, List.take_set_of_le (hlen.trans (Nat.le_add_right _ _)), hcut,
      ← List.prefix_iff_eq_take]
    exact ⟨fun h => .inr ⟨hlt, h⟩, fun h => (h.resolve_left (by omega)).2⟩
  · -- one byte of the text stands where it should end
    refine iff_of_false (fun hpre => ?_) (by omega)
    have hne : i + a.length ≠ a.length := by omega
    have hread : (memcpy buf i a)[a.length]? = some 0 := by
      obtain ⟨rest, hrest⟩ := hpre
      have hres := congrArg (fun buf => buf[a.length]?) hrest
      simp only [List.append_assoc, List.getElem?_append_right le_rfl, Nat.sub_self] at hres
      exact (List.getElem?_set_ne hne).symm.trans hres.symm
    rw [getElem?_memcpy (by omega) hge (by omega)] at hread
    exact h0 (List.mem_of_getElem? hread)

end Handler

section Exchange

variable {s t : PostState} {x : Exchange} {es : List Exchange}

def PostState.InRange (s : PostState) : Prop := ∀ r, SmakChess.InRange (s.idx, s.buf r)

theorem inRange_boot : PostState.boot.InRange := fun _ =>
  ⟨Nat.zero_le _, List.length_replicate ..⟩

theorem PostState.InRange.after (h : s.InRange) : (s.after x).InRange := by
  have hr := (h x.request).perform x.events
  intro r
  by_cases heq : r = x.request
  · subst heq
    simpa [PostState.after] using hr
  · refine ⟨hr.idx, ?_⟩
    simpa [PostState.after, Function.update_of_ne heq] using (h r).length

theorem buf_after_of_finished (h : x.finished = true) :
    (s.after x).buf x.request =
      ((perform (s.idx, s.buf x.request) (x.pieces.map .onData)).2.set
        (perform (s.idx, s.buf x.request) (x.pieces.map .onData)).1 0) := by
  simp [PostState.after, Exchange.events, h, perform, smakHttpEventHandlerPost]

theorem writesInside (hs : s.InRange) : WritesInside s x := by
  intro p e _
  have hin := (hs x.request).perform p
  exact hin.writeEnd_le.trans (hs x.request).length.ge

/-- Where the body would end below `idx`, the exchange writes nothing that decides. -/
theorem prefix_after_iff (hs : s.InRange) (hf : x.finished = true)
    (hlt : x.body.length < s.idx) :
    x.body ++ [0] <+: (s.after x).buf x.request ↔ x.body ++ [0] <+: s.buf x.request := by
  obtain ⟨hle, htake⟩ := (hs x.request).before_pieces x.pieces
  have hcut := congrArg (List.take (x.body ++ [0]).length) htake
  have hlen : (x.body ++ [0]).length ≤ s.idx := by
    rw [List.length_append]
    exact hlt
  simp only [List.take_take, Nat.min_eq_left hlen] at hcut
  rw [List.prefix_iff_eq_take, List.prefix_iff_eq_take, buf_after_of_finished hf,
    List.take_set_of_le (hlen.trans hle), hcut]

theorem holdsBody_of_clean (hs : s.InRange) (hc : Clean s x) : HoldsBody s x := by
  intro hf hsize
  rcases hc hf hsize with hzero | ⟨hlt, hpre⟩
  · have hfit : s.idx + x.pieces.flatten.length ≤ httpBufferSize := by
      rw [hzero, Nat.zero_add]
      exact hsize
    have hlen : (s.buf x.request).length = httpBufferSize + 1 := (hs x.request).length
    have hroom : x.body.length < (s.buf x.request).length := by omega
    obtain ⟨rest, hrest⟩ := set_memcpy hroom
    rw [buf_after_of_finished hf, perform_pieces (hs x.request) hfit]
    simp only [hzero, Nat.zero_add]
    exact ⟨rest, hrest.symm⟩
  · exact (prefix_after_iff hs hf hlt).mpr hpre

theorem clean_of_holdsBody (hs : s.InRange) (ht : TextFits s x) (h : HoldsBody s x) :
    Clean s x := by
  intro hf hsize
  have hlen : (s.buf x.request).length = httpBufferSize + 1 := (hs x.request).length
  have hpre := h hf hsize
  rw [buf_after_of_finished hf, perform_pieces (hs x.request) ht.2] at hpre
  exact (prefix_set_memcpy_iff ht.1 (Nat.lt_of_le_of_lt ht.2 (by omega))).mp hpre

theorem inRange_of_run (h : Machine.run PostState.step .boot es = .ok t) : t.InRange := by
  have halways : Machine.Always PostState.step (fun _ s => s.InRange) .boot es :=
    Machine.Always.of_step inRange_boot fun p e u v _ _ hi hs => by
      obtain rfl : u.after e = v := Except.ok.inj hs
      exact PostState.InRange.after hi
  exact halways es t (List.prefix_refl es) h

theorem throughout_writesInside :
    Machine.Throughout PostState.step WritesInside .boot es := fun _ _ _ _ _ ht _ =>
  writesInside (inRange_of_run ht)

theorem throughout_holdsBody (h : Machine.Throughout PostState.step Clean .boot es) :
    Machine.Throughout PostState.step HoldsBody .boot es := fun p e t t' hp ht hs =>
  holdsBody_of_clean (inRange_of_run ht) (h p e t t' hp ht hs)

theorem throughout_clean (htext : Machine.Throughout PostState.step TextFits .boot es)
    (h : Machine.Throughout PostState.step HoldsBody .boot es) :
    Machine.Throughout PostState.step Clean .boot es := fun p e t t' hp ht hs =>
  clean_of_holdsBody (inRange_of_run ht) (htext p e t t' hp ht hs) (h p e t t' hp ht hs)

/-- The states of the posts agree with those of the connection. -/
def Shows (s : PostState) (c : Conn) : Prop :=
  s.idx = c.idx ∧ s.buf .gamePost = c.gameBuf ∧ s.buf .movePost = c.moveBuf

theorem shows_postGame {c : Conn} (h : Shows s c) (hx : x.request = .gamePost)
    (readId : GameIdReader) : Shows (s.after x) (smakHttpPostGame readId c x.events) := by
  obtain ⟨hidx, hgame, hmove⟩ := h
  have hparts : ∀ d : Conn, d = { c with
      idx := (perform (c.idx, c.gameBuf) x.events).1
      gameBuf := (perform (c.idx, c.gameBuf) x.events).2
      storage := d.storage } → Shows (s.after x) d := by
    intro d hd
    rw [hd]
    simp [Shows, PostState.after, hx, hidx, hgame, hmove]
  apply hparts
  simp only [smakHttpPostGame]
  split
  · rfl
  · split <;> rfl

theorem shows_postMove {c : Conn} (h : Shows s c) (hx : x.request = .movePost)
    (mv : Pb.SmakChessMoveT) : Shows (s.after x) (smakHttpPostMove c mv x.events).2 := by
  obtain ⟨hidx, hgame, hmove⟩ := h
  simp [Shows, PostState.after, smakHttpPostMove, hx, hidx, hgame, hmove]

end Exchange

/-- No run writes outside its buffers. It holds each body where nothing is left
over, and where the bodies are texts there is room for, nowhere else. -/
theorem posts_hold_bodies (es : List Exchange) :
    Machine.Throughout PostState.step WritesInside .boot es ∧
      (Machine.Throughout PostState.step Clean .boot es →
        Machine.Throughout PostState.step HoldsBody .boot es) ∧
      (Machine.Throughout PostState.step TextFits .boot es →
        (Machine.Throughout PostState.step HoldsBody .boot es ↔
          Machine.Throughout PostState.step Clean .boot es)) :=
  ⟨throughout_writesInside, throughout_holdsBody,
    fun htext => ⟨throughout_clean htext, throughout_holdsBody⟩⟩

/-- The answer to a game breaks off, and that to a move is complete. -/
def brokenOff : List Exchange :=
  [⟨.gamePost, [[123]], false⟩, ⟨.movePost, [[123, 125]], true⟩]

theorem brokenOff_not_holdsBody :
    ¬ Machine.Throughout PostState.step HoldsBody .boot brokenOff := by
  intro h
  have hrun : Machine.run PostState.step .boot [⟨.gamePost, [[123]], false⟩] =
      .ok (PostState.boot.after ⟨.gamePost, [[123]], false⟩) := rfl
  have hs := inRange_of_run hrun
  have hclean := clean_of_holdsBody hs (x := ⟨.movePost, [[123, 125]], true⟩)
    ⟨by decide, by decide⟩ (h _ _ _ _ (List.prefix_refl _) hrun rfl)
  rcases hclean rfl (by decide) with hzero | ⟨hlt, -⟩
  · exact absurd hzero (by decide)
  · exact absurd hlt (by decide)

/-- A request of each kind, and one more that fails without data. -/
def fourPosts : List Exchange :=
  [⟨.gamePost, [[123], [125]], true⟩, ⟨.movePost, [], false⟩, ⟨.gamePatch, [[123, 125, 10]], true⟩,
    ⟨.movePost, [[91], [], [93]], true⟩]

theorem fourPosts_hold : Machine.Throughout PostState.step HoldsBody .boot fourPosts := by
  refine (posts_hold_bodies fourPosts).2.1 ?_
  refine .cons rfl (fun _ _ => .inl rfl) (.cons rfl (fun _ _ => .inl rfl) ?_)
  exact .cons rfl (fun _ _ => .inl rfl) (.cons rfl (fun _ _ => .inl rfl) .nil)

end SmakChess
