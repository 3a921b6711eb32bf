import SmakChess.PostBuffer
import Mathlib.Data.List.Induction

/-! The game that moves are posted under, whatever becomes of the requests before them. -/

namespace SmakChess

open Pb (SmakChessMoveT)

def latestGame : List BoardMessage → Option (Option UInt64)
  | [] => none
  | .newGame created _ :: ms => some ((latestGame ms).getD created)
  | .move _ _ :: ms => latestGame ms

/-- Every move is posted under the id of the game created by the latest new
game before it. -/
def Attributed (readId : GameIdReader) (s : Conn) (ms : List BoardMessage) : Prop :=
  ∀ pre mv events post, ms = pre ++ .move mv events :: post → ∀ created,
    latestGame pre = some created →
      created = some (smakHttpPostMove (handleMessages readId s pre) mv events).1.id

/-- What the buffer has room for of a response: a piece that does not fit is dropped. -/
def kept (pieces : List (List UInt8)) : List UInt8 :=
  pieces.foldl (fun text data =>
    if httpBufferSize - text.length < data.length then text else text ++ data) []

/-- A response that comes to its end. -/
def finished (pieces : List (List UInt8)) : List HttpEvent := pieces.map .onData ++ [.onFinish]

/-- The request for a game succeeds, fails without data, or returns what is not a game. -/
inductive GameOutcome (readId : GameIdReader) : Option UInt64 → List HttpEvent → Prop
  | succeeds {id : UInt64} {pieces : List (List UInt8)}
      (h : readId (cString (kept pieces)) = some id) : GameOutcome readId (some id) (finished pieces)
  | noData (created : Option UInt64) : GameOutcome readId created []
  | notAGame (created : Option UInt64) {pieces : List (List UInt8)}
      (h : readId (cString (kept pieces)) = none) : GameOutcome readId created (finished pieces)

def BoardMessage.HasOutcome (readId : GameIdReader) : BoardMessage → Prop
  | .newGame created events => GameOutcome readId created events
  | .move _ events => events = [] ∨ ∃ pieces, events = finished pieces

/-- The response is a game, and its id is not the one that was stored last, which
`smak_gameid_store` would pass over; or the created game is the stored one already. -/
def Brings (readId : GameIdReader) (s : Conn) (created : Option UInt64)
    (events : List HttpEvent) : Prop :=
  (∃ pieces id, events = finished pieces ∧ readId (cString (kept pieces)) = some id ∧
    id ≠ s.storage.currentId) ∨
  created = some (smakGameidCurrentGet .works s.storage)

/-- Nothing is left of an exchange, and the game in the buffer has been dealt with. -/
structure Settled (readId : GameIdReader) (s : Conn) : Prop where
  idx : s.idx = 0
  length : s.gameBuf.length = httpBufferSize + 1
  read : ∀ id, readId (cString s.gameBuf) = some id →
    id = smakGameidCurrentGet .works s.storage ∨ id = s.storage.currentId

/-- The storage after a game has been read in a response, or none. -/
def Storage.take (st : Storage) (read : Option UInt64) : Storage :=
  match read with
  | none => st
  | some id =>
    if id = smakGameidCurrentGet .works st then st else (smakGameidStore .works st id).2

section Buffer

variable {pieces pieces' : List (List UInt8)} {buf text rest : List UInt8}

theorem perform_append (s : Nat × List UInt8) (a b : List HttpEvent) :
    perform s (a ++ b) = perform (perform s a) b := List.foldl_append

theorem perform_kept (hlen : buf.length = httpBufferSize + 1) (pieces : List (List UInt8)) :
    (kept pieces).length ≤ httpBufferSize ∧
      perform (0, buf) (pieces.map .onData) = ((kept pieces).length, memcpy buf 0 (kept pieces)) := by
  induction pieces using List.reverseRecOn with
  | nil => simp [kept, perform, memcpy]
  | append_singleton pieces data ih =>
    obtain ⟨hle, hperform⟩ := ih
    have hkept : kept (pieces ++ [data]) =
        if httpBufferSize - (kept pieces).length < data.length then kept pieces
        else kept pieces ++ data := by
      rw [kept, List.foldl_append]
      rfl
    have hstep : perform (0, buf) ((pieces ++ [data]).map .onData) =
        smakHttpEventHandlerPost ((kept pieces).length, memcpy buf 0 (kept pieces))
          (.onData data) := by
      rw [← hperform, List.map_append, perform_append]
      rfl
    rw [hstep, hkept, smakHttpEventHandlerPost]
    split_ifs with hroom
    · exact ⟨hle, rfl⟩
    · refine ⟨by rw [List.length_append]; omega, ?_⟩
      have hjoin : memcpy (memcpy buf 0 (kept pieces)) (0 + (kept pieces).length) data =
          memcpy buf 0 (kept pieces ++ data) := memcpy_memcpy (by omega)
      rw [Nat.zero_add] at hjoin
      rw [hjoin, List.length_append]

theorem cString_ended (text rest : List UInt8) :
    cString (text ++ [0] ++ rest) = cString text := by
  induction text with
  | nil => simp [cString]
  | cons c text ih =>
    simp only [cString, List.cons_append] at ih ⊢
    rw [List.takeWhile_cons, List.takeWhile_cons, ih]

theorem perform_finished (hlen : buf.length = httpBufferSize + 1) (pieces : List (List UInt8)) :
    (perform (0, buf) (finished pieces)).1 = 0 ∧
      (perform (0, buf) (finished pieces)).2.length = httpBufferSize + 1 ∧
      cString (perform (0, buf) (finished pieces)).2 = cString (kept pieces) := by
  obtain ⟨hle, hperform⟩ := perform_kept hlen pieces
  have hroom : (kept pieces).length < buf.length := by omega
  have hend : perform (0, buf) (finished pieces) =
      (0, (memcpy buf 0 (kept pieces)).set (kept pieces).length 0) := by
    rw [finished, perform_append, hperform]
    rfl
  obtain ⟨rest, hrest⟩ := set_memcpy hroom
  rw [hend]
  refine ⟨rfl, ?_, ?_⟩
  · rw [List.length_set, length_memcpy (by omega), hlen]
  · rw [hrest, cString_ended]

theorem finished_injective (h : finished pieces = finished pieces') : pieces = pieces' :=
  List.map_injective_iff.mpr (fun _ _ h => HttpEvent.onData.inj h) (List.append_cancel_right h)

theorem finished_ne_nil : finished pieces ≠ [] := by simp [finished]

end Buffer

section Games

variable {readId : GameIdReader} {s : Conn} {created : Option UInt64} {events : List HttpEvent}
  {ms pre post : List BoardMessage} {m : BoardMessage}

theorem smakHttpPostGame_eq (readId : GameIdReader) (s : Conn) (events : List HttpEvent) :
    smakHttpPostGame readId s events =
      { s with
        idx := (perform (s.idx, s.gameBuf) events).1
        gameBuf := (perform (s.idx, s.gameBuf) events).2
        storage := s.storage.take (readId (cString (perform (s.idx, s.gameBuf) events).2)) } := by
  unfold smakHttpPostGame Storage.take
  cases hid : readId (cString (perform (s.idx, s.gameBuf) events).2) with
  | none => simp only [hid]
  | some id =>
    simp only [hid]
    split_ifs <;> rfl

theorem currentGet_take (st : Storage) (id : UInt64) :
    smakGameidCurrentGet .works (st.take (some id)) =
      if id = st.currentId then smakGameidCurrentGet .works st else id := by
  unfold Storage.take
  by_cases hsame : id = smakGameidCurrentGet .works st
  · simp only [if_pos hsame]
    split_ifs
    · rfl
    · exact hsame.symm
  · simp only [if_neg hsame, smakGameidStore]
    split_ifs <;> rfl

/-- A game that was taken is not taken a second time. -/
theorem eq_or_eq_take (st : Storage) (id : UInt64) :
    id = smakGameidCurrentGet .works (st.take (some id)) ∨ id = (st.take (some id)).currentId := by
  unfold Storage.take
  by_cases hsame : id = smakGameidCurrentGet .works st
  · simp only [if_pos hsame]
    exact .inl hsame
  · simp only [if_neg hsame, smakGameidStore]
    split_ifs with hlast
    · exact .inr hlast
    · exact .inl rfl

theorem take_eq_self {st : Storage} {id : UInt64}
    (h : id = smakGameidCurrentGet .works st ∨ id = st.currentId) : st.take (some id) = st := by
  unfold Storage.take
  rcases h with h | h
  · simp only [if_pos h]
  · simp only [smakGameidStore, if_pos h, ite_self]

theorem Settled.postGame_nil (h : Settled readId s) : smakHttpPostGame readId s [] = s := by
  have htake : s.storage.take (readId (cString s.gameBuf)) = s.storage := by
    cases hid : readId (cString s.gameBuf) with
    | none => rfl
    | some id => exact take_eq_self (h.read id hid)
  rw [smakHttpPostGame_eq]
  exact congrArg (fun st => { s with storage := st }) htake

theorem Settled.postGame_whole (h : Settled readId s) (pieces : List (List UInt8)) :
    (smakHttpPostGame readId s (finished pieces)).storage =
        s.storage.take (readId (cString (kept pieces))) ∧
      Settled readId (smakHttpPostGame readId s (finished pieces)) := by
  obtain ⟨hidx, hlen, hread⟩ := perform_finished h.length pieces
  rw [smakHttpPostGame_eq, h.idx, hread]
  refine ⟨rfl, hidx, hlen, fun id hid => ?_⟩
  rw [hread] at hid
  rw [hid]
  exact eq_or_eq_take s.storage id

theorem Settled.handle (h : Settled readId s) (hm : m.HasOutcome readId) :
    Settled readId (handleMessage readId s m) := by
  cases m with
  | newGame created events =>
    cases hm with
    | succeeds _ => exact (h.postGame_whole _).2
    | noData _ =>
      rw [handleMessage, h.postGame_nil]
      exact h
    | notAGame _ _ => exact (h.postGame_whole _).2
  | move mv events =>
    rcases hm with rfl | ⟨pieces, rfl⟩
    · exact ⟨h.idx, h.length, h.read⟩
    · refine ⟨?_, h.length, h.read⟩
      simp [handleMessage, smakHttpPostMove, perform, finished, smakHttpEventHandlerPost]

theorem settled_boot (hnil : readId [] = none) (nvs : Option UInt64) :
    Settled readId (Conn.boot nvs) := by
  have hempty : cString (Conn.boot nvs).gameBuf = [] := by simp [cString, Conn.boot, emptyBuf]
  refine ⟨rfl, List.length_replicate .., fun id hid => ?_⟩
  rw [hempty, hnil] at hid
  cases hid

theorem handleMessages_concat : handleMessages readId s (pre ++ [m]) =
    handleMessage readId (handleMessages readId s pre) m := by
  simp [handleMessages]

theorem latestGame_append : latestGame (pre ++ post) =
    match latestGame post with
    | none => latestGame pre
    | some c => some c := by
  induction pre with
  | nil =>
    rw [List.nil_append]
    cases latestGame post <;> rfl
  | cons m pre ih =>
    cases m with
    | newGame created events =>
      simp only [List.cons_append, latestGame, ih]
      cases latestGame post <;> rfl
    | move mv events => simpa only [List.cons_append, latestGame] using ih

theorem settled_handleMessages (h : Settled readId s) (hms : ∀ m ∈ ms, m.HasOutcome readId) :
    Settled readId (handleMessages readId s ms) := by
  induction ms using List.reverseRecOn with
  | nil => exact h
  | append_singleton ms m ih =>
    rw [handleMessages_concat]
    exact (ih fun m' hm' => hms m' (List.mem_append_left _ hm')).handle (hms m (by simp))

theorem exists_latest (h : latestGame pre = some created) :
    ∃ before events moves, pre = before ++ .newGame created events :: moves ∧
      latestGame moves = none ∧
      (handleMessages readId s pre).storage =
        (smakHttpPostGame readId (handleMessages readId s before) events).storage := by
  induction pre using List.reverseRecOn with
  | nil => cases h
  | append_singleton pre m ih =>
    rw [latestGame_append] at h
    cases m with
    | newGame c events =>
      obtain rfl : c = created := by simpa [latestGame] using h
      refine ⟨pre, events, [], rfl, rfl, ?_⟩
      rw [handleMessages_concat]
      rfl
    | move mv events' =>
      obtain ⟨before, events, moves, rfl, hmoves, hstorage⟩ := ih h
      refine ⟨before, events, moves ++ [.move mv events'], by simp, ?_, ?_⟩
      · rw [latestGame_append]
        exact hmoves
      · rw [handleMessages_concat]
        exact hstorage

theorem eq_move_of_latestGame_eq_none {moves : List BoardMessage} (h : latestGame moves = none)
    (mv : SmakChessMoveT) (events : List HttpEvent) (post : List BoardMessage) :
    ∃ mv' events' rest, moves ++ .move mv events :: post = .move mv' events' :: rest := by
  cases moves with
  | nil => exact ⟨mv, events, post, rfl⟩
  | cons m' moves =>
    cases m' with
    | newGame created events' => cases h
    | move mv' events' => exact ⟨mv', events', _, rfl⟩

/-- All moves after a new game are posted under what the storage holds after it. -/
theorem attributed_iff_stored : Attributed readId s ms ↔
    ∀ pre created events mv events' post,
      ms = pre ++ .newGame created events :: .move mv events' :: post →
        created = some (smakGameidCurrentGet .works
          (smakHttpPostGame readId (handleMessages readId s pre) events).storage) := by
  constructor
  · intro h pre created events mv events' post hms
    have hlatest : latestGame (pre ++ [.newGame created events]) = some created := by
      rw [latestGame_append]
      rfl
    have hid := h (pre ++ [.newGame created events]) mv events' post (by simpa using hms) created hlatest
    rwa [handleMessages_concat] at hid
  · intro h pre mv events' post hms created hlatest
    obtain ⟨before, events, moves, rfl, hmoves, hstorage⟩ := exists_latest hlatest
    obtain ⟨mv', events'', rest, hrest⟩ := eq_move_of_latestGame_eq_none hmoves mv events' post
    have hstored := h before created events mv' events'' rest (by
      rw [← hrest, hms, List.append_assoc, List.cons_append])
    rwa [← hstorage] at hstored

theorem stored_iff_brings (h : Settled readId s) (ho : GameOutcome readId created events) :
    created = some (smakGameidCurrentGet .works (smakHttpPostGame readId s events).storage) ↔
      Brings readId s created events := by
  cases ho with
  | @succeeds id pieces hid =>
    rw [(h.postGame_whole pieces).1, hid, currentGet_take]
    by_cases hlast : id = s.storage.currentId
    · rw [if_pos hlast]
      refine ⟨.inr, fun hb => hb.resolve_left ?_⟩
      rintro ⟨pieces', id', hsame, hid', hne⟩
      obtain rfl := finished_injective hsame
      obtain rfl := Option.some.inj (hid.symm.trans hid')
      exact hne hlast
    · rw [if_neg hlast]
      exact iff_of_true rfl (.inl ⟨pieces, id, rfl, hid, hlast⟩)
  | noData _ =>
    rw [h.postGame_nil]
    refine ⟨.inr, fun hb => hb.resolve_left ?_⟩
    rintro ⟨pieces, id, hsame, -⟩
    exact finished_ne_nil hsame.symm
  | @notAGame _ pieces hid =>
    rw [(h.postGame_whole pieces).1, hid]
    refine ⟨.inr, fun hb => hb.resolve_left ?_⟩
    rintro ⟨pieces', id', hsame, hid', -⟩
    obtain rfl := finished_injective hsame
    rw [hid] at hid'
    cases hid'

end Games

def readGameId : GameIdReader
  | 123 :: 34 :: 105 :: 100 :: 34 :: 58 :: digits => do
    let (digits, rest) := digits.span fun c => 48 ≤ c ∧ c ≤ 57
    if rest = [125] then
      return digits.foldl (fun n c => 10 * n + (c.toNat.toUInt64 - 48)) 0
    else none
  | _ => none

/-- Two games, and a request between them that fails. -/
def twoGames : List BoardMessage :=
  [.newGame (some 7) (finished [[123, 34, 105, 100, 34], [58, 55, 125]]), .move SmakChessMoveT.zero [],
    .newGame none [], .newGame (some 8) (finished [[123, 34, 105, 100, 34, 58, 56, 125]]),
    .move SmakChessMoveT.zero (finished [])]

def failedGame : List BoardMessage :=
  [.newGame (some 7) [.onData [123, 34, 105, 100, 34, 58, 55, 125], .onFinish], .newGame none []]

end SmakChess
