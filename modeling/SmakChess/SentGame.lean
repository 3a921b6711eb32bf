import SmakChess.MoveMessage
import SmakChess.MoveTable
import SmakChess.PlyNumbers
import SmakChess.Simulation
import SmakChess.TrueFens

/-! A legal game from the board to the database: the messages of its plies, what the
ESP posts for them, and the rows these become. -/

namespace SmakChess

open Machine

/-! The board. -/

def SmakPiece.byte (k : SmakPiece) : UInt8 := UInt8.ofNat k.toChar.toNat

/-- The move that `smak_message_move_send` makes of `shell_obj`. -/
def sentMove (obj : SmakJsonObj) : SmakChessMove where
  id := UInt64.ofNat obj.id
  ply := UInt32.ofNat obj.ply
  fromSquare := UInt32.ofNat obj.fromSquare
  toSquare := UInt32.ofNat obj.toSquare
  piece := .single obj.piece.byte
  captured := .single (if obj.captured = .emptySquare then 90 else obj.captured.byte)
  moveType := UInt32.ofNat obj.movetype.number

/-- `smak_message_move_send`: the bytes that it writes to the line. -/
def smakMessageMoveSend (pb : Nanopb) (obj : SmakJsonObj) : Option (List UInt8) :=
  smakChessMoveMsgCreate pb smakMessageSize (sentMove obj)

/-! The ESP and the database service. -/

namespace DbRest

def PiecesEnum.jsonvalue : PiecesEnum → String
  | .king => "K"
  | .queen => "Q"
  | .rook => "R"
  | .bishop => "B"
  | .knight => "N"
  | .pawn => "P"
  | .none => "Z"

def PiecesEnum.ofJson (t : String) : Option PiecesEnum :=
  [PiecesEnum.king, .queen, .rook, .bishop, .knight, .pawn, .none].find? fun k => k.jsonvalue = t

/-- The values of `MoveTypeEnum`. -/
def moveTypeJsonvalue : Chess.MoveType → String
  | .promotion => "promotion"
  | .enPassant => "enpassant"
  | .castling => "castling"
  | .normal => "normal"
  | .nullMove => "nullmove"

def moveTypeOfJson (t : String) : Option Chess.MoveType :=
  [Chess.MoveType.promotion, .enPassant, .castling, .normal, .nullMove].find? fun m =>
    moveTypeJsonvalue m = t

def charText (c : UInt8) : String := String.ofList [Char.ofNat c.toNat]

/-- The body of a `POST /moves` of the ESP as the service reads it, `none` when it does
not. A number is written from a double, which has every id up to `2 ^ 53`. -/
def Move.ofJson (obj : SmakJsonMoveObj) : Option Move := do
  let moveType ← obj.moveType.bind moveTypeOfJson
  let pieceMoved ← PiecesEnum.ofJson (charText obj.piece)
  let pieceCaptured ← PiecesEnum.ofJson (charText obj.captured)
  return { id := obj.id.toNat
           plyNumber := some obj.ply.toNat
           moveType := moveType
           pieceMoved := pieceMoved
           pieceCaptured := pieceCaptured
           fromSquare := some obj.fromSquare.toNat
           toSquare := some obj.toSquare.toNat }

end DbRest

/-- What is posted when the bytes of a move come in one callback. -/
def postOf (pb : Nanopb) (s : Storage) (data : List UInt8) : Option DbRest.Move := do
  let ctx ← handleRx data
  let posted ← postedMove pb s ctx.buffer
  DbRest.Move.ofJson posted.2

/-! The messages of a game. -/

section Messages

variable {st : ChessState} {es : List Event} {q : Ply} {p : Position} {m : Performance}
  {ms : List Performance} {c : Color} {k : SmakPiece} {x y s : Nat}

theorem messages_of_completes (hw : WellFormed st) (hp : ∀ e ∈ es, e.pinNumber < 64)
    (h : Completes st es q) : messages st es = [(es.foldl next st).shellObj] := by
  induction h with
  | last h =>
    have hs := pinChange_eq hw (hp _ (List.mem_singleton_self _))
    simp [messages, outputs, hs, h]
  | cons hn _ ih =>
    obtain ⟨he, hes⟩ := List.forall_mem_cons.mp hp
    have hs := pinChange_eq hw he
    have ih := ih (wellFormed_next hw he) hes
    simpa [messages, outputs, hs, hn] using ih

theorem messages_append {a b : List Event} (hw : WellFormed st) (hp : ∀ e ∈ a, e.pinNumber < 64) :
    messages st (a ++ b) = messages st a ++ messages (a.foldl next st) b :=
  outputs_append_of_ok (run_eq_foldl _ hw hp) b

/-- A message of type normal, of a piece that goes between two squares. -/
structure Reports (obj : SmakJsonObj) (ply x s : Nat) : Prop where
  id : obj.id = 0
  ply : obj.ply = ply
  fromSquare : obj.fromSquare = x
  toSquare : obj.toSquare = s
  piece : obj.piece ≠ .emptySquare
  captured : obj.captured = .emptySquare
  movetype : obj.movetype = .normal

theorem reports_quiet (h : Completes st es (.quiet c k x s))
    (hman : (es.foldl next st).board s ≠ .emptySquare) :
    Reports (es.foldl next st).shellObj ((st.ply + 1) % 256) x s := by
  obtain ⟨t, e, hsame, hq, ht⟩ := h.exists_plyOf
  obtain ⟨hb, -, -, -, hobj⟩ := next_of_quiet hq
  rw [ht, hb] at hman
  rw [ht, hobj, hsame.ply]
  exact ⟨rfl, rfl, rfl, rfl, hman, rfl, rfl⟩

theorem reports_capture (h : Completes st es (.capture c k x y s))
    (hman : (es.foldl next st).board s ≠ .emptySquare) :
    Reports (es.foldl next st).shellObj ((st.ply + 1) % 256) x s := by
  obtain ⟨t, e, hsame, hq, ht⟩ := h.exists_plyOf
  obtain ⟨hb, -, -, -, hobj⟩ := next_of_capture hq
  rw [ht, hb] at hman
  rw [ht, hobj, hsame.ply]
  exact ⟨rfl, rfl, rfl, rfl, hman, rfl, rfl⟩

theorem target_ne_emptySquare (hl : p.legal m.move) (hplain : p.typeOf m.move = .normal) :
    (p.play m.move).board (p.target m.move) ≠ .emptySquare := by
  cases m with
  | quiet x s | capture b x s =>
    have hown : (p.board x).owner = some p.turn := hl.1.2.2.1
    change Function.update _ s _ s ≠ _
    rw [Function.update_self]
    exact crown_ne_emptySquare (ne_emptySquare_of_owner hown)
  | enPassant b x s => cases hplain
  | castle o v => cases hplain

/-- One message for a plain ply. -/
theorem messages_events (h : Simulates p st) (hv : VictimOnBoard p) (hl : p.legal m.move)
    (hs : Supported p st m.move) (hplain : p.typeOf m.move = .normal) :
    ∃ obj, messages st (m.events p.turn) = [obj] ∧
      Reports obj ((st.ply + 1) % 256) (p.source m.move) (p.target m.move) := by
  have hc : Completes st (m.events p.turn) (m.ply p) := by
    apply completes_events h hl
    intro v hmv
    simpa [Supported, hmv] using hs
  refine ⟨_, messages_of_completes h.wellFormed (events_lt hv hl) hc, ?_⟩
  have hboard := (simulates_events h hv hl hs).1.board
  have hman := target_ne_emptySquare hl hplain
  rw [← hboard] at hman
  cases m with
  | quiet x s => exact reports_quiet hc hman
  | capture b x s => exact reports_capture hc hman
  | enPassant b x s => cases hplain
  | castle o v => cases hplain

/-- Every ply finds the flags it needs. -/
def SupportedGame : Position → ChessState → List Performance → Prop
  | _, _, [] => True
  | p, st, m :: ms => Supported p st m.move ∧
      SupportedGame (p.play m.move) ((m.events p.turn).foldl next st) ms

/-- The message of a stored ply. -/
def ReportsRow (obj : SmakJsonObj) (row : StoredMove) : Prop :=
  row.moveType = .normal ∧ ∃ ply x s : Nat, ply < 256 ∧ x < 64 ∧ s < 64 ∧ Reports obj ply x s ∧
    row.plyNumber = ply ∧ row.fromSquare = x ∧ row.toSquare = s

theorem target_lt (hl : p.legal m.move) : p.target m.move < 64 := by
  cases m with
  | quiet x s | capture b x s | enPassant b x s => exact hl.1.2.1
  | castle o v => exact rookStartingsquare_lt p.turn v

/-- The messages of a plain game report the rows that are stored of it, as long as the
counter of plies does not wrap. -/
theorem messages_gameEvents (h : Simulates p st) (hv : VictimOnBoard p)
    (hl : p.legalGame (ms.map Performance.move)) (hplain : p.plainGame (ms.map Performance.move))
    (hs : SupportedGame p st ms) (hlen : st.ply + ms.length ≤ 255) :
    List.Forall₂ ReportsRow (messages st (gameEvents p.turn ms))
      (p.storedFrom (st.ply + 1) (ms.map Performance.move)) := by
  induction ms generalizing p st with
  | nil => exact .nil
  | cons m ms ih =>
    obtain ⟨hm, hms⟩ := hl
    obtain ⟨hnormal, hrest⟩ := hplain
    obtain ⟨hsup, hsups⟩ := hs
    rw [List.length_cons] at hlen
    obtain ⟨obj, hobj, hrep⟩ := messages_events h hv hm hsup hnormal
    have hlt := events_lt hv hm
    have hsim := (simulates_events h hv hm hsup).1
    have hply : ((m.events p.turn).foldl next st).ply = st.ply + 1 := by
      have hc : Completes st (m.events p.turn) (m.ply p) := by
        apply completes_events h hm
        intro v hmv
        simpa [Supported, hmv] using hsup
      rw [hc.ply, Nat.mod_eq_of_lt (by omega)]
    have htail := ih hsim (victimOnBoard_play hm) hms hrest hsups (by rw [hply]; omega)
    rw [gameEvents, messages_append h.wellFormed hlt, hobj, List.map_cons, Position.storedFrom]
    rw [hply] at htail
    rw [Nat.mod_eq_of_lt (by omega)] at hrep
    exact .cons ⟨hnormal, _, _, _, by omega, source_lt hm, target_lt hm, hrep, rfl, rfl, rfl⟩ htail

end Messages

/-! What becomes of a message. -/

section Posts

variable {pb : Nanopb} {s : Storage} {obj : SmakJsonObj} {row : StoredMove} {objs : List SmakJsonObj}
  {rows : List StoredMove} {k : SmakPiece} {id : Nat}

/-- The id under which the ESP posts. -/
def postingId (s : Storage) : Nat := (smakGameidCurrentGet .works s).toNat

/-- The row that a message of the board becomes, with its key. -/
def rowOfMessage (pb : Nanopb) (s : Storage) (obj : SmakJsonObj) : Option (DbRest.MoveId × DbRest.MoveRow) := do
  let bytes ← smakMessageMoveSend pb obj
  let posted ← postOf pb s bytes
  posted.row

theorem exists_pieceOfJson (h : k ≠ .emptySquare) :
    ∃ piece, DbRest.PiecesEnum.ofJson (DbRest.charText (toupper k.byte)) = some piece := by
  cases k with
  | emptySquare => exact absurd rfl h
  | man color kind => cases color <;> cases kind <;> exact ⟨_, rfl⟩

theorem smakMessageMoveSend_of_reports (hwire : pb.encode = pbEncode) (h : ReportsRow obj row) :
    ∃ bytes, smakMessageMoveSend pb obj = some bytes ∧ RoundTrips pb bytes (sentMove obj) := by
  obtain ⟨-, ply, x, t, hply, hx, ht, hrep, -⟩ := h
  have hsend : Sendable (sentMove obj) := ⟨⟨_, rfl⟩, ⟨_, rfl⟩, .normal, by rw [sentMove, hrep.movetype]; rfl⟩
  have hshort : ¬ Longest (sentMove obj) := by
    have hzero : (sentMove obj).id = 0 := by
      rw [sentMove, hrep.id]
      rfl
    rintro ⟨hid, -⟩
    rw [hzero] at hid
    exact absurd hid (by decide)
  have hlen := (length_lt_iff hsend).mpr hshort
  have hcreate : smakMessageMoveSend pb obj = some (pb.encode (.move (sentMove obj))) := by
    rw [smakMessageMoveSend, smakChessMoveMsgCreate, msgCreate, if_neg (Nat.lt_irrefl _),
      if_pos (by rw [hwire]; exact hlen.le)]
  exact ⟨_, hcreate, (roundTrips_iff_length hwire hcreate).mpr hlen⟩

/-- A message that reports a row becomes that row, under the id that the ESP has. -/
theorem rowOfMessage_of_reports (hwire : pb.encode = pbEncode) (h : ReportsRow obj row) :
    ∃ r, rowOfMessage pb s obj = some (⟨postingId s, row.plyNumber⟩, r) ∧
      DbRest.Store.storedMove ⟨postingId s, row.plyNumber⟩ r = row := by
  obtain ⟨bytes, hbytes, ctx, hrx, hdecode⟩ := smakMessageMoveSend_of_reports hwire h
  obtain ⟨htype, ply, x, t, hply, hx, ht, hrep, hn, hfrom, hto⟩ := h
  obtain ⟨piece, hpiece⟩ := exists_pieceOfJson hrep.piece
  have hzero : (sentMove obj).captured = .single 90 := by
    rw [sentMove, if_pos hrep.captured]
  have hposted : postedMove pb s ctx.buffer = some (0, ⟨smakGameidCurrentGet .works s,
      (sentMove obj).ply, (sentMove obj).fromSquare.toUInt16, (sentMove obj).toSquare.toUInt16,
      toupper obj.piece.byte, toupper 90, moveTypeStrings[(sentMove obj).moveType.toNat]?⟩) := by
    rw [postedMove, hdecode]
    simp only [smakJsonMoveObjInternalGetFromPb, Pb.moveOf, hzero]
    rfl
  have hcaptured : DbRest.PiecesEnum.ofJson (DbRest.charText (toupper 90)) = some .none := by decide
  have hnormal : (moveTypeStrings[(sentMove obj).moveType.toNat]?).bind DbRest.moveTypeOfJson =
      some .normal := by
    have hnumber : (sentMove obj).moveType = 3 := by
      rw [sentMove, hrep.movetype]
      rfl
    rw [hnumber]
    decide
  have hpost : postOf pb s bytes = some ⟨some (postingId s), some (sentMove obj).ply.toNat,
      some .normal, some piece, some .none, some (sentMove obj).fromSquare.toUInt16.toNat,
      some (sentMove obj).toSquare.toUInt16.toNat⟩ := by
    simp only [postOf, hrx, hposted, DbRest.Move.ofJson, hnormal, hpiece, hcaptured,
      Option.bind_eq_bind, Option.bind_some]
    rfl
  have hsize : UInt32.size = 4294967296 := rfl
  have hplyNat : (sentMove obj).ply.toNat = ply := by
    rw [sentMove, hrep.ply]
    exact UInt32.toNat_ofNat_of_lt' (by omega)
  have hnarrow {n : Nat} (hlt : n < 64) : (UInt32.ofNat n).toUInt16.toNat = n := by
    have hwide : (UInt32.ofNat n).toNat = n := UInt32.toNat_ofNat_of_lt' (by omega)
    rw [UInt32.toNat_toUInt16, hwide, Nat.mod_eq_of_lt (by omega)]
  have hfromNat : (sentMove obj).fromSquare.toUInt16.toNat = x := by
    rw [sentMove, hrep.fromSquare]
    exact hnarrow hx
  have htoNat : (sentMove obj).toSquare.toUInt16.toNat = t := by
    rw [sentMove, hrep.toSquare]
    exact hnarrow ht
  refine ⟨⟨.normal, piece, .none, x, t⟩, ?_, ?_⟩
  · simp only [rowOfMessage, hbytes, hpost, hplyNat, hfromNat, htoNat, Option.bind_eq_bind, Option.bind_some,
      DbRest.Move.row, hn]
    rfl
  · obtain ⟨plyNumber, moveType, fromSquare, toSquare⟩ := row
    dsimp only at htype hn hfrom hto
    rw [htype, hfrom, hto]
    rfl

/-- The rows of a game. -/
def rowsOfMessages (pb : Nanopb) (s : Storage) (objs : List SmakJsonObj) :
    List (DbRest.MoveId × DbRest.MoveRow) := objs.filterMap (rowOfMessage pb s)

theorem rowsOfMessages_of_reports (hwire : pb.encode = pbEncode) (h : List.Forall₂ ReportsRow objs rows) :
    (rowsOfMessages pb s objs).map (fun r => DbRest.Store.storedMove r.1 r.2) = rows ∧
      (rowsOfMessages pb s objs).map Prod.fst = rows.map fun row => ⟨postingId s, row.plyNumber⟩ := by
  induction h with
  | nil => exact ⟨rfl, rfl⟩
  | cons hrep _ ih =>
    obtain ⟨r, hr, hstored⟩ := rowOfMessage_of_reports (s := s) hwire hrep
    rw [rowsOfMessages, List.filterMap_cons_some hr, ← rowsOfMessages]
    exact ⟨by rw [List.map_cons, hstored, ih.1], by rw [List.map_cons, ih.2, List.map_cons]⟩

theorem mem_rowsOfMessages {r : DbRest.MoveId × DbRest.MoveRow} (h : r ∈ rowsOfMessages pb s objs) :
    ∃ obj ∈ objs, ∃ bytes m, smakMessageMoveSend pb obj = some bytes ∧ postOf pb s bytes = some m ∧
      m.row = some r := by
  obtain ⟨obj, hobj, hr⟩ := List.mem_filterMap.mp h
  simp only [rowOfMessage, Option.bind_eq_bind, Option.bind_eq_some_iff] at hr
  obtain ⟨bytes, hbytes, m, hm, hrow⟩ := hr
  exact ⟨obj, hobj, bytes, m, hbytes, hm, hrow⟩

end Posts

/-! The rows of a game. -/

section Stored

variable {p : Position} {ms : List Move} {n : Nat}

theorem le_plyNumber_storedFrom : ∀ row ∈ p.storedFrom n ms, (n : Int) ≤ row.plyNumber := by
  induction ms generalizing p n with
  | nil => exact fun row hrow => absurd hrow List.not_mem_nil
  | cons m ms ih =>
    intro row hrow
    rcases List.mem_cons.mp hrow with rfl | hrow
    · exact le_rfl
    · have hle := ih row hrow
      omega

theorem pairwise_storedFrom (p : Position) (n : Nat) (ms : List Move) :
    (p.storedFrom n ms).Pairwise fun a b => a.plyNumber < b.plyNumber := by
  induction ms generalizing p n with
  | nil => exact .nil
  | cons m ms ih =>
    refine .cons (fun row hrow => ?_) (ih _ _)
    have hle := le_plyNumber_storedFrom row hrow
    change (n : Int) < _
    omega

/-- Rows in the order of their numbers are the game's, once they are its rows. -/
theorem eq_storedFrom_of_perm {rows : List StoredMove} (h : rows.Perm (p.storedFrom n ms))
    (hsorted : rows.Pairwise fun a b => a.plyNumber ≤ b.plyNumber) : rows = p.storedFrom n ms := by
  have hstrict := pairwise_storedFrom p n ms
  have hd : ((p.storedFrom n ms).map StoredMove.plyNumber).Nodup :=
    List.pairwise_map.mpr (hstrict.imp fun hlt => hlt.ne)
  refine List.Perm.eq_of_pairwise (fun a b ha hb hab hba => ?_) hsorted (hstrict.imp fun hlt => hlt.le) h
  exact List.inj_on_of_nodup_map hd (h.subset ha) hb (le_antisymm hab hba)

end Stored

/-- The messages of a game reach the database as one post or more each, in any order
and among any other requests, and all requests have been answered. -/
structure Reaches (pb : Nanopb) (esp : Storage) (onMissing : DbRest.OnMissing) (objs : List SmakJsonObj)
    (s : DbRest.Store) (es : List DbRest.StoreEvent) : Prop where
  exact : postingId esp ≤ 2 ^ 53
  game : (s.games.row (postingId esp)).isSome = true
  new : ∀ k ∈ s.moves.keys, k.id ≠ postingId esp
  idle : ∀ m ∈ s.checked, m.id ≠ some (postingId esp)
  only : ∀ m, .addMove m ∈ es → m.id = some (postingId esp) →
    ∃ obj ∈ objs, ∃ bytes, smakMessageMoveSend pb obj = some bytes ∧ postOf pb esp bytes = some m
  all : ∀ obj ∈ objs, ∀ bytes m, smakMessageMoveSend pb obj = some bytes →
    postOf pb esp bytes = some m → .addMove m ∈ es
  done : (s.run onMissing es).checked = []

/-- The rows of a plain game that has been played from a reset are its plies. -/
theorem rows_of_reaches {pb : Nanopb} (hwire : pb.encode = pbEncode) {esp : Storage}
    {onMissing : DbRest.OnMissing} {s : DbRest.Store} {es : List DbRest.StoreEvent}
    (st₀ : ChessState) {ms : List Performance} (hl : Position.initial.legalGame (ms.map Performance.move))
    (hplain : Position.initial.plainGame (ms.map Performance.move))
    (hs : SupportedGame .initial (resetFsm st₀) ms) (hlen : ms.length ≤ 255)
    (h : Reaches pb esp onMissing (messages (resetFsm st₀) (gameEvents .white ms)) s es) {rows : List StoredMove}
    (hrows : ((s.run onMissing es).getAllByGameId (postingId esp)).Rows rows) :
    rows.Perm (Position.initial.storedFrom 1 (ms.map Performance.move)) := by
  have hreports : List.Forall₂ ReportsRow (messages (resetFsm st₀) (gameEvents .white ms))
      (Position.initial.storedFrom 1 (ms.map Performance.move)) :=
    messages_gameEvents (simulates_initial st₀) victimOnBoard_initial hl hplain hs (by
      rw [show (resetFsm st₀).ply = 0 from rfl]
      omega)
  obtain ⟨hmoves, hkeys⟩ := rowsOfMessages_of_reports (s := esp) hwire hreports
  have hplies := pairwise_storedFrom .initial 1 (ms.map Performance.move)
  have hd : ((rowsOfMessages pb esp (messages (resetFsm st₀) (gameEvents .white ms))).map Prod.fst).Nodup := by
    rw [hkeys]
    refine List.pairwise_map.mpr (hplies.imp fun hlt heq => ?_)
    rw [DbRest.MoveId.mk.injEq] at heq
    exact hlt.ne heq.2
  have hid : ∀ r ∈ rowsOfMessages pb esp (messages (resetFsm st₀) (gameEvents .white ms)),
      r.1.id = postingId esp := by
    intro r hr
    have hmem := List.mem_map_of_mem (f := Prod.fst) hr
    rw [hkeys] at hmem
    obtain ⟨row, -, heq⟩ := List.mem_map.mp hmem
    rw [← heq]
  have hstart : DbRest.Delivering (postingId esp) (rowsOfMessages pb esp (messages (resetFsm st₀)
    (gameEvents .white ms))) [] s := .start h.game h.new h.idle
  have hrun : DbRest.Delivering (postingId esp) _ _ (s.run onMissing es) := hstart.run hd
    fun m hm r hr hg => by
      obtain ⟨obj, hobj, bytes, hbytes, hpost⟩ := h.only m hm (hg ▸ DbRest.Move.id_of_row hr)
      refine List.mem_filterMap.mpr ⟨obj, hobj, ?_⟩
      simp only [rowOfMessage, hbytes, hpost, Option.bind_eq_bind, Option.bind_some, hr]
  have hperm := hrun.perm hd hid (fun r hr => by
    obtain ⟨obj, hobj, bytes, m, hbytes, hpost, hrow⟩ := mem_rowsOfMessages hr
    exact ⟨m, DbRest.mem_posts (h.all obj hobj bytes m hbytes hpost), hrow⟩) h.done
  rw [hmoves] at hperm
  exact List.Perm.trans hrows hperm

end SmakChess
