import SmakChess.FenList
import SmakChess.Objects
import SmakChess.PatchRows
import SmakChess.Pipeline

/-! The games and moves of the database service. A move is checked and saved by two
repository calls, between which those of other requests may fall. -/

namespace SmakChess.DbRest

open Objects Tables

inductive PiecesEnum
  | king
  | queen
  | rook
  | bishop
  | knight
  | pawn
  | none
  deriving DecidableEq, Repr

structure Game where
  id : Option Nat
  gamestate : Option Gamestate
  gamestart : Option Int
  boardId : Option Nat
  deriving DecidableEq, Repr

structure GameRow where
  gamestate : Gamestate
  gamestart : Option Int
  boardId : Nat
  deriving DecidableEq, Repr

/-- A move as it is posted, where `id` is that of its game. -/
structure Move where
  id : Option Nat
  plyNumber : Option Int
  moveType : Option Chess.MoveType
  pieceMoved : Option PiecesEnum
  pieceCaptured : Option PiecesEnum
  fromSquare : Option Int
  toSquare : Option Int
  deriving DecidableEq, Repr

structure MoveId where
  id : Nat
  plyNumber : Int
  deriving DecidableEq, Repr

structure MoveRow where
  moveType : Chess.MoveType
  pieceMoved : PiecesEnum
  pieceCaptured : PiecesEnum
  fromSquare : Int
  toSquare : Int
  deriving DecidableEq, Repr

/-- The tables, and the moves that have been checked and not saved yet. Every one of
these and of the saved moves has a game. -/
structure Store where
  boards : Table BoardRow
  games : Table GameRow
  moves : Object MoveId MoveRow
  checked : List Move
  gameOf : ∀ k ∈ moves.keys, (games.row k.id).isSome = true
  gameOfChecked : ∀ m ∈ checked, ∃ id, m.id = some id ∧ (games.row id).isSome = true

inductive RestError
  | gameNotFound (id : Option Nat)
  | dataIntegrity
  deriving DecidableEq, Repr

/-- The text of a `GameNotFoundException`. -/
def RestError.message : RestError → Option String
  | .gameNotFound id =>
    some ("Game with id " ++ (id.map toString).getD "null" ++ " does not exist in the database.")
  | .dataIntegrity => Option.none

/-- No column of `moves` is null. -/
def Move.row (m : Move) : Option (MoveId × MoveRow) := do
  let id ← m.id
  let plyNumber ← m.plyNumber
  let moveType ← m.moveType
  let pieceMoved ← m.pieceMoved
  let pieceCaptured ← m.pieceCaptured
  let fromSquare ← m.fromSquare
  let toSquare ← m.toSquare
  return (⟨id, plyNumber⟩, ⟨moveType, pieceMoved, pieceCaptured, fromSquare, toSquare⟩)

theorem isSome_put {α : Type*} {t : Table α} {i j : Nat} {a : α} (h : (t.row j).isSome = true) :
    ((t.put i a).row j).isSome = true := by
  rw [put_row]
  split
  · rfl
  · exact h

namespace Store

/-- The first repository call of `MoveService.saveMove`. -/
def checkGameId (s : Store) (m : Move) : Except RestError Store :=
  match hid : m.id with
  | some id =>
    if h : (s.games.row id).isSome = true then
      .ok { s with
        checked := s.checked ++ [m]
        gameOfChecked := fun n hn => (List.mem_append.mp hn).elim (s.gameOfChecked n) fun hm =>
          ⟨id, List.mem_singleton.mp hm ▸ hid, h⟩ }
    else .error (.gameNotFound (some id))
  | none => .error (.gameNotFound Option.none)

/-- The request with index `i` is answered. -/
def answer (s : Store) (i : Nat) : Store := { s with
  checked := s.checked.eraseIdx i
  gameOfChecked := fun n hn => s.gameOfChecked n (List.mem_of_mem_eraseIdx hn) }

/-- The second one, for the checked move with index `i`. A row with its key is
written over. -/
def saveMove (s : Store) (i : Nat) : Except RestError Store :=
  match hm : s.checked[i]? with
  | none => .ok s
  | some m =>
    match hrow : m.row with
    | none => .error .dataIntegrity
    | some (k, row) =>
      .ok { s.answer i with
        moves := s.moves.set k row
        gameOf := fun j hj => by
          rw [mem_keys, get_set] at hj
          by_cases hjk : j = k
          · obtain ⟨id, hid, hgame⟩ := s.gameOfChecked m (List.mem_of_getElem? hm)
            have hk : k.id = id := by
              simp only [Move.row, hid, Option.bind_eq_bind, Option.bind_some,
                Option.bind_eq_some_iff] at hrow
              obtain ⟨n, -, t, -, a, -, b, -, x, -, y, -, heq⟩ := hrow
              obtain ⟨rfl, -⟩ := by simpa using heq
              rfl
            rw [hjk, hk]
            exact hgame
          · rw [if_neg hjk] at hj
            exact s.gameOf j (mem_keys.mpr hj) }

/-- A row of `games` is written. -/
def putGame (s : Store) (id : Nat) (row : GameRow) : Store := { s with
  games := s.games.put id row
  gameOf := fun k hk => isSome_put (s.gameOf k hk)
  gameOfChecked := fun m hm => by
    obtain ⟨i, hi, hgame⟩ := s.gameOfChecked m hm
    exact ⟨i, hi, isSome_put hgame⟩ }

/-- `GameController.addGame`. -/
def addGame (onMissing : OnMissing) (s : Store) (g : Game) : Except RestError Store :=
  match g.gamestate, g.boardId, idSaved onMissing s.games g.id with
  | some gamestate, some boardId, some id =>
    if (s.boards.row boardId).isSome then .ok (s.putGame id ⟨gamestate, g.gamestart, boardId⟩)
    else .error .dataIntegrity
  | _, _, _ => .error .dataIntegrity

/-- `GameController.updateGame`, which sets the state only. -/
def updateGame (s : Store) (id : Nat) (updated : Game) : Except RestError Store :=
  match s.games.row id with
  | none => .error (.gameNotFound (some id))
  | some current =>
    match updated.gamestate with
    | none => .error .dataIntegrity
    | some gamestate => .ok (s.putGame id { current with gamestate := gamestate })

def storedMove (k : MoveId) (row : MoveRow) : StoredMove :=
  ⟨k.plyNumber, row.moveType, row.fromSquare, row.toSquare⟩

theorem nodup_plyNumber (s : Store) (id : Nat) :
    (((s.moves.entries.filter fun e => e.1.id = id).map fun e => storedMove e.1 e.2).map
      StoredMove.plyNumber).Nodup := by
  have hkeys : ((s.moves.entries.filter fun e => e.1.id = id).map Prod.fst).Nodup :=
    s.moves.nodup.sublist (List.filter_sublist.map Prod.fst)
  have hentries := hkeys.of_map
  rw [List.nodup_map_iff_inj_on hentries] at hkeys
  rw [List.map_map, List.nodup_map_iff_inj_on hentries]
  intro e he f hf heq
  refine hkeys e he f hf ?_
  have hid : e.1.id = id := by simpa using (List.mem_filter.mp he).2
  have hid' : f.1.id = id := by simpa using (List.mem_filter.mp hf).2
  obtain ⟨⟨i, n⟩, row⟩ := e
  obtain ⟨⟨j, n'⟩, row'⟩ := f
  exact MoveId.mk.injEq .. ▸ ⟨hid.trans hid'.symm, heq⟩

/-- `MoveService.getAllByGameId`, whose query has no order. -/
def getAllByGameId (s : Store) (id : Nat) : StoredGame where
  moves := (s.moves.entries.filter fun e => e.1.id = id).map fun e => storedMove e.1 e.2
  distinct := s.nodup_plyNumber id

end Store

/-- The repository calls of the requests, in the order in which they are made. -/
inductive StoreEvent
  | addGame (g : Game)
  | updateGame (id : Nat) (g : Game)
  | addMove (m : Move)
  | saveMove (i : Nat)
  deriving DecidableEq, Repr

/-- A call that fails leaves the tables, and the request is answered. -/
def Store.step (onMissing : OnMissing) (s : Store) : StoreEvent → Store
  | .addGame g => (s.addGame onMissing g).toOption.getD s
  | .updateGame id g => (s.updateGame id g).toOption.getD s
  | .addMove m => (s.checkGameId m).toOption.getD s
  | .saveMove i => (s.saveMove i).toOption.getD (s.answer i)

def Store.run (onMissing : OnMissing) (s : Store) (es : List StoreEvent) : Store :=
  es.foldl (Store.step onMissing) s

/-! What one call does. -/

section Calls

variable {onMissing : OnMissing} {s : Store} {e : StoreEvent} {m : Move} {k : MoveId} {row : MoveRow}
  {id i : Nat}

theorem checked_step (onMissing : OnMissing) (s : Store) (e : StoreEvent) : (s.step onMissing e).checked =
    match e with
    | .addMove m => if (m.id.bind s.games.row).isSome then s.checked ++ [m] else s.checked
    | .saveMove i => s.checked.eraseIdx i
    | _ => s.checked := by
  cases e with
  | addGame g =>
    simp only [Store.step, Store.addGame]
    split
    · split <;> rfl
    · rfl
  | updateGame id g =>
    simp only [Store.step, Store.updateGame]
    split
    · rfl
    · split <;> rfl
  | addMove m =>
    simp only [Store.step, Store.checkGameId]
    split
    next id hid =>
      simp only [hid, Option.bind_some]
      split <;> rfl
    next hid =>
      simp only [hid, Option.bind_none]
      rfl
  | saveMove i =>
    simp only [Store.step, Store.saveMove]
    split
    next hnone => exact (List.eraseIdx_of_length_le (List.getElem?_eq_none_iff.mp hnone)).symm
    · split <;> rfl

/-- A move of no game is refused by the id it has, and leaves everything as it is. -/
theorem checkGameId_error {f : RestError} (h : s.checkGameId m = .error f) :
    f.message = some ("Game with id " ++ (m.id.map toString).getD "null" ++
      " does not exist in the database.") ∧ s.step onMissing (.addMove m) = s := by
  constructor
  · unfold Store.checkGameId at h
    split at h
    next id hid =>
      split at h
      · cases h
      · obtain rfl := Except.error.inj h
        rw [hid, RestError.message]
    next hid =>
      obtain rfl := Except.error.inj h
      rw [hid, RestError.message]
  · rw [Store.step, h]
    rfl

theorem moves_step (onMissing : OnMissing) (s : Store) (e : StoreEvent) : (s.step onMissing e).moves =
    match e with
    | .saveMove i => ((s.checked[i]?.bind Move.row).map fun r => s.moves.set r.1 r.2).getD s.moves
    | _ => s.moves := by
  cases e with
  | addGame g =>
    simp only [Store.step, Store.addGame]
    split
    · split <;> rfl
    · rfl
  | updateGame id g =>
    simp only [Store.step, Store.updateGame]
    split
    · rfl
    · split <;> rfl
  | addMove m =>
    simp only [Store.step, Store.checkGameId]
    split
    · split <;> rfl
    · rfl
  | saveMove i =>
    simp only [Store.step, Store.saveMove]
    split
    next hnone => simp only [hnone, Option.bind_none]; rfl
    next m hm =>
      simp only [hm, Option.bind_some]
      split
      next hrow => simp only [hrow]; rfl
      next k row hrow => simp only [hrow]; rfl

/-- No game is removed. -/
theorem games_step (h : (s.games.row id).isSome = true) :
    ((s.step onMissing e).games.row id).isSome = true := by
  cases e with
  | addGame g =>
    simp only [Store.step, Store.addGame]
    split
    · split
      · exact isSome_put h
      · exact h
    · exact h
  | updateGame i g =>
    simp only [Store.step, Store.updateGame]
    split
    · exact h
    · split
      · exact h
      · exact isSome_put h
  | addMove m =>
    simp only [Store.step, Store.checkGameId]
    split
    · split <;> exact h
    · exact h
  | saveMove i =>
    simp only [Store.step, Store.saveMove]
    split
    · exact h
    · split <;> exact h

theorem Move.id_of_row (h : m.row = some (k, row)) : m.id = some k.id := by
  simp only [Move.row, Option.bind_eq_bind, Option.bind_eq_some_iff] at h
  obtain ⟨id, hid, n, -, t, -, a, -, b, -, x, -, y, -, heq⟩ := h
  obtain ⟨rfl, -⟩ := by simpa using heq
  exact hid

end Calls

/-! The moves of one game, posted in any order and more than once. -/

section Delivery

variable {onMissing : OnMissing} {s : Store} {e : StoreEvent} {es : List StoreEvent} {m : Move}
  {k : MoveId} {row : MoveRow} {g : Nat} {plies : List (MoveId × MoveRow)} {posted : List Move}

/-- A posted move of the game is waiting to be saved or is in its row, and all of its
rows are moves of the game. -/
structure Delivering (g : Nat) (plies : List (MoveId × MoveRow)) (posted : List Move) (s : Store) :
    Prop where
  game : (s.games.row g).isSome = true
  checked : ∀ m ∈ s.checked, ∀ r, m.row = some r → r.1.id = g → r ∈ plies
  rows : ∀ k row, s.moves.get k = some row → k.id = g → (k, row) ∈ plies
  posted : ∀ m ∈ posted, ∀ r, m.row = some r → r.1.id = g →
    m ∈ s.checked ∨ s.moves.get r.1 = some r.2

def StoreEvent.post : StoreEvent → List Move
  | .addMove m => [m]
  | _ => []

theorem eq_of_key (hd : (plies.map Prod.fst).Nodup) {row' : MoveRow} (h : (k, row) ∈ plies)
    (h' : (k, row') ∈ plies) : row = row' :=
  (Prod.mk.inj (List.inj_on_of_nodup_map hd h h' rfl)).2

theorem Delivering.step (h : Delivering g plies posted s) (hd : (plies.map Prod.fst).Nodup)
    (he : ∀ m, e = .addMove m → ∀ r, m.row = some r → r.1.id = g → r ∈ plies) :
    Delivering g plies (posted ++ e.post) (s.step onMissing e) := by
  have hchecked := checked_step onMissing s e
  have hmoves := moves_step onMissing s e
  cases e with
  | addGame _ | updateGame _ _ =>
    dsimp only at hchecked hmoves
    refine ⟨games_step h.game, ?_, ?_, ?_⟩
    · rw [hchecked]
      exact h.checked
    · rw [hmoves]
      exact h.rows
    · rw [hchecked, hmoves]
      simpa [StoreEvent.post] using h.posted
  | addMove m =>
    dsimp only at hchecked hmoves
    refine ⟨games_step h.game, ?_, ?_, ?_⟩
    · rw [hchecked]
      split
      · intro n hn
        rcases List.mem_append.mp hn with hn | hn
        · exact h.checked n hn
        · exact List.mem_singleton.mp hn ▸ he m rfl
      · exact h.checked
    · rw [hmoves]
      exact h.rows
    · rw [hchecked, hmoves]
      intro n hn r hr hg
      rcases List.mem_append.mp hn with hn | hn
      · refine (h.posted n hn r hr hg).imp_left fun hmem => ?_
        split
        · exact List.mem_append_left _ hmem
        · exact hmem
      · -- the game is there, so the check lets the move through
        obtain rfl : n = m := List.mem_singleton.mp hn
        have hgame : (n.id.bind s.games.row).isSome = true := by
          rw [Move.id_of_row hr, hg]
          exact h.game
        left
        simp [hgame]
  | saveMove i =>
    dsimp only at hchecked hmoves
    refine ⟨games_step h.game, ?_, ?_, ?_⟩
    · rw [hchecked]
      exact fun n hn => h.checked n (List.mem_of_mem_eraseIdx hn)
    · rw [hmoves]
      intro k row hget hg
      cases hr : s.checked[i]?.bind Move.row with
      | none =>
        rw [hr] at hget
        exact h.rows k row hget hg
      | some r =>
        rw [hr, Option.map_some, Option.getD_some, get_set] at hget
        split at hget
        next hk =>
          obtain ⟨m, hm, hrow⟩ := Option.bind_eq_some_iff.mp hr
          obtain rfl := Option.some.inj hget
          subst hk
          exact h.checked m (List.mem_of_getElem? hm) r hrow hg
        · exact h.rows k row hget hg
    · rw [hchecked, hmoves]
      intro n hn r hr hg
      rw [show (StoreEvent.saveMove i).post = [] from rfl, List.append_nil] at hn
      cases hs : s.checked[i]?.bind Move.row with
      | none =>
        rw [Option.map_none, Option.getD_none]
        refine (h.posted n hn r hr hg).imp_left fun hmem => ?_
        obtain ⟨j, hj⟩ := List.mem_iff_getElem?.mp hmem
        have hne : j ≠ i := by
          rintro rfl
          rw [hj, Option.bind_some, hr] at hs
          cases hs
        exact List.mem_eraseIdx_iff_getElem?.mpr ⟨j, hne, hj⟩
      | some q =>
        obtain ⟨m, hm, hq⟩ := Option.bind_eq_some_iff.mp hs
        rw [Option.map_some, Option.getD_some, get_set]
        by_cases hk : r.1 = q.1
        · -- the row that is written is the one of this move
          have hqg : q.1.id = g := hk ▸ hg
          have hqm := h.checked m (List.mem_of_getElem? hm) q hq hqg
          have hrm : r ∈ plies := by
            rcases h.posted n hn r hr hg with hmem | hget
            · exact h.checked n hmem r hr hg
            · exact h.rows r.1 r.2 hget hg
          right
          rw [if_pos hk]
          have hsame : (q.1, r.2) ∈ plies := hk ▸ hrm
          exact congrArg some (eq_of_key hd hqm hsame)
        · rw [if_neg hk]
          refine (h.posted n hn r hr hg).imp_left fun hmem => ?_
          obtain ⟨j, hj⟩ := List.mem_iff_getElem?.mp hmem
          have hne : j ≠ i := by
            rintro rfl
            obtain rfl := Option.some.inj (hj.symm.trans hm)
            exact hk (congrArg Prod.fst (Option.some.inj (hr.symm.trans hq)))
          exact List.mem_eraseIdx_iff_getElem?.mpr ⟨j, hne, hj⟩

theorem Delivering.run (h : Delivering g plies posted s) (hd : (plies.map Prod.fst).Nodup)
    (he : ∀ m, .addMove m ∈ es → ∀ r, m.row = some r → r.1.id = g → r ∈ plies) :
    Delivering g plies (posted ++ es.flatMap StoreEvent.post) (s.run onMissing es) := by
  induction es generalizing s posted with
  | nil => simpa [Store.run] using h
  | cons e es ih =>
    have hstep : Delivering g plies (posted ++ e.post) (s.step onMissing e) :=
      h.step hd fun m hm => he m (hm ▸ List.mem_cons_self)
    have hrun := ih hstep fun m hm => he m (List.mem_cons_of_mem e hm)
    rwa [List.append_assoc, ← List.flatMap_cons] at hrun

theorem Delivering.start (hgame : (s.games.row g).isSome = true) (hnew : ∀ k ∈ s.moves.keys, k.id ≠ g)
    (hidle : ∀ m ∈ s.checked, m.id ≠ some g) : Delivering g plies [] s := by
  refine ⟨hgame, fun m hm r hr hg => ?_, fun k row hget hg => ?_, fun m hm => ?_⟩
  · exact absurd (hg ▸ Move.id_of_row hr) (hidle m hm)
  · exact absurd hg (hnew k (mem_keys.mpr ⟨row, hget⟩))
  · cases hm

/-- Once no move waits, the rows of the game are its moves. -/
theorem Delivering.perm (h : Delivering g plies posted s) (hd : (plies.map Prod.fst).Nodup)
    (hid : ∀ r ∈ plies, r.1.id = g) (hall : ∀ r ∈ plies, ∃ m ∈ posted, m.row = some r)
    (hdone : s.checked = []) :
    (s.getAllByGameId g).moves.Perm (plies.map fun r => Store.storedMove r.1 r.2) := by
  have hentries : (s.moves.entries.filter fun e => e.1.id = g).Perm plies := by
    refine (List.perm_ext_iff_of_nodup (s.moves.nodup.of_map.filter _) hd.of_map).mpr
      fun ⟨k, row⟩ => ?_
    rw [List.mem_filter, mem_entries, decide_eq_true_eq]
    constructor
    · rintro ⟨hget, hg⟩
      exact h.rows k row hget hg
    · intro hmem
      refine ⟨?_, hid _ hmem⟩
      obtain ⟨m, hm, hrow⟩ := hall _ hmem
      rcases h.posted m hm _ hrow (hid _ hmem) with hwait | hget
      · rw [hdone] at hwait
        cases hwait
      · exact hget
  exact hentries.map _

theorem mem_posts (h : .addMove m ∈ es) : m ∈ es.flatMap StoreEvent.post :=
  List.mem_flatMap.mpr ⟨_, h, List.mem_singleton_self m⟩

end Delivery

/-- The moves of a game that is there may be posted in any order, more than once and
among any other requests: once all are answered, the rows of the game are its moves. -/
theorem delivered (onMissing : OnMissing) (s : Store) (es : List StoreEvent) (g : Nat)
    (plies : List (MoveId × MoveRow)) (hgame : (s.games.row g).isSome = true)
    (hnew : ∀ k ∈ s.moves.keys, k.id ≠ g) (hidle : ∀ m ∈ s.checked, m.id ≠ some g)
    (hd : (plies.map Prod.fst).Nodup) (hid : ∀ r ∈ plies, r.1.id = g)
    (honly : ∀ m, .addMove m ∈ es → ∀ r, m.row = some r → r.1.id = g → r ∈ plies)
    (hall : ∀ r ∈ plies, ∃ m, .addMove m ∈ es ∧ m.row = some r)
    (hdone : (s.run onMissing es).checked = []) :
    ∀ rows, ((s.run onMissing es).getAllByGameId g).Rows rows →
      rows.Perm (plies.map fun r => Store.storedMove r.1 r.2) := by
  intro rows hrows
  have hstart : Delivering g plies [] s := .start hgame hnew hidle
  have hrun : Delivering g plies _ (s.run onMissing es) := hstart.run hd honly
  refine List.Perm.trans hrows (hrun.perm hd hid (fun r hr => ?_) hdone)
  obtain ⟨m, hm, hrow⟩ := hall r hr
  exact ⟨m, mem_posts hm, hrow⟩

def oneGame : Store where
  boards := .empty
  games := Table.empty.put 0 ⟨.notStarted, none, 0⟩
  moves := .empty
  checked := []
  gameOf _ hk := absurd hk List.not_mem_nil
  gameOfChecked _ hm := absurd hm List.not_mem_nil

def firstPlies : List (MoveId × MoveRow) :=
  [(⟨0, 1⟩, ⟨.normal, .pawn, .none, 52, 36⟩), (⟨0, 2⟩, ⟨.normal, .pawn, .none, 12, 28⟩)]

def firstPosts : List Move :=
  [⟨some 0, some 1, some .normal, some .pawn, some .none, some 52, some 36⟩,
    ⟨some 0, some 2, some .normal, some .pawn, some .none, some 12, some 28⟩]

/-- The second move comes first, and again while both are being saved. -/
def firstRequests : List StoreEvent :=
  (firstPosts.reverse.map StoreEvent.addMove) ++ [.saveMove 1] ++
    (firstPosts.drop 1).map StoreEvent.addMove ++ [.saveMove 0, .saveMove 0]

theorem mem_firstPosts {m : Move} (h : .addMove m ∈ firstRequests) : m ∈ firstPosts := by
  simp only [firstRequests, firstPosts, List.reverse_cons, List.reverse_nil, List.nil_append,
    List.cons_append, List.map_cons, List.map_nil, List.drop_succ_cons, List.drop_zero, List.mem_cons,
    StoreEvent.addMove.injEq, reduceCtorEq, List.not_mem_nil, or_false, false_or] at h ⊢
  rcases h with rfl | rfl | rfl <;> simp

/-- The rows of the two moves, in the order that is not theirs. -/
def rowsSwapped : List StoredMove := [⟨2, .normal, 12, 28⟩, ⟨1, .normal, 52, 36⟩]

theorem delivered_two : ((oneGame.run some firstRequests).getAllByGameId 0).Rows rowsSwapped ∧
    rowsSwapped.Perm [⟨1, .normal, 52, 36⟩, ⟨2, .normal, 12, 28⟩] := by
  have hrows : ∀ m ∈ firstPosts, ∀ r ∈ m.row, r ∈ firstPlies := by decide
  have hsent : ∀ r ∈ firstPlies, ∃ m ∈ firstPosts, .addMove m ∈ firstRequests ∧ m.row = some r := by decide
  have hswapped : ((oneGame.run some firstRequests).getAllByGameId 0).Rows rowsSwapped := by
    rw [StoredGame.Rows]
    decide
  refine ⟨hswapped, delivered some oneGame firstRequests 0 firstPlies rfl
    (fun k hk => absurd hk List.not_mem_nil) (fun m hm => absurd hm List.not_mem_nil) (by decide) (by decide)
    (fun m hm r hr _ => hrows m (mem_firstPosts hm) r hr) (fun r hr => ?_) rfl rowsSwapped hswapped⟩
  obtain ⟨m, -, hm⟩ := hsent r hr
  exact ⟨m, hm⟩

end SmakChess.DbRest
