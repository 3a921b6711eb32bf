import SmakChess.BoardService
import SmakChess.SentGame

/-! A game from the squares of the board to those of the page: what the board sends is
posted and stored, and the service plays it for the page. -/

namespace SmakChess

open Machine

/-! What the page has of a game. -/

section Positions

variable {q : Played} {ms : List Move} {k : Nat}

theorem Played.positionsFrom_getElem? (h : k < ms.length) :
    (q.positionsFrom ms)[k]? = some ((ms.take (k + 1)).foldl Played.play q) := by
  induction ms generalizing q k with
  | nil => cases h
  | cons m ms ih =>
    cases k with
    | zero => rfl
    | succ k => exact ih (Nat.lt_of_succ_lt_succ h)

theorem Played.length_positionsFrom : (q.positionsFrom ms).length = ms.length := by
  induction ms generalizing q with
  | nil => rfl
  | cons m ms ih => exact congrArg (· + 1) ih

end Positions

namespace Web

theorem positionOf_congr {b b' : Board} (h : ∀ s < 64, b s = b' s) : positionOf b = positionOf b' := by
  funext square
  cases hv : validSquare square with
  | false => rw [positionOf_invalid hv, positionOf_invalid hv]
  | true =>
    obtain ⟨s, hs, rfl⟩ := exists_squareName hv
    rw [positionOf_squareName hs, positionOf_squareName hs, h s hs]

/-- The moves lead to the positions of the FENs, and these are the game's. -/
def TrueFens (ms : List Move) (fens : List Fen) : Prop :=
  Agree .start fens ∧
    List.Forall₂ (fun f q => IsFen f.fenString q) fens (Played.initial.positionsFrom ms)

/-- Every answer is to a submit of the game, from its rows in the order of their
numbers, or there is none. -/
def PageEvent.ServedGame {P : Type} (lib : Chess.Library) (id : Nat) (g : StoredGame) :
    PageEvent P → Prop
  | .answered i response => i = id ∧ (response = none ∨ ∃ rows, g.Rows rows ∧
      (rows.Pairwise fun a b => a.plyNumber ≤ b.plyNumber) ∧ response = served lib id rows)
  | _ => True

section Answers

variable {P : Type} {lib : Chess.Library} {shows : lib.Board → Played → Prop} {id : Nat}
  {ms : List Move} {g : StoredGame} {e : PageEvent P} {page : Page P} {Q R : List Fen → Prop}

theorem forall₂_reduceOption {body : List (Option FenDTO)} {qs : List Played}
    (h : List.Forall₂ (fun e q => ∃ dto : FenDTO, e = some dto ∧ IsFen dto.fenString q) body qs) :
    List.Forall₂ (fun f q => IsFen f.fenString q) (body.map (Option.map Fen.ofDto)).reduceOption qs := by
  induction h with
  | nil => exact .nil
  | cons hfirst _ ih =>
    obtain ⟨dto, rfl, hfen⟩ := hfirst
    rw [List.map_cons, Option.map_some, List.reduceOption_cons_of_some]
    exact .cons hfen ih

theorem trueFens_of_served {id : Int} (hr : lib.FollowsRules shows) (hnull : lib.PassesTurn shows)
    (huci : lib.WritesSquares) (hl : Position.initial.legalGame ms)
    (hplain : Position.initial.plainGame ms) (hgo : GoesOn lib lib.start .initial ms)
    {result : List (Option Fen)} (h : served lib id (Position.initial.storedFrom 1 ms) = some result) :
    TrueFens ms result.reduceOption := by
  refine ⟨agree_served hr hnull huci h, ?_⟩
  have hfens := (forall₂_fensFrom_iff hr hr.start passedEmpty_initial hl 1).mpr ⟨hplain, hgo⟩
  rcases lib.fenResponse_cases id (Position.initial.storedFrom 1 ms) with ⟨-, he⟩ | ⟨-, he⟩
  · rw [served, he] at h
    cases h
  · rw [served, he] at h
    obtain rfl := Option.some.inj h
    exact forall₂_reduceOption (forall₂_fenDtos_iff.mpr hfens)

theorem PageEvent.ServedGame.answers (hr : lib.FollowsRules shows) (hnull : lib.PassesTurn shows)
    (huci : lib.WritesSquares) (hl : Position.initial.legalGame ms)
    (hplain : Position.initial.plainGame ms) (hgo : GoesOn lib lib.start .initial ms)
    (hrows : ∀ rows, g.Rows rows → rows.Perm (Position.initial.storedFrom 1 ms))
    (h : e.ServedGame lib id g) : e.Answers (TrueFens ms) := by
  cases e with
  | answered i response =>
    obtain ⟨rfl, rfl | ⟨rows, hg, hsorted, rfl⟩⟩ := h
    · trivial
    · rw [eq_storedFrom_of_perm (hrows rows hg) hsorted]
      cases hanswer : served lib id (Position.initial.storedFrom 1 ms) with
      | none => trivial
      | some result => exact trueFens_of_served hr hnull huci hl hplain hgo hanswer
  | _ => trivial

theorem Page.Holds.imp (h : page.Holds Q) (himp : ∀ fens, Q fens → R fens) : page.Holds R :=
  h.imp_right fun ⟨hmoves, hfens⟩ => ⟨hmoves, himp _ hfens⟩

theorem TrueFens.isFen {fens : List Fen} {f : Fen} {n : Nat} (h : TrueFens ms fens)
    (hf : fens[n]? = some f) :
    n < ms.length ∧ IsFen f.fenString ((ms.take (n + 1)).foldl Played.play .initial) := by
  obtain ⟨hn, rfl⟩ := List.getElem?_eq_some_iff.mp hf
  have hlen : fens.length = ms.length := h.2.length_eq.trans Played.length_positionsFrom
  have hat : (Played.initial.positionsFrom ms)[n]? =
      some ((ms.take (n + 1)).foldl Played.play .initial) := Played.positionsFrom_getElem? (by omega)
  obtain ⟨hq, heq⟩ := List.getElem?_eq_some_iff.mp hat
  exact ⟨by omega, heq ▸ h.2.get (i := n) hn hq⟩

/-- Two FENs of one text have one board. -/
theorem positionOf_of_trueFens {fens : List Fen} {f : Fen} {q : Played} {n : Nat}
    (h : TrueFens ms fens) (hf : fens[n]? = some f) (hfen : IsFen f.fenString q) :
    positionOf q.position.board = positionOf ((ms.take (n + 1)).foldl Position.play .initial).board := by
  rw [← Played.position_initial, ← position_foldl_play]
  exact positionOf_congr (eq_of_isFen hfen (h.isFen hf).2).1

/-- At each index the board is the game's. -/
theorem board_of_trueFens {g : BoardGame P}
    (hboard : g.board.get = BoardPosition.after g.page.moveArray g.page.index)
    (hindex : g.page.index ≤ g.page.moveArray.length) (h : g.page.Holds (TrueFens ms)) :
    g.board.get = positionOf ((ms.take g.page.index).foldl Position.play .initial).board := by
  cases hn : g.page.index with
  | zero =>
    have hstart : positionOf Position.initial.board = BoardPosition.start := positionOf_startingBoard
    rw [hboard, hn, List.take_zero, List.foldl_nil, hstart]
    rfl
  | succ n =>
    rcases h with hnil | ⟨heq, htrue⟩
    · rw [hnil, hn] at hindex
      cases hindex
    · rcases board_of_inv hboard hindex (.inr ⟨heq, htrue.1⟩) with
        ⟨hzero, -⟩ | ⟨f, q, hf, hfen, hget⟩
      · rw [hn] at hzero
        cases hzero
      · rw [hn, Nat.add_sub_cancel] at hf
        rw [hget, positionOf_of_trueFens htrue hf hfen]

end Answers

end Web

/-! The messages, posted one after the other. -/

section Posted

variable {pb : Nanopb} {esp : Storage} {onMissing : DbRest.OnMissing} {s : DbRest.Store}
  {objs : List SmakJsonObj} {posts : List DbRest.Move}

/-- What is posted of a message. -/
def posted (pb : Nanopb) (esp : Storage) (obj : SmakJsonObj) : Option DbRest.Move := do
  let bytes ← smakMessageMoveSend pb obj
  postOf pb esp bytes

/-- Each request is answered before the next one. -/
def inTurn (posts : List DbRest.Move) : List DbRest.StoreEvent :=
  posts.flatMap fun m => [.addMove m, .saveMove 0]

theorem checked_run_inTurn (h : s.checked = []) : (s.run onMissing (inTurn posts)).checked = [] := by
  induction posts generalizing s with
  | nil => exact h
  | cons m posts ih =>
    refine ih (s := (s.step onMissing (.addMove m)).step onMissing (.saveMove 0)) ?_
    rw [DbRest.checked_step, DbRest.checked_step, h]
    dsimp only
    split <;> rfl

theorem reaches_inTurn (hexact : postingId esp ≤ 2 ^ 53)
    (hgame : (s.games.row (postingId esp)).isSome = true)
    (hnew : ∀ k ∈ s.moves.keys, k.id ≠ postingId esp) (hidle : s.checked = []) :
    Reaches pb esp onMissing objs s (inTurn (objs.filterMap (posted pb esp))) where
  exact := hexact
  game := hgame
  new := hnew
  idle m hm := by
    rw [hidle] at hm
    cases hm
  only m hm _ := by
    obtain ⟨m', hm', hmem⟩ := List.mem_flatMap.mp hm
    obtain rfl : m = m' := by simpa using hmem
    obtain ⟨obj, hobj, hpost⟩ := List.mem_filterMap.mp hm'
    obtain ⟨bytes, hbytes, hpost⟩ := Option.bind_eq_some_iff.mp hpost
    exact ⟨obj, hobj, bytes, hbytes, hpost⟩
  all obj hobj bytes m hbytes hpost := by
    refine List.mem_flatMap.mpr ⟨m, List.mem_filterMap.mpr ⟨obj, hobj, ?_⟩, List.mem_cons_self⟩
    rw [posted, hbytes, Option.bind_eq_bind, Option.bind_some, hpost]
  done := checked_run_inTurn hidle

end Posted

namespace Web

/-- A plain game that is played on the board from a reset is what the page shows,
however often its moves are posted and in whatever order: at each index the board of
the page is the one after as many plies. A game has at most 255 of them, each of which
finds the flags it needs, and no step forward is made while a submit is unanswered. -/
theorem game_shown {P : Type} [ToLocaleString P] {lib : Chess.Library}
    {shows : lib.Board → Played → Prop} (hr : lib.FollowsRules shows) (hnull : lib.PassesTurn shows)
    (huci : lib.WritesSquares) {pb : Nanopb} (hwire : pb.encode = pbEncode) {esp : Storage}
    {onMissing : DbRest.OnMissing} {s : DbRest.Store} {requests : List DbRest.StoreEvent}
    (st₀ : ChessState) {ms : List Performance}
    (hl : Position.initial.legalGame (ms.map Performance.move))
    (hplain : Position.initial.plainGame (ms.map Performance.move))
    (hs : SupportedGame .initial (resetFsm st₀) ms) (hlen : ms.length ≤ 255)
    (hgo : GoesOn lib lib.start .initial (ms.map Performance.move))
    (hreach : Reaches pb esp onMissing (messages (resetFsm st₀) (gameEvents .white ms)) s requests)
    {es : List (PageEvent P)} (hes : ∀ e ∈ es, e.ServedGame lib (postingId esp)
      ((s.run onMissing requests).getAllByGameId (postingId esp)))
    (h : PatientRun PageState.boot es) :
    let g := (PageState.boot.run es).game
    let b := (((ms.map Performance.move).take g.page.index).foldl Position.play .initial).board
    g.page.index ≤ ms.length ∧ (g.page.moveArray = [] ∨ g.page.moveArray.length = ms.length) ∧
      g.board.get = positionOf b ∧ objToFen g.board = some (fenPlacement b) := by
  intro g b
  have hinv : (PageState.boot.run es).Inv := inv_loaded.run h
  have hholds : g.page.Holds (TrueFens (ms.map Performance.move)) :=
    holds_run (.inl rfl) fun e he => (hes e he).answers hr hnull huci hl hplain hgo fun rows hrows =>
      rows_of_reaches hwire st₀ hl hplain hs hlen hreach hrows
  have hindex : g.page.index ≤ g.page.moveArray.length := hinv.inStep.index
  have hmoves : g.page.moveArray = [] ∨ g.page.moveArray.length = ms.length := by
    refine hholds.imp_right fun ⟨heq, hfens⟩ => ?_
    rw [heq, populateMoveArray, List.length_map, List.length_map, hfens.2.length_eq,
      Played.length_positionsFrom, List.length_map]
  have hle : g.page.index ≤ ms.length := by
    rcases hmoves with hnil | hlen
    · rw [hnil] at hindex
      exact hindex.trans (Nat.zero_le _)
    · exact hindex.trans hlen.le
  have hboard : g.board.get = positionOf b := board_of_trueFens hinv.inStep.board hindex hholds
  exact ⟨hle, hmoves, hboard, objToFen_positionOf hinv.valid.board hboard⟩

/-- 1. e4 e5 -/
def openGame : List Performance := [.quiet 52 36, .quiet 12 28]

theorem openGame_legal : Position.initial.legalGame (openGame.map Performance.move) := by decide +kernel

theorem openGame_plain : Position.initial.plainGame (openGame.map Performance.move) :=
  ⟨rfl, rfl, trivial⟩

theorem openGame_goesOn :
    GoesOn rulesLibrary rulesLibrary.start .initial (openGame.map Performance.move) := by
  have hmake := rulesLibrary_followsRules.makeMove _ _ _ rulesLibrary_followsRules.start openGame_legal.1
  rw [Played.position_initial] at hmake
  refine ⟨?_, trivial⟩
  rw [hmake]
  exact isGameOver_rulesLibrary openGame_legal.2.1 (by decide)

def openRequests : List DbRest.StoreEvent :=
  inTurn ((messages (resetFsm powerOn) (gameEvents .white openGame)).filterMap
    (posted wireFormat (smakStorageInit (some 0))))

theorem openGame_reaches : Reaches wireFormat (smakStorageInit (some 0)) (fun _ => none)
    (messages (resetFsm powerOn) (gameEvents .white openGame)) DbRest.oneGame openRequests :=
  reaches_inTurn (by decide) rfl (fun _ hk => absurd hk List.not_mem_nil) rfl

/-- The game is shown to its end, and one move is taken back. -/
def openEvents : List (PageEvent Int) :=
  [.submit 0, .answered 0 (served rulesLibrary 0 (Position.initial.storedFrom 1
    (openGame.map Performance.move))), .next, .next, .prev]

theorem game_shown_openGame :
    let g := (PageState.boot.run openEvents).game
    let b := (((openGame.map Performance.move).take g.page.index).foldl Position.play .initial).board
    g.page.index ≤ openGame.length ∧
      (g.page.moveArray = [] ∨ g.page.moveArray.length = openGame.length) ∧
      g.board.get = positionOf b ∧ objToFen g.board = some (fenPlacement b) := by
  have hrows := rows_of_reaches rfl powerOn openGame_legal openGame_plain ⟨trivial, trivial, trivial⟩
    (by decide) openGame_reaches (List.Perm.refl _)
  refine game_shown rulesLibrary_followsRules rulesLibrary_passesTurn rulesLibrary_writesSquares rfl
    powerOn openGame_legal openGame_plain ⟨trivial, trivial, trivial⟩ (by decide) openGame_goesOn
    openGame_reaches ?_
    ⟨trivial, trivial, rfl, rfl, trivial, trivial⟩
  intro e he
  simp only [openEvents, List.mem_cons, List.not_mem_nil, or_false] at he
  rcases he with rfl | rfl | rfl | rfl | rfl
  · trivial
  · exact ⟨rfl, .inr ⟨_, hrows.symm, (pairwise_storedFrom _ _ _).imp fun hlt => hlt.le, rfl⟩⟩
  all_goals trivial

end Web

end SmakChess
