import SmakChess.EvalService
import SmakChess.Selections
import SmakChess.ShownGame

/-! The evaluations of a game, from the engine to the table of the page. -/

namespace SmakChess

/-- The side to move in a position that is set up from its FEN. -/
def Chess.GameLibrary.ReadsSide (lib : Chess.GameLibrary) : Prop :=
  ∀ t q, IsFen t q → lib.sideToMove (lib.setFen t) = q.position.turn

namespace Web

def EvalBody.ofDto {P : Type} (asNumber : Option Int → P) (dto : EvalDTO) : EvalBody P where
  ply := dto.ply.getD 0
  forcedMate := dto.forcedMate
  pawnEval := asNumber dto.pawnEval
  bestmove := dto.bestmove
  ponder := dto.ponder

/-- The service behind `POST /fen/eval`. `answers` are those that the engine may give to
the search for a FEN, and `asNumber` is a score as the page has it. -/
structure EvalServer (P : Type) where
  lib : Chess.GameLibrary
  san : SanLibrary
  unset : Chess.Move
  asNumber : Option Int → P
  answers : String → Answer → Prop

namespace EvalServer

variable {P : Type} (sv : EvalServer P)

def Runs (r : EngineRun) : Prop := ∀ i fen, sv.answers fen (r.reply i fen).answer

/-- A response for a position: it has one entry, of a request with an engine of its own. -/
def Responds (fen : String) (body : EvalBody P) : Prop :=
  ∃ r dto, sv.Runs r ∧ sv.lib.getFenEval sv.san sv.unset r fen = .ok (.ok [some dto]) ∧
    body = .ofDto sv.asNumber dto

/-- The score from the view of White. -/
def scoreFor (side : Color) (ev : SmakChess.Evaluation) : P :=
  sv.asNumber (if side = .black then ev.eval.map fun x => -x else ev.eval)

/-- An evaluation is what an answer of the engine gives to the search for its FEN, where
`side` is to move. -/
def Tells (side : Color) (a : Evaluation P) : Prop :=
  ∃ answer ev, sv.answers a.fen answer ∧ answer.Gives sv.san a.fen.toList ev ∧
    a.forcedMate = ev.mate ∧ a.pawnEval = sv.scoreFor side ev ∧
    a.bestmove = sv.lib.moveToUci ev.bestmove.toMove ∧
    a.ponder = sv.lib.moveToUci ((ev.ponder.map UciMove.toMove).getD sv.unset)

variable {sv} {f : Fen} {body : EvalBody P} {q : Played}

theorem tells_of_responds (hside : sv.lib.ReadsSide) (hq : IsFen f.fenString q)
    (h : sv.Responds f.fenString body) : sv.Tells q.position.turn (.fetched f body) := by
  obtain ⟨r, dto, hruns, hdto, rfl⟩ := h
  obtain ⟨ev, hev, hbody⟩ := Chess.GameLibrary.getFenEval_eq_ok hdto
  obtain ⟨t, hcalm, hs⟩ := Chess.GameLibrary.known_started r
  have hgives : (r.reply 0 f.fenString).answer.Gives sv.san f.fenString.toList ev :=
    r.fen_reply 0 f.fenString ▸ gives_of_calm hs hcalm hev
  obtain rfl : dto = _ := Option.some.inj (List.singleton_inj.mp hbody)
  rw [hside f.fenString q hq]
  exact ⟨_, ev, hruns 0 f.fenString, hgives, rfl, rfl, rfl, rfl⟩

end EvalServer

/-! The evaluations that the page has. -/

def EvalRow.Blank (row : EvalRow) : Prop := row.evcol = "" ∧ row.bmcol = "" ∧ row.pdcol = ""

/-- An evaluation of the position with this ply. -/
def EvalOf {P : Type} (fens : List Fen) (told : Evaluation P → Prop) (ply : Int) (a : Evaluation P) :
    Prop :=
  a.ply = ply ∧ told a ∧ ∃ f ∈ fens, f.ply = ply ∧ a.fen = f.fenString

/-- Every evaluation is of a position of the game, and stands where it belongs. -/
structure Page.Analysed {P : Type} [ToLocaleString P] (fens : List Fen) (told : Evaluation P → Prop)
    (page : Page P) : Prop where
  dict : ∀ x a, page.evalsDict.get x = some a → EvalOf fens told a.ply a
  evals : ∀ p a, page.evals p = some a → EvalOf fens told (p + 1) a
  table : page.evaltable.Blank ∨ ∃ a, EvalOf fens told page.index a ∧ page.evaltable = a.columns

def PliesByFen (fens : List Fen) : Prop :=
  ∀ f ∈ fens, ∀ g ∈ fens, f.fenString = g.fenString → f.ply = g.ply

/-- An evaluation that has been fetched is one of a position of the game. -/
def PageEvent.Evaluates {P : Type} (fens : List Fen) (told : Evaluation P → Prop) : PageEvent P → Prop
  | .cached f => f ∈ fens
  | .fetched f r => f ∈ fens ∧ told (.fetched f r)
  | _ => True

section Analysed

variable {P : Type} [ToLocaleString P] {fens : List Fen} {told : Evaluation P → Prop} {page : Page P}
  {f : Fen} {item : Evaluation P} {r : EvalBody P} {s : PageState P} {e : PageEvent P}
  {es : List (PageEvent P)}

theorem blank_cleared : EvalRow.cleared.Blank := ⟨rfl, rfl, rfl⟩

theorem Page.Analysed.setEval (h : page.Analysed fens told) (hf : EvalOf fens told f.ply item) :
    (page.setEval f item).Analysed fens told where
  dict := h.dict
  evals p a ha := by
    rcases evals_setEval ha with ha | ⟨rfl, rfl⟩
    · exact h.evals p a ha
    · rwa [Int.sub_add_cancel]
  table := h.table

/-- What is kept under a FEN is an evaluation with the ply of its position. -/
theorem Page.Analysed.cached (h : page.Analysed fens told) (hplies : PliesByFen fens) (hf : f ∈ fens)
    (hget : page.evalsDict.get f.fenString = some item) : EvalOf fens told f.ply item := by
  obtain ⟨-, htold, g, hg, hply, hfen⟩ := h.dict _ _ hget
  have hgf : g.ply = f.ply := hplies g hg f hf (hfen.symm.trans (page.evalsDict.keyed hget))
  exact ⟨hply.symm.trans hgf, htold, g, hg, hgf, hfen⟩

theorem Page.Analysed.store (h : page.Analysed fens told) (hf : f ∈ fens)
    (htold : told (.fetched f r)) : (page.store f r).Analysed fens told := by
  have hitem : EvalOf fens told f.ply (.fetched f r) := ⟨rfl, htold, f, hf, rfl, rfl⟩
  refine Page.Analysed.setEval ⟨fun x a ha => ?_, h.evals, h.table⟩ hitem
  simp only [EvalsDict.set_get] at ha
  split_ifs at ha
  · obtain rfl := Option.some.inj ha
    exact hitem
  · exact h.dict x a ha

/-- The row of an index holds the evaluation of its position, if there is one. -/
theorem Page.Analysed.shown (h : page.Analysed fens told) (counter : String) (n : Nat) :
    (updateEvalTbl n (clearEvalTbl (setPlyCounter counter { page with index := n }))).Analysed fens told := by
  rw [updateEvalTbl_eq]
  refine ⟨h.dict, h.evals, ?_⟩
  cases ha : page.evals (n - 1) with
  | none => exact .inl (by simp [clearEvalTbl, setPlyCounter, ha, blank_cleared])
  | some a =>
    refine .inr ⟨a, ?_, by simp [clearEvalTbl, setPlyCounter, ha]⟩
    have heval := h.evals _ a ha
    rwa [Int.sub_add_cancel] at heval

theorem Page.Analysed.nextbtn (h : page.Analysed fens told) : (nextbtn page).Analysed fens told := by
  unfold Web.nextbtn
  split
  · exact h.shown _ _
  · exact h

theorem Page.Analysed.prevbtn (h : page.Analysed fens told) : (prevbtn page).Analysed fens told := by
  have hzero : (setPlyCounter "0" (clearEvalTbl page)).Analysed fens told :=
    ⟨h.dict, h.evals, .inl ⟨rfl, rfl, rfl⟩⟩
  by_cases hempty : page.moveArray = []
  · rwa [Web.prevbtn, if_pos hempty]
  · rw [Web.prevbtn, if_neg hempty]
    by_cases hone : page.index ≤ 1
    · simp only [if_pos hone]
      split
      · exact hzero
      · split
        · -- the first row of the moves is not there
          exact ⟨h.dict, h.evals, .inl ⟨rfl, rfl, rfl⟩⟩
        · exact hzero.shown _ _
    · simp only [if_neg hone]
      rw [if_neg (by omega), if_neg (by omega)]
      exact h.shown _ _

theorem analysed_step (hplies : PliesByFen fens) (h : s.game.page.Analysed fens told)
    (he : e.Evaluates fens told) : (s.step e).game.page.Analysed fens told := by
  have hnext : ∀ page : Page P, page.Analysed fens told → (Web.nextbtn page).Analysed fens told :=
    fun _ h => h.nextbtn
  have hprev : ∀ page : Page P, page.Analysed fens told → (Web.prevbtn page).Analysed fens told :=
    fun _ h => h.prevbtn
  cases e with
  | next => exact kept_next hnext h
  | prev => exact kept_prev hprev h
  | jumpToMove moveno => exact kept_jumpToMove hnext hprev h
  | reset | submit id => exact ⟨h.dict, fun _ _ ha => (by cases ha), .inl blank_cleared⟩
  | answered id response =>
    simp only [PageState.step]
    split
    · unfold getFen
      split
      · exact h
      · split
        · exact h
        · exact ⟨h.dict, h.evals, h.table⟩
    · exact h
  | cached f =>
    simp only [PageState.step]
    split
    · exact h
    next item hget => exact h.setEval (h.cached hplies he hget)
  | fetched f r => exact h.store he.1 he.2

theorem analysed_run (hplies : PliesByFen fens) (h : s.game.page.Analysed fens told)
    (he : ∀ e ∈ es, e.Evaluates fens told) : (s.run es).game.page.Analysed fens told := by
  induction es generalizing s with
  | nil => exact h
  | cons e es ih =>
    obtain ⟨hfirst, hrest⟩ := List.forall_mem_cons.mp he
    exact ih (analysed_step hplies h hfirst) hrest

end Analysed

/-! The positions of a stored game. -/

/-- What the service answers for a game, without the nulls. -/
def gameFens (lib : Chess.Library) (id : Int) (ms : List Move) : List Fen :=
  ((served lib id (Position.initial.storedFrom 1 ms)).getD []).reduceOption

/-- Every response is for the game: its positions, or an evaluation of one of them. -/
def PageEvent.ServedEvals {P : Type} (sv : EvalServer P) (id : Int) (ms : List Move) :
    PageEvent P → Prop
  | .answered i response =>
    i = id ∧ (response = none ∨ response = served sv.lib.toLibrary id (Position.initial.storedFrom 1 ms))
  | .cached f => f ∈ gameFens sv.lib.toLibrary id ms
  | .fetched f r => f ∈ gameFens sv.lib.toLibrary id ms ∧ sv.Responds f.fenString r
  | _ => True

section Stored

variable {lib : Chess.Library} {shows : lib.Board → Played → Prop} {id : Int} {ms : List Move}
  {result : List (Option Fen)} {fens : List Fen} {f : Fen} {n : Nat}

/-- The side to move and the number of a position tell how many plies led to it. -/
theorem turn_foldl_play (ms : List Move) :
    (ms.foldl Played.play .initial).position.turn = (if ms.length % 2 = 0 then .white else .black) ∧
      (ms.foldl Played.play .initial).plies = ms.length := by
  induction ms using List.reverseRecOn with
  | nil => exact ⟨rfl, rfl⟩
  | append_singleton ms m ih =>
    rw [List.foldl_append, List.length_append]
    refine ⟨?_, congrArg (· + 1) ih.2⟩
    change Color.other (ms.foldl Played.play .initial).position.turn = _
    rw [ih.1]
    rcases Nat.mod_two_eq_zero_or_one ms.length with h | h
    · simp [h, Nat.add_mod, Color.other]
    · simp [h, Nat.add_mod, Color.other]

theorem length_eq_of_isFen {ms' : List Move} {t : String} (h : IsFen t (ms.foldl Played.play .initial))
    (h' : IsFen t (ms'.foldl Played.play .initial)) : ms.length = ms'.length := by
  obtain ⟨-, hturn, hnumber⟩ := eq_of_isFen h h'
  obtain ⟨hside, hplies⟩ := turn_foldl_play ms
  obtain ⟨hside', hplies'⟩ := turn_foldl_play ms'
  rw [hside, hside'] at hturn
  rw [hplies, hplies'] at hnumber
  split_ifs at hturn <;> omega

theorem length_storedFrom (p : Position) (n : Nat) (ms : List Move) :
    (p.storedFrom n ms).length = ms.length := by
  induction ms generalizing p n with
  | nil => rfl
  | cons m ms ih => exact congrArg (· + 1) (ih _ _)

/-- A response whose entries all are positions has no null. -/
theorem noGap_of_forall₂ {body : List (Option FenDTO)} {qs : List Played}
    (h : List.Forall₂ (fun e q => ∃ dto : FenDTO, e = some dto ∧ IsFen dto.fenString q) body qs) :
    NoGap (body.map (Option.map Fen.ofDto)) := by
  intro i j f hij hj hnull
  rw [List.getElem?_map, Option.map_eq_some_iff] at hnull
  obtain ⟨e, hentry, hnone⟩ := hnull
  obtain ⟨hi, rfl⟩ := List.getElem?_eq_some_iff.mp hentry
  obtain ⟨dto, hdto, -⟩ := h.get hi (h.length_eq ▸ hi)
  rw [List.get_eq_getElem] at hdto
  rw [hdto] at hnone
  cases hnone

theorem aligned_served (hr : lib.FollowsRules shows) (hl : Position.initial.legalGame ms)
    (hplain : Position.initial.plainGame ms) (hgo : GoesOn lib lib.start .initial ms)
    (hlen : ms.length < 2 ^ 31)
    (h : served lib id (Position.initial.storedFrom 1 ms) = some result) :
    Aligned 0 result.reduceOption := by
  have hfens := (forall₂_fensFrom_iff hr hr.start passedEmpty_initial hl 1).mpr ⟨hplain, hgo⟩
  rcases lib.fenResponse_cases id (Position.initial.storedFrom 1 ms) with ⟨-, he⟩ | ⟨-, he⟩
  · rw [served, he] at h
    cases h
  · rw [served, he] at h
    obtain rfl := Option.some.inj h
    exact (numbered_of_fenResponse he (by rwa [length_storedFrom])).noGap_iff.mp
      (noGap_of_forall₂ (forall₂_fenDtos_iff.mpr hfens))

theorem mem_gameFens (hr : lib.FollowsRules shows) (hnull : lib.PassesTurn shows)
    (huci : lib.WritesSquares) (hl : Position.initial.legalGame ms)
    (hplain : Position.initial.plainGame ms) (hgo : GoesOn lib lib.start .initial ms)
    (hlen : ms.length < 2 ^ 31) (hf : f ∈ gameFens lib id ms) :
    ∃ n < ms.length, f.ply = n + 1 ∧
      IsFen f.fenString ((ms.take (n + 1)).foldl Played.play .initial) := by
  rw [gameFens] at hf
  cases hserved : served lib id (Position.initial.storedFrom 1 ms) with
  | none =>
    rw [hserved] at hf
    cases hf
  | some result =>
    rw [hserved, Option.getD_some] at hf
    obtain ⟨n, hn⟩ := List.mem_iff_getElem?.mp hf
    obtain ⟨hlt, hfen⟩ := (trueFens_of_served hr hnull huci hl hplain hgo hserved).isFen hn
    have hply := aligned_served hr hl hplain hgo hlen hserved n f hn
    exact ⟨n, hlt, by omega, hfen⟩

theorem pliesByFen_gameFens (hr : lib.FollowsRules shows) (hnull : lib.PassesTurn shows)
    (huci : lib.WritesSquares) (hl : Position.initial.legalGame ms)
    (hplain : Position.initial.plainGame ms) (hgo : GoesOn lib lib.start .initial ms)
    (hlen : ms.length < 2 ^ 31) : PliesByFen (gameFens lib id ms) := by
  intro f hf g hg hfen
  obtain ⟨n, hn, hply, hf⟩ := mem_gameFens hr hnull huci hl hplain hgo hlen hf
  obtain ⟨n', hn', hply', hg⟩ := mem_gameFens hr hnull huci hl hplain hgo hlen hg
  rw [hfen] at hf
  have hsame := length_eq_of_isFen hf hg
  rw [List.length_take, List.length_take] at hsame
  omega

end Stored

/-- The positions of one game, and another one with the right side to move. -/
def readFen (t : String) : Played :=
  match ([0, 1, 2].map fun n => ((openGame.map Performance.move).take n).foldl Played.play .initial).find?
    fun q => t = rulesLibrary.getFen q with
  | some q => q
  | none =>
    if (t.toList.splitOn ' ')[1]? = some ['b'] then Played.initial.play (.quiet 52 36) else .initial

def readingGames : Chess.GameLibrary := { rulesGames with setFen := readFen }

theorem readingGames_readsSide : readingGames.ReadsSide := by
  intro t q hq
  change (readFen t).position.turn = q.position.turn
  rw [readFen]
  split
  next q' hfind =>
    obtain rfl : t = rulesLibrary.getFen q' := by simpa using List.find?_some hfind
    exact (eq_of_isFen (rulesLibrary_followsRules.getFen q' q' rfl) hq).2.1
  next =>
    obtain ⟨e, he, rfl⟩ := hq
    rw [splitOn_fenText (not_mem_enPassant he)]
    cases q.position.turn <;> rfl

def steadyServer : EvalServer Int where
  lib := readingGames
  san := pawnMoves
  unset := unsetMove
  asNumber x := x.getD 0
  answers _ a := a = shortAnswer

def openFen : Fen :=
  { afterE4 with fenString := "rnbqkbnr/pppppppp/8/8/4P3/8/PPPP1PPP/RNBQKBNR b KQkq e3 0 1" }

theorem openFen_mem : openFen ∈ gameFens rulesLibrary 1 (openGame.map Performance.move) := by
  decide +kernel

theorem openFen_responds : steadyServer.Responds openFen.fenString ⟨1, false, -5, "e2e4", "a1a1"⟩ :=
  ⟨steadyRun, { steadyDto with pawnEval := some (-5) }, fun _ _ => rfl, by decide +kernel, rfl⟩

/-- The evaluation arrives when its position has been shown already. -/
def openEvals : List (PageEvent Int) :=
  [.submit 1, .answered 1 (served rulesLibrary 1 (Position.initial.storedFrom 1
    (openGame.map Performance.move))), .next, .fetched openFen ⟨1, false, -5, "e2e4", "a1a1"⟩,
    .next, .cached openFen, .prev]

end Web

end SmakChess
