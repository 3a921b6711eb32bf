import SmakChess.Machine
import SmakChess.Viewer

/-! Selections of games while the requests of earlier ones are under way. What a
selection does between two of its awaits is one step. -/

namespace SmakChess.Web

open Machine

/-- The request that the submit handler of a selection waits for: that of
`getFen`, or that of `updateEvals` for the position `f`, with the positions
`todo` to come after it. -/
inductive Phase
  | getFen
  | updateEvals (f : Fen) (todo : List Fen)
  | finished
  deriving DecidableEq, Repr

/-- A selection. `positions` are those in the response to its `getFen`. -/
structure Thread where
  gameId : Int
  positions : List Fen
  phase : Phase
  deriving DecidableEq, Repr

structure Viewer (P : Type) where
  page : Page P
  threads : List Thread

/-- Clicks, and the response to the request of selection `i`, where `none` is a
failed request or an evaluation that is null. -/
inductive ViewerEvent (P : Type)
  | submit (id : Int)
  | fensArrive (i : Nat) (response : Option (List (Option Fen)))
  | evalArrives (i : Nat) (r : Option (EvalBody P))
  | next
  | prev

section Steps

variable {P : Type}

def Viewer.boot : Viewer P := ⟨.boot, []⟩

/-- The loop of `updateEvals` up to the first position that `evals_dict` does
not have: what it assigns, and what is left. -/
def cached (d : EvalsDict P) : List Fen → List (Fen × Evaluation P) × List Fen
  | [] => ([], [])
  | f :: todo =>
    match d.get f.fenString with
    | none => ([], f :: todo)
    | some item => ((f, item) :: (cached d todo).1, (cached d todo).2)

def Page.assign (s : Page P) (items : List (Fen × Evaluation P)) : Page P :=
  items.foldl (fun s fa => s.setEval fa.1 fa.2) s

def waitFor : List Fen → Phase
  | [] => .finished
  | f :: todo => .updateEvals f todo

/-- The loop of `updateEvals` over `l`, up to its next request. -/
def evalLoop (s : Page P) (l : List Fen) : Page P × Phase :=
  (s.assign (cached s.evalsDict l).1, waitFor (cached s.evalsDict l).2)

def Viewer.inGetFen (v : Viewer P) (i : Nat) : Option Thread :=
  v.threads[i]?.filter fun t => t.phase = .getFen

def Viewer.inUpdateEvals (v : Viewer P) (i : Nat) : Option (Thread × Fen × List Fen) :=
  v.threads[i]?.bind fun t =>
    match t.phase with
    | .updateEvals f todo => some (t, f, todo)
    | _ => none

/-- `getFen` of an id that is not positive fails without a request. -/
def Viewer.submit (v : Viewer P) (id : Int) : Viewer P :=
  let page := Web.submit id v.page
  if id ≤ 0 then
    let (page, phase) := evalLoop (getFen id none page) page.fens
    ⟨page, v.threads ++ [⟨id, [], phase⟩]⟩
  else ⟨page, v.threads ++ [⟨id, [], .getFen⟩]⟩

/-- `getFen` catches its own failure, so `updateEvals` runs in any case, over
the positions that the page has by then. -/
def Viewer.fensArrive (v : Viewer P) (i : Nat) (response : Option (List (Option Fen))) :
    Viewer P :=
  match v.inGetFen i with
  | none => v
  | some t =>
    let page := getFen t.gameId response v.page
    let (page, phase) := evalLoop page page.fens
    ⟨page, v.threads.set i ⟨t.gameId, (response.getD []).reduceOption, phase⟩⟩

def Viewer.evalArrives (v : Viewer P) (i : Nat) (r : Option (EvalBody P)) : Viewer P :=
  match v.inUpdateEvals i, r with
  | none, _ => v
  | some (t, _, _), none => ⟨v.page, v.threads.set i { t with phase := .finished }⟩
  | some (t, f, todo), some r =>
    let (page, phase) := evalLoop (v.page.store f r) todo
    ⟨page, v.threads.set i { t with phase := phase }⟩

def Viewer.after [ToLocaleString P] (v : Viewer P) : ViewerEvent P → Viewer P
  | .submit id => v.submit id
  | .fensArrive i response => v.fensArrive i response
  | .evalArrives i r => v.evalArrives i r
  | .next => ⟨nextbtn v.page, v.threads⟩
  | .prev => ⟨prevbtn v.page, v.threads⟩

def view [ToLocaleString P] (v : Viewer P) (e : ViewerEvent P) : Except Empty (Viewer P) :=
  .ok (v.after e)

/-- What `evals` receives in a step, each with its position. -/
def received (v : Viewer P) : ViewerEvent P → List (Fen × Evaluation P)
  | .submit id => if id ≤ 0 then (cached v.page.evalsDict v.page.fens).1 else []
  | .fensArrive i response =>
    match v.inGetFen i with
    | none => []
    | some t => (cached v.page.evalsDict (getFen t.gameId response v.page).fens).1
  | .evalArrives i r =>
    match v.inUpdateEvals i, r with
    | some (_, f, todo), some r =>
      (f, .fetched f r) :: (cached (v.page.store f r).evalsDict todo).1
    | _, _ => []
  | .next => []
  | .prev => []

/-- A position that was answered to a selection of the game. -/
def PositionOf (threads : List Thread) (gameId : Int) (f : Fen) : Prop :=
  ∃ t ∈ threads, t.gameId = gameId ∧ f ∈ t.positions

def Viewer.AllArrived (v : Viewer P) : Prop :=
  v.threads ≠ [] ∧ ∀ t ∈ v.threads, t.phase = .finished

/-- What the page shows is of the game selected last. -/
def Belongs (v : Viewer P) : Prop :=
  (∃ t ∈ v.threads, t.gameId = v.page.selectedId ∧ v.page.fens = t.positions) ∧
    v.page.moveArray = populateMoveArray (v.page.fens.map Fen.move) ∧
    v.page.movestable = moveRows 1 0 v.page.fens ∧
    ∀ p a, v.page.evals p = some a → ∃ f, PositionOf v.threads v.page.selectedId f ∧
      f.ply - 1 = p ∧ a.fen = f.fenString

/-- Once `getFen` has completed for a selection, `evals` receives positions only
of games selected then or later. -/
def NoStale [ToLocaleString P] (v : Viewer P) (e : ViewerEvent P) : Prop :=
  ∀ fa ∈ received v e, ∀ (j : Nat) (t : Thread), (v.after e).threads[j]? = some t →
    t.phase ≠ .getFen → ∃ (k : Nat) (u : Thread), j ≤ k ∧ (v.after e).threads[k]? = some u ∧
      PositionOf (v.after e).threads u.gameId fa.1

/-- A response to `getFen` is for the last selection and no failure, unless it
brings no positions to a page without any. An evaluation is for a selection of
the selected game. -/
def InOrder (v : Viewer P) : ViewerEvent P → Prop
  | .submit id => 0 < id ∨ v.page.fens = []
  | .fensArrive i response =>
    match v.inGetFen i with
    | none => True
    | some _ => (i + 1 = v.threads.length ∧ response.isSome) ∨
      (v.page.fens = [] ∧ (response.getD []).reduceOption = [])
  | .evalArrives i r =>
    match v.inUpdateEvals i, r with
    | some (t, _, _), some _ => t.gameId = v.page.selectedId
    | _, _ => True
  | .next => True
  | .prev => True

end Steps

section Loop

variable {P : Type} {s : Page P} {d : EvalsDict P} {l : List Fen} {f : Fen}
  {items : List (Fen × Evaluation P)} {fa : Fen × Evaluation P}

theorem mem_of_cached (h : fa ∈ (cached d l).1) : fa.1 ∈ l ∧ fa.2.fen = fa.1.fenString := by
  induction l with
  | nil => simp [cached] at h
  | cons f l ih =>
    cases hd : d.get f.fenString with
    | none => simp [cached, hd] at h
    | some item =>
      simp only [cached, hd, List.mem_cons] at h
      rcases h with rfl | h
      · exact ⟨List.mem_cons_self, d.keyed hd⟩
      · exact ⟨List.mem_cons_of_mem f (ih h).1, (ih h).2⟩

theorem mem_of_uncached (h : f ∈ (cached d l).2) : f ∈ l := by
  induction l with
  | nil => simp [cached] at h
  | cons g l ih =>
    cases hd : d.get g.fenString with
    | none => simpa [cached, hd] using h
    | some item =>
      simp only [cached, hd] at h
      exact List.mem_cons_of_mem g (ih h)

theorem assign_eq (s : Page P) (items : List (Fen × Evaluation P)) :
    s.assign items = { s with evals := (s.assign items).evals } := by
  induction items generalizing s with
  | nil => rfl
  | cons fa items ih => exact ih (s.setEval fa.1 fa.2)

theorem evals_setEval {p : Int} {item a : Evaluation P} (h : (s.setEval f item).evals p = some a) :
    s.evals p = some a ∨ f.ply - 1 = p ∧ item = a := by
  simp only [Page.setEval, Function.update_apply] at h
  by_cases hp : p = f.ply - 1
  · rw [if_pos hp] at h
    exact .inr ⟨hp.symm, Option.some.inj h⟩
  · rw [if_neg hp] at h
    exact .inl h

theorem evals_assign {p : Int} {a : Evaluation P} (h : (s.assign items).evals p = some a) :
    s.evals p = some a ∨ ∃ fa ∈ items, fa.1.ply - 1 = p ∧ fa.2 = a := by
  induction items generalizing s with
  | nil => exact .inl h
  | cons fa items ih =>
    rcases ih (s := s.setEval fa.1 fa.2) h with h | ⟨fb, hfb, hb⟩
    · rcases evals_setEval h with h | h
      · exact .inl h
      · exact .inr ⟨fa, List.mem_cons_self, h⟩
    · exact .inr ⟨fb, List.mem_cons_of_mem fa hfb, hb⟩

theorem evalLoop_nil (s : Page P) : evalLoop s [] = (s, .finished) := rfl

theorem evalLoop_phase_ne (s : Page P) (l : List Fen) : (evalLoop s l).2 ≠ .getFen := by
  unfold evalLoop waitFor
  split <;> simp

theorem mem_of_evalLoop {todo : List Fen} (h : (evalLoop s l).2 = .updateEvals f todo) :
    ∀ g ∈ f :: todo, g ∈ l := by
  intro g hg
  apply mem_of_uncached (d := s.evalsDict)
  cases hc : (cached s.evalsDict l).2 with
  | nil => simp [evalLoop, hc, waitFor] at h
  | cons f' todo' =>
    simp only [evalLoop, hc, waitFor, Phase.updateEvals.injEq] at h
    rwa [h.1, h.2]

end Loop

section Threads

variable {threads threads' : List Thread} {t t' u : Thread} {i : Nat} {g : Int} {f : Fen}

def Extends (threads threads' : List Thread) : Prop :=
  ∀ t ∈ threads, ∃ t' ∈ threads', t'.gameId = t.gameId ∧ t.positions ⊆ t'.positions

theorem PositionOf.mono (h : Extends threads threads') (hf : PositionOf threads g f) :
    PositionOf threads' g f := by
  obtain ⟨t, ht, hg, hmem⟩ := hf
  obtain ⟨t', ht', hg', hsub⟩ := h t ht
  exact ⟨t', ht', hg'.trans hg, hsub hmem⟩

theorem extends_set (hi : threads[i]? = some t) (hg : t'.gameId = t.gameId)
    (hsub : t.positions ⊆ t'.positions) : Extends threads (threads.set i t') := by
  intro u hu
  obtain ⟨k, hk⟩ := List.mem_iff_getElem?.mp hu
  obtain ⟨hlt, -⟩ := List.getElem?_eq_some_iff.mp hk
  by_cases hik : i = k
  · subst hik
    obtain rfl : t = u := Option.some.inj (hi.symm.trans hk)
    exact ⟨t', List.mem_of_getElem? (List.getElem?_set_self hlt), hg, hsub⟩
  · exact ⟨u, List.mem_of_getElem? ((List.getElem?_set_ne hik).trans hk), rfl,
      List.Subset.refl _⟩

theorem positionOf_set (hi : threads[i]? = some t) (hg : t'.gameId = g) (hf : f ∈ t'.positions) :
    PositionOf (threads.set i t') g f := by
  obtain ⟨hlt, -⟩ := List.getElem?_eq_some_iff.mp hi
  exact ⟨t', List.mem_of_getElem? (List.getElem?_set_self hlt), hg, hf⟩

theorem forall_mem_set {C : Thread → Prop} (h : ∀ t ∈ threads, C t) (ht' : C t') :
    ∀ t ∈ threads.set i t', C t := by
  intro u hu
  rcases List.mem_or_eq_of_mem_set hu with hu | rfl
  · exact h u hu
  · exact ht'

end Threads

section Invariant

variable {P : Type} {v : Viewer P} {i : Nat} {t : Thread} {f : Fen} {todo : List Fen}

theorem inGetFen_eq_some (h : v.inGetFen i = some t) :
    v.threads[i]? = some t ∧ t.phase = .getFen := by
  simpa [Viewer.inGetFen, Option.filter_eq_some_iff] using h

theorem inUpdateEvals_eq_some (h : v.inUpdateEvals i = some (t, f, todo)) :
    v.threads[i]? = some t ∧ t.phase = .updateEvals f todo := by
  obtain ⟨u, hu, hm⟩ := Option.bind_eq_some_iff.mp h
  cases hp : u.phase with
  | getFen => simp [hp] at hm
  | finished => simp [hp] at hm
  | updateEvals f' todo' =>
    simp only [hp, Option.some.injEq, Prod.mk.injEq] at hm
    obtain ⟨rfl, rfl, rfl⟩ := hm
    exact ⟨hu, hp⟩

def LastLoaded (page : Page P) (t : Thread) : Prop :=
  t.gameId = page.selectedId ∧ (t.phase = .getFen → page.movestable = []) ∧
    (t.phase ≠ .getFen → page.fens = t.positions ∧ page.movestable = moveRows 1 0 page.fens)

/-- A selection waits for evaluations of positions of its own. -/
def Own (t : Thread) : Prop :=
  (t.phase = .getFen → 0 < t.gameId ∧ t.positions = []) ∧
    ∀ f todo, t.phase = .updateEvals f todo → ∀ g ∈ f :: todo, g ∈ t.positions

structure Inv (v : Viewer P) : Prop where
  moves : v.page.moveArray = populateMoveArray (v.page.fens.map Fen.move)
  own : ∀ t ∈ v.threads, Own t
  last : ∀ i t, i + 1 = v.threads.length → v.threads[i]? = some t → LastLoaded v.page t
  evals : ∀ p a, v.page.evals p = some a → ∃ f, PositionOf v.threads v.page.selectedId f ∧
    f.ply - 1 = p ∧ a.fen = f.fenString

theorem inv_boot : Inv (.boot : Viewer P) where
  moves := rfl
  own t ht := by simp [Viewer.boot] at ht
  last i t hi := by simp [Viewer.boot] at hi
  evals p a h := by cases h

/-- The pages differ in evaluations and in what is played at most. -/
def SameGame (s s' : Page P) : Prop :=
  s'.selectedId = s.selectedId ∧ s'.fens = s.fens ∧ s'.moveArray = s.moveArray ∧
    s'.movestable = s.movestable

theorem sameGame_evalLoop (s : Page P) (l : List Fen) : SameGame s (evalLoop s l).1 := by
  rw [evalLoop, assign_eq]
  exact ⟨rfl, rfl, rfl, rfl⟩

theorem sameGame_nextbtn [ToLocaleString P] (s : Page P) :
    SameGame s (nextbtn s) ∧ (nextbtn s).evals = s.evals := by
  unfold nextbtn
  split
  · rw [updateEvalTbl_eq]
    exact ⟨⟨rfl, rfl, rfl, rfl⟩, rfl⟩
  · exact ⟨⟨rfl, rfl, rfl, rfl⟩, rfl⟩

theorem sameGame_prevbtn [ToLocaleString P] (s : Page P) :
    SameGame s (prevbtn s) ∧ (prevbtn s).evals = s.evals := by
  unfold prevbtn
  simp only [updateEvalTbl_eq]
  split_ifs <;> exact ⟨⟨rfl, rfl, rfl, rfl⟩, rfl⟩

theorem LastLoaded.congr {s s' : Page P} (hs : SameGame s s') (h : LastLoaded s t) :
    LastLoaded s' t := by
  obtain ⟨hid, hfens, -, htable⟩ := hs
  simpa only [LastLoaded, hid, hfens, htable] using h

theorem Inv.samePage (h : Inv v) {page : Page P} (hs : SameGame v.page page)
    (hev : page.evals = v.page.evals) : Inv ⟨page, v.threads⟩ where
  moves := by
    obtain ⟨-, hfens, hmoves, -⟩ := hs
    rw [hmoves, hfens, h.moves]
  own := h.own
  last i t hi ht := (h.last i t hi ht).congr hs
  evals p a ha := by
    rw [hs.1]
    exact h.evals p a (hev ▸ ha)

theorem Inv.concat (h : Inv v) {id : Int} (hown : Own t) (hid : t.gameId = id)
    (ht : t.phase ≠ .getFen → v.page.fens = [] ∧ t.positions = []) :
    Inv ⟨submit id v.page, v.threads ++ [t]⟩ where
  moves := h.moves
  own u hu := by
    rcases List.mem_append.mp hu with hu | hu
    · exact h.own u hu
    · rwa [List.mem_singleton.mp hu]
  last i u hi hu := by
    have hi : i = v.threads.length := by simpa using hi
    obtain rfl : t = u := by simpa [hi] using hu
    refine ⟨hid, fun _ => rfl, fun hp => ?_⟩
    obtain ⟨hfens, hpos⟩ := ht hp
    simp [submit, hfens, hpos, moveRows]
  evals p a ha := by cases ha

theorem Inv.set (h : Inv v) {t' : Thread} {page : Page P} (ht : v.threads[i]? = some t)
    (hg : t'.gameId = t.gameId) (hsub : t.positions ⊆ t'.positions) (hown : Own t')
    (hid : page.selectedId = v.page.selectedId)
    (hmoves : page.moveArray = populateMoveArray (page.fens.map Fen.move))
    (hlast : i + 1 = v.threads.length → LastLoaded page t')
    (hother : i + 1 ≠ v.threads.length → SameGame v.page page)
    (hev : ∀ p a, page.evals p = some a → v.page.evals p = some a ∨
      t.gameId = v.page.selectedId ∧ ∃ f ∈ t'.positions, f.ply - 1 = p ∧ a.fen = f.fenString) :
    Inv ⟨page, v.threads.set i t'⟩ where
  moves := hmoves
  own := forall_mem_set h.own hown
  last k u hk hu := by
    rw [List.length_set] at hk
    by_cases hik : i = k
    · subst hik
      obtain ⟨hlt, -⟩ := List.getElem?_eq_some_iff.mp ht
      rw [List.getElem?_set_self hlt] at hu
      rw [← Option.some.inj hu]
      exact hlast hk
    · rw [List.getElem?_set_ne hik] at hu
      exact (h.last k u hk hu).congr (hother (by omega))
  evals p a ha := by
    rw [hid]
    rcases hev p a ha with ha | ⟨hsel, f, hf, hply, hfen⟩
    · obtain ⟨f, hf, hrest⟩ := h.evals p a ha
      exact ⟨f, hf.mono (extends_set ht hg hsub), hrest⟩
    · exact ⟨f, positionOf_set ht (hg.trans hsel) hf, hply, hfen⟩

theorem own_evalLoop {s : Page P} {g : Int} {l positions : List Fen} (h : l ⊆ positions) :
    Own ⟨g, positions, (evalLoop s l).2⟩ :=
  ⟨fun hp => absurd hp (evalLoop_phase_ne s l),
    fun _ _ hp g hg => h (mem_of_evalLoop hp g hg)⟩

theorem evals_evalLoop {s : Page P} {l : List Fen} {p : Int} {a : Evaluation P}
    (h : (evalLoop s l).1.evals p = some a) :
    s.evals p = some a ∨ ∃ f ∈ l, f.ply - 1 = p ∧ a.fen = f.fenString := by
  rcases evals_assign h with h | ⟨fa, hfa, hply, rfl⟩
  · exact .inl h
  · obtain ⟨hmem, hfen⟩ := mem_of_cached hfa
    exact .inr ⟨fa.1, hmem, hply, hfen⟩

theorem after_submit_nonpos (h : v.page.fens = []) {id : Int} (hid : id ≤ 0) :
    v.submit id = ⟨submit id v.page, v.threads ++ [⟨id, [], .finished⟩]⟩ := by
  have hfens : (submit id v.page).fens = [] := h
  simp [Viewer.submit, hid, getFen, hfens, evalLoop_nil]

theorem Inv.submit (h : Inv v) {id : Int} (hc : InOrder v (.submit id)) : Inv (v.submit id) := by
  by_cases hid : id ≤ 0
  · have hfens : v.page.fens = [] := hc.resolve_left (by omega)
    rw [after_submit_nonpos hfens hid]
    exact h.concat ⟨by simp, by simp⟩ rfl fun _ => ⟨hfens, rfl⟩
  · rw [Viewer.submit, if_neg hid]
    exact h.concat ⟨fun _ => ⟨by simp only; omega, rfl⟩, by simp⟩ rfl (by simp)

theorem getFen_of_empty {s : Page P} {id : Int} {response : Option (List (Option Fen))}
    (hmoves : s.moveArray = populateMoveArray (s.fens.map Fen.move)) (hfens : s.fens = [])
    (hr : (response.getD []).reduceOption = []) : getFen id response s = s := by
  unfold getFen
  split
  · rfl
  · cases response with
    | none => rfl
    | some result =>
      have hr : result.reduceOption = [] := hr
      cases s
      simp_all [populateMovesTable, moveRows, populateMoveArray]

/-- A response in order fills the page for the last selection, or changes
nothing. -/
theorem Inv.response_cases (h : Inv v) {response : Option (List (Option Fen))}
    (hg : v.inGetFen i = some t) (hc : InOrder v (.fensArrive i response)) :
    (∃ result, response = some result ∧ i + 1 = v.threads.length ∧
      t.gameId = v.page.selectedId ∧ v.page.movestable = []) ∨
    (getFen t.gameId response v.page = v.page ∧ v.page.fens = [] ∧
      (response.getD []).reduceOption = []) := by
  obtain ⟨ht, hphase⟩ := inGetFen_eq_some hg
  simp only [InOrder, hg] at hc
  rcases hc with ⟨hi, hok⟩ | ⟨hfens, hr⟩
  · obtain ⟨result, hres⟩ := Option.isSome_iff_exists.mp hok
    obtain ⟨hsel, htable, -⟩ := h.last i t hi ht
    exact .inl ⟨result, hres, hi, hsel, htable hphase⟩
  · exact .inr ⟨getFen_of_empty h.moves hfens hr, hfens, hr⟩

theorem Inv.fensArrive (h : Inv v) {response : Option (List (Option Fen))}
    (hc : InOrder v (.fensArrive i response)) : Inv (v.fensArrive i response) := by
  cases hg : v.inGetFen i with
  | none => simpa [Viewer.fensArrive, hg] using h
  | some t =>
    obtain ⟨ht, hphase⟩ := inGetFen_eq_some hg
    obtain ⟨hid, hpos⟩ := (h.own t (List.mem_of_getElem? ht)).1 hphase
    have hsub {l : List Fen} : t.positions ⊆ l := by simp [hpos]
    rcases h.response_cases hg hc with ⟨result, rfl, hi, hsel, hrows⟩ | ⟨hpage, hfens, hr⟩
    · simp only [Viewer.fensArrive, hg, getFen_some hid, Option.getD_some]
      obtain ⟨hid', hfens', hmoves', htable'⟩ := sameGame_evalLoop
        (getFen t.gameId (some result) v.page) result.reduceOption
      rw [getFen_some hid] at hid' hfens' hmoves' htable'
      refine h.set ht rfl hsub (own_evalLoop (List.Subset.refl _)) hid' ?_ (fun _ => ?_)
        (fun hne => absurd hi hne) fun p a ha => ?_
      · rw [hmoves', hfens']
      · refine ⟨hsel.trans hid'.symm, fun hp => absurd hp (evalLoop_phase_ne _ _), fun _ => ?_⟩
        rw [hfens', htable']
        exact ⟨rfl, by simp [populateMovesTable, hrows]⟩
      · rcases evals_evalLoop ha with ha | ha
        · exact .inl ha
        · exact .inr ⟨hsel, ha⟩
    · simp only [Viewer.fensArrive, hg, hpage, hfens, evalLoop_nil, hr]
      refine h.set ht rfl hsub ⟨by simp, by simp⟩ rfl h.moves (fun hi => ?_)
        (fun _ => ⟨rfl, rfl, rfl, rfl⟩) fun p a ha => .inl ha
      obtain ⟨hsel, htable, -⟩ := h.last i t hi ht
      exact ⟨hsel, by simp, fun _ => ⟨hfens, by simp [hfens, moveRows, htable hphase]⟩⟩

theorem Inv.evalArrives (h : Inv v) {r : Option (EvalBody P)}
    (hc : InOrder v (.evalArrives i r)) : Inv (v.evalArrives i r) := by
  cases hu : v.inUpdateEvals i with
  | none => simpa [Viewer.evalArrives, hu] using h
  | some w =>
    obtain ⟨t, f, todo⟩ := w
    obtain ⟨ht, hphase⟩ := inUpdateEvals_eq_some hu
    have hown := (h.own t (List.mem_of_getElem? ht)).2 f todo hphase
    have hlast (hi : i + 1 = v.threads.length) : LastLoaded v.page t := h.last i t hi ht
    cases r with
    | none =>
      simp only [Viewer.evalArrives, hu]
      refine h.set ht rfl (List.Subset.refl _) ⟨by simp, by simp⟩ rfl h.moves (fun hi => ?_)
        (fun _ => ⟨rfl, rfl, rfl, rfl⟩) fun p a ha => .inl ha
      obtain ⟨hsel, -, hloaded⟩ := hlast hi
      exact ⟨hsel, by simp, fun _ => hloaded (by simp [hphase])⟩
    | some r =>
      simp only [InOrder, hu] at hc
      simp only [Viewer.evalArrives, hu]
      have hsame : SameGame v.page (evalLoop (v.page.store f r) todo).1 :=
        sameGame_evalLoop (v.page.store f r) todo
      refine h.set ht rfl (List.Subset.refl _)
        (own_evalLoop fun g hg => hown g (List.mem_cons_of_mem f hg)) hsame.1 ?_ (fun hi => ?_)
        (fun _ => hsame) fun p a ha => ?_
      · obtain ⟨-, hfens, hmoves, -⟩ := hsame
        rw [hfens, hmoves, h.moves]
      · obtain ⟨hsel, -, hloaded⟩ := (hlast hi).congr hsame
        exact ⟨hsel, fun hp => absurd hp (evalLoop_phase_ne _ _),
          fun _ => hloaded (by simp [hphase])⟩
      · rcases evals_evalLoop ha with ha | ⟨g, hg, hrest⟩
        · rcases evals_setEval ha with ha | ⟨hply, rfl⟩
          · exact .inl ha
          · exact .inr ⟨hc, f, hown f List.mem_cons_self, hply, rfl⟩
        · exact .inr ⟨hc, g, hown g (List.mem_cons_of_mem f hg), hrest⟩

theorem Inv.after [ToLocaleString P] (h : Inv v) {e : ViewerEvent P} (hc : InOrder v e) :
    Inv (v.after e) := by
  cases e with
  | submit id => exact h.submit hc
  | fensArrive i response => exact h.fensArrive hc
  | evalArrives i r => exact h.evalArrives hc
  | next => exact h.samePage (sameGame_nextbtn v.page).1 (sameGame_nextbtn v.page).2
  | prev => exact h.samePage (sameGame_prevbtn v.page).1 (sameGame_prevbtn v.page).2

/-- In a step in order `evals` receives positions of the selected game only. -/
theorem Inv.received_belongs [ToLocaleString P] (h : Inv v) {e : ViewerEvent P}
    (hc : InOrder v e) {fa : Fen × Evaluation P} (hfa : fa ∈ received v e) :
    PositionOf (v.after e).threads (v.after e).page.selectedId fa.1 := by
  cases e with
  | submit id =>
    by_cases hid : id ≤ 0
    · have hfens : v.page.fens = [] := hc.resolve_left (by omega)
      simp [received, hid, hfens, cached] at hfa
    · simp [received, hid] at hfa
  | fensArrive i response =>
    cases hg : v.inGetFen i with
    | none => simp [received, hg] at hfa
    | some t =>
      obtain ⟨ht, hphase⟩ := inGetFen_eq_some hg
      obtain ⟨hid, -⟩ := (h.own t (List.mem_of_getElem? ht)).1 hphase
      simp only [received, hg] at hfa
      rcases h.response_cases hg hc with ⟨result, rfl, -, hsel, -⟩ | ⟨hpage, hfens, -⟩
      · have hfens : (getFen t.gameId (some result) v.page).fens = result.reduceOption := by
          rw [getFen_some hid]
        have hid' : (getFen t.gameId (some result) v.page).selectedId = v.page.selectedId := by
          rw [getFen_some hid]
        rw [hfens] at hfa
        simp only [Viewer.after, Viewer.fensArrive, hg]
        refine positionOf_set ht ?_ (mem_of_cached hfa).1
        exact (hsel.trans hid'.symm).trans (sameGame_evalLoop _ _).1.symm
      · rw [hpage, hfens] at hfa
        simp [cached] at hfa
  | evalArrives i r =>
    cases hu : v.inUpdateEvals i with
    | none => simp [received, hu] at hfa
    | some w =>
      obtain ⟨t, f, todo⟩ := w
      obtain ⟨ht, hphase⟩ := inUpdateEvals_eq_some hu
      have hown := (h.own t (List.mem_of_getElem? ht)).2 f todo hphase
      cases r with
      | none => simp [received, hu] at hfa
      | some r =>
        simp only [InOrder, hu] at hc
        simp only [received, hu, List.mem_cons] at hfa
        simp only [Viewer.after, Viewer.evalArrives, hu]
        obtain ⟨hid', -⟩ := sameGame_evalLoop (v.page.store f r) todo
        refine positionOf_set ht (hc.trans hid'.symm) (hown fa.1 ?_)
        rcases hfa with rfl | hfa
        · exact List.mem_cons_self
        · exact List.mem_cons_of_mem f (mem_of_cached hfa).1
  | next => simp [received] at hfa
  | prev => simp [received] at hfa

theorem Inv.belongs (h : Inv v) (ha : v.AllArrived) : Belongs v := by
  obtain ⟨hne, hfin⟩ := ha
  have hlen : v.threads.length - 1 + 1 = v.threads.length := by
    have hpos := List.length_pos_iff.mpr hne
    omega
  obtain ⟨t, ht⟩ : ∃ t, v.threads[v.threads.length - 1]? = some t :=
    ⟨_, List.getElem?_eq_getElem (by omega)⟩
  have hmem := List.mem_of_getElem? ht
  obtain ⟨hsel, -, hloaded⟩ := h.last _ t hlen ht
  obtain ⟨hfens, htable⟩ := hloaded (by simp [hfin t hmem])
  exact ⟨⟨t, hmem, hsel, hfens⟩, h.moves, htable, h.evals⟩

theorem Inv.noStale [ToLocaleString P] (h : Inv v) {e : ViewerEvent P} (hc : InOrder v e) :
    NoStale v e := by
  intro fa hfa j t ht _
  obtain ⟨hlt, -⟩ := List.getElem?_eq_some_iff.mp ht
  have hlen : (v.after e).threads.length - 1 + 1 = (v.after e).threads.length := by omega
  obtain ⟨u, hu⟩ : ∃ u, (v.after e).threads[(v.after e).threads.length - 1]? = some u :=
    ⟨_, List.getElem?_eq_getElem (by omega)⟩
  obtain ⟨hsel, -, -⟩ := (h.after hc).last _ u hlen hu
  exact ⟨_, u, by omega, hu, hsel ▸ h.received_belongs hc hfa⟩

theorem inv_of_inOrder [ToLocaleString P] {es : List (ViewerEvent P)}
    (h : Throughout view InOrder .boot es) : Always view (fun _ v => Inv v) .boot es := by
  refine Always.of_throughout inv_boot (fun p e v v' _ _ hi hs hc => ?_) h
  obtain rfl : v.after e = v' := Except.ok.inj hs
  exact hi.after hc

/-- Responses that arrive in order leave the page with the game selected last. -/
theorem selections_in_order [ToLocaleString P] {es : List (ViewerEvent P)}
    (h : Throughout view InOrder .boot es) :
    Always view (fun _ v => v.AllArrived → Belongs v) .boot es ∧
      Throughout view NoStale .boot es := by
  have hinv := inv_of_inOrder h
  constructor
  · intro p v hp hv
    exact (hinv p v hp hv).belongs
  · intro p e v v' hp hv hs
    exact (hinv p v ((List.prefix_append p [e]).trans hp) hv).noStale (h p e v v' hp hv hs)

end Invariant

section Undisturbed

variable {P : Type} {s : Page P} {items : List (Fen × Evaluation P)} {l : List Fen} {f : Fen}

theorem assign_evals_congr {s' : Page P} (h : s.evals = s'.evals) :
    (s.assign items).evals = (s'.assign items).evals := by
  induction items generalizing s s' with
  | nil => exact h
  | cons fa items ih => exact ih (by simp only [Page.setEval, h])

theorem getFen_evals (id : Int) (response : Option (List (Option Fen))) (s : Page P) :
    (getFen id response s).evals = s.evals ∧
      (getFen id response s).evalsDict = s.evalsDict := by
  unfold getFen
  split
  · exact ⟨rfl, rfl⟩
  · cases response <;> exact ⟨rfl, rfl⟩

/-- `evals` is emptied by a submit, and receives what `received` has. -/
theorem evals_after [ToLocaleString P] (v : Viewer P) (e : ViewerEvent P) :
    ∃ s : Page P, (s = v.page ∨ ∃ id, e = .submit id ∧ s = submit id v.page) ∧
      (v.after e).page.evals = (s.assign (received v e)).evals := by
  cases e with
  | submit id =>
    refine ⟨submit id v.page, .inr ⟨id, rfl, rfl⟩, ?_⟩
    by_cases hid : id ≤ 0
    · simp only [Viewer.after, Viewer.submit, hid, if_true, received, getFen, evalLoop]
      rfl
    · simp only [Viewer.after, Viewer.submit, hid, if_false, received]
      rfl
  | fensArrive i response =>
    refine ⟨v.page, .inl rfl, ?_⟩
    cases hg : v.inGetFen i with
    | none => simp [Viewer.after, Viewer.fensArrive, received, hg, Page.assign]
    | some t =>
      obtain ⟨hev, hdict⟩ := getFen_evals t.gameId response v.page
      simp only [Viewer.after, Viewer.fensArrive, received, hg, evalLoop, hdict]
      exact assign_evals_congr hev
  | evalArrives i r =>
    refine ⟨v.page, .inl rfl, ?_⟩
    cases hu : v.inUpdateEvals i with
    | none => simp [Viewer.after, Viewer.evalArrives, received, hu, Page.assign]
    | some w =>
      obtain ⟨t, f, todo⟩ := w
      cases r with
      | none => simp [Viewer.after, Viewer.evalArrives, received, hu, Page.assign]
      | some r =>
        simp only [Viewer.after, Viewer.evalArrives, received, hu, evalLoop]
        exact assign_evals_congr rfl
  | next => exact ⟨v.page, .inl rfl, (sameGame_nextbtn v.page).2⟩
  | prev => exact ⟨v.page, .inl rfl, (sameGame_prevbtn v.page).2⟩

theorem evalLoop_cons_some {item : Evaluation P} (h : s.evalsDict.get f.fenString = some item) :
    evalLoop s (f :: l) = evalLoop (s.setEval f item) l := by
  simp only [evalLoop, cached, h]
  rfl

theorem evalLoop_cons_none (h : s.evalsDict.get f.fenString = none) :
    evalLoop s (f :: l) = (s, .updateEvals f l) := by
  simp [evalLoop, cached, h, waitFor, Page.assign]

/-- The answers to the requests of one loop, with nothing between them, make the
rounds of `updateEvals`. -/
theorem run_evalLoop [ToLocaleString P] (answer : String → EvalBody P) (threads : List Thread)
    (g : Int) (positions l : List Fen) (s : Page P) :
    ∃ rs : List (EvalBody P),
      run view ⟨(evalLoop s l).1, threads ++ [⟨g, positions, (evalLoop s l).2⟩]⟩
        (rs.map fun r => .evalArrives threads.length (some r)) =
      .ok ⟨l.foldl (evalFen answer) s, threads ++ [⟨g, positions, .finished⟩]⟩ := by
  induction l generalizing s with
  | nil => exact ⟨[], rfl⟩
  | cons f l ih =>
    cases hd : s.evalsDict.get f.fenString with
    | some item =>
      rw [evalLoop_cons_some hd, List.foldl_cons, evalFen_of_some hd]
      exact ih (s.setEval f item)
    | none =>
      obtain ⟨rs, hrs⟩ := ih (s.store f (answer f.fenString))
      refine ⟨answer f.fenString :: rs, ?_⟩
      rw [evalLoop_cons_none hd, List.foldl_cons, evalFen_of_none hd, List.map_cons, ← hrs]
      apply run_cons_of_ok
      simp [view, Viewer.after, Viewer.evalArrives, Viewer.inUpdateEvals]

/-- A selection whose responses arrive with nothing between them does what the
submit handler does in one go. -/
theorem run_select [ToLocaleString P] (answer : String → EvalBody P) {id : Int} (hid : 0 < id)
    (result : List (Option Fen)) (v : Viewer P) :
    ∃ rs : List (EvalBody P),
      run view v (.submit id :: .fensArrive v.threads.length (some result) ::
        rs.map fun r => .evalArrives v.threads.length (some r)) =
      .ok ⟨select answer id result v.page, v.threads ++ [⟨id, result.reduceOption, .finished⟩]⟩ := by
  obtain ⟨rs, hrs⟩ := run_evalLoop answer v.threads id result.reduceOption result.reduceOption
    (getFen id (some result) (submit id v.page))
  refine ⟨rs, ?_⟩
  rw [select_eq hid, ← hrs]
  have hsubmit : view v (.submit id) =
      .ok ⟨submit id v.page, v.threads ++ [⟨id, [], .getFen⟩]⟩ := by
    rw [view, Viewer.after, Viewer.submit, if_neg (by omega)]
  rw [run_cons_of_ok hsubmit]
  have hget : (⟨submit id v.page, v.threads ++ [⟨id, [], .getFen⟩]⟩ : Viewer P).inGetFen
      v.threads.length = some ⟨id, [], .getFen⟩ := by
    simp [Viewer.inGetFen, Option.filter]
  apply run_cons_of_ok
  simp [view, Viewer.after, Viewer.fensArrive, hget, getFen_some hid]

end Undisturbed

def afterD4 : Fen where
  id := 2
  ply := 1
  fenString := "rnbqkbnr/pppppppp/8/8/3P4/8/PPP1PPPP/RNBQKBNR b KQkq - 0 1"
  move := "d2d4"

/-- Game 2 is selected while an evaluation for game 1 is under way, which
arrives last. -/
def staleAnswers : List (ViewerEvent Int) :=
  [.submit 1, .fensArrive 0 (some [some afterE4]), .submit 2,
    .fensArrive 1 (some [some afterD4]), .evalArrives 1 (some (drawn afterD4.fenString)),
    .evalArrives 0 (some (drawn afterE4.fenString))]

theorem fenString_ne_of_positionOf {phase phase' : Phase} {f : Fen}
    (h : PositionOf [⟨1, [afterE4], phase⟩, ⟨2, [afterD4], phase'⟩] 2 f) :
    f.fenString ≠ afterE4.fenString := by
  obtain ⟨t, ht, hg, hf⟩ := h
  simp only [List.mem_cons, List.not_mem_nil, or_false] at ht
  rcases ht with rfl | rfl
  · simp at hg
  · obtain rfl := List.mem_singleton.mp hf
    decide

theorem stale_answer_stored :
    ¬ Always view (fun _ v => v.AllArrived → Belongs v) .boot staleAnswers ∧
      ¬ Throughout view NoStale .boot staleAnswers := by
  constructor
  · intro h
    obtain ⟨-, -, -, hev⟩ := h staleAnswers _ (List.prefix_refl _) rfl
      ⟨List.cons_ne_nil _ _, by decide⟩
    obtain ⟨f, hf, -, hfen⟩ := hev 0 (.fetched afterE4 (drawn afterE4.fenString)) rfl
    exact fenString_ne_of_positionOf hf hfen.symm
  · intro h
    -- The last response, with `getFen` of game 2 completed.
    obtain ⟨k, u, hk, hu, hpos⟩ := h (staleAnswers.take 5)
      (.evalArrives 0 (some (drawn afterE4.fenString))) _ _ (List.prefix_refl _) rfl rfl
      (afterE4, .fetched afterE4 (drawn afterE4.fenString)) List.mem_cons_self 1 _ rfl (by decide)
    match k with
    | 0 => omega
    | 1 =>
      obtain rfl := Option.some.inj hu
      exact fenString_ne_of_positionOf hpos rfl
    | k + 2 => cases hu

/-- Game 2 is selected while an evaluation for game 1 is under way, which
fails. -/
def answersInOrder : List (ViewerEvent Int) :=
  [.submit 1, .fensArrive 0 (some [some afterE4]), .submit 2, .evalArrives 0 none,
    .fensArrive 1 (some [some afterD4]), .next, .evalArrives 1 (some (drawn afterD4.fenString)),
    .prev]

theorem selections_in_order_two_games :
    Always view (fun _ v => v.AllArrived → Belongs v) .boot answersInOrder ∧
      Throughout view NoStale .boot answersInOrder := by
  apply selections_in_order
  refine .cons rfl (.inl (by decide)) (.cons rfl (.inl ⟨rfl, rfl⟩) (.cons rfl (.inl (by decide))
    (.cons rfl trivial (.cons rfl (.inl ⟨rfl, rfl⟩) (.cons rfl trivial
    (.cons rfl ?_ (.cons rfl trivial .nil)))))))
  exact (rfl : (2 : Int) = 2)

end SmakChess.Web
