import SmakChess.Machine
import Mathlib.Logic.Function.Basic
import Mathlib.Data.List.Basic

/-! A work queue, over any producers, items and shared state. A producer puts
an item in the FIFO and then gives the semaphore; the worker takes the
semaphore, gets an item, handles it, appends a node and gives the semaphore. -/

namespace WorkQueue

open Machine

variable {ι α σ ν : Type*}

inductive Stage (α : Type*)
  | take
  | get
  | handle (a : α)
  | append
  | give
  deriving DecidableEq

structure State (ι α σ ν : Type*) where
  between : ι → Bool
  fifo : List α
  sem : Nat
  stage : Stage α
  shared : σ
  nodes : List ν

inductive Step (ι α : Type*)
  | put (i : ι) (a : α)
  | give (i : ι)
  | work

/-- The work itself, and the limit at which the semaphore saturates. -/
structure Worker (α σ ν : Type*) where
  limit : Nat
  limit_pos : 0 < limit
  handle : σ → α → σ
  observe : σ → ν

inductive Blocked
  | producer
  | worker
  deriving DecidableEq, Repr

def Worker.semGive (w : Worker α σ ν) (n : Nat) : Nat := min (n + 1) w.limit

def work (w : Worker α σ ν) (s : State ι α σ ν) : Except Blocked (State ι α σ ν) :=
  match s.stage with
  | .take =>
    if s.sem = 0 then .error .worker else .ok { s with sem := s.sem - 1, stage := .get }
  | .get =>
    match s.fifo with
    | [] => .error .worker
    | a :: rest => .ok { s with fifo := rest, stage := .handle a }
  | .handle a => .ok { s with shared := w.handle s.shared a, stage := .append }
  | .append => .ok { s with nodes := s.nodes ++ [w.observe s.shared], stage := .give }
  | .give => .ok { s with sem := w.semGive s.sem, stage := .take }

def step [DecidableEq ι] (w : Worker α σ ν) (s : State ι α σ ν) :
    Step ι α → Except Blocked (State ι α σ ν)
  | .put i a =>
    if s.between i then .error .producer
    else .ok { s with fifo := s.fifo ++ [a], between := Function.update s.between i true }
  | .give i =>
    if s.between i then
      .ok { s with sem := w.semGive s.sem, between := Function.update s.between i false }
    else .error .producer
  | .work => work w s

def idle (ι α ν : Type*) (x : σ) : State ι α σ ν where
  between := fun _ => false
  fifo := []
  sem := 0
  stage := .take
  shared := x
  nodes := []

/-! What is on the way: the item in the worker's hand, then the FIFO. -/

def Stage.inHand : Stage α → List α
  | .handle a => [a]
  | _ => []

def State.waiting (s : State ι α σ ν) : List α := s.stage.inHand ++ s.fifo

/-- The node of the last item handled, as long as the list lacks it. -/
def State.owed (w : Worker α σ ν) (s : State ι α σ ν) : List ν :=
  match s.stage with
  | .append => [w.observe s.shared]
  | _ => []

def handledBy (s : State ι α σ ν) : Step ι α → List α
  | .work => s.stage.inHand
  | _ => []

def Step.item : Step ι α → Option α
  | .put _ a => some a
  | _ => none

def puts (es : List (Step ι α)) : List α := es.filterMap Step.item

def handled [DecidableEq ι] (w : Worker α σ ν) (s : State ι α σ ν) (es : List (Step ι α)) :
    List α := outputs (step w) (fun s e _ => handledBy s e) s es

def observations (w : Worker α σ ν) (x : σ) : List α → List ν
  | [] => []
  | a :: as => w.observe (w.handle x a) :: observations w (w.handle x a) as

theorem observations_append (w : Worker α σ ν) (x : σ) (as bs : List α) :
    observations w x (as ++ bs) = observations w x as ++ observations w (as.foldl w.handle x) bs := by
  induction as generalizing x with
  | nil => rfl
  | cons a as ih => simp [observations, ih]

/-- An item that waits while the worker is blocked at an empty semaphore has a
producer that still has to give it. -/
def Awake (s : State ι α σ ν) : Prop :=
  s.stage = .take → s.sem = 0 → s.fifo ≠ [] → ∃ i, s.between i = true

theorem semGive_pos (w : Worker α σ ν) (n : Nat) : w.semGive n ≠ 0 := by
  have := w.limit_pos
  unfold Worker.semGive
  omega

section Step

variable {w : Worker α σ ν} {s t : State ι α σ ν}

theorem awake_of_ne_take (h : s.stage ≠ .take) : Awake s := fun hs => absurd hs h

theorem work_spec (h : work w s = .ok t) :
    s.stage.inHand ++ t.waiting = s.waiting ∧
      t.shared = s.stage.inHand.foldl w.handle s.shared ∧
      t.nodes ++ t.owed w = s.nodes ++ s.owed w ++ observations w s.shared s.stage.inHand ∧
      t.between = s.between ∧ Awake t := by
  obtain ⟨between, fifo, sem, stage, shared, nodes⟩ := s
  cases stage with
  | take =>
    simp only [work] at h
    split_ifs at h
    obtain rfl := Except.ok.inj h
    exact ⟨rfl, rfl, by simp [State.owed, observations, Stage.inHand], rfl,
      awake_of_ne_take (by simp)⟩
  | get =>
    cases fifo with
    | nil => cases h
    | cons a rest =>
      obtain rfl := Except.ok.inj h
      exact ⟨rfl, rfl, by simp [State.owed, observations, Stage.inHand], rfl,
        awake_of_ne_take (by simp)⟩
  | handle a =>
    obtain rfl := Except.ok.inj h
    exact ⟨rfl, rfl, by simp [State.owed, observations, Stage.inHand], rfl,
      awake_of_ne_take (by simp)⟩
  | append =>
    obtain rfl := Except.ok.inj h
    exact ⟨rfl, rfl, by simp [State.owed, observations, Stage.inHand], rfl,
      awake_of_ne_take (by simp)⟩
  | give =>
    obtain rfl := Except.ok.inj h
    refine ⟨rfl, rfl, by simp [State.owed, observations, Stage.inHand], rfl, ?_⟩
    intro _ hsem
    exact absurd hsem (semGive_pos w sem)

variable [DecidableEq ι] {e : Step ι α}

theorem step_spec (h : step w s e = .ok t) :
    handledBy s e ++ t.waiting = s.waiting ++ e.item.toList ∧
      t.shared = (handledBy s e).foldl w.handle s.shared ∧
      t.nodes ++ t.owed w = s.nodes ++ s.owed w ++ observations w s.shared (handledBy s e) ∧
      (Awake s → Awake t) := by
  cases e with
  | put i a =>
    simp only [step] at h
    split_ifs at h with hi
    obtain rfl := by simpa using h.symm
    refine ⟨by simp [handledBy, State.waiting, Step.item], rfl, ?_, fun _ _ _ _ => ⟨i, by simp⟩⟩
    simp [handledBy, observations, State.owed]
  | give i =>
    simp only [step] at h
    split_ifs at h with hi
    obtain rfl := by simpa using h.symm
    refine ⟨by simp [handledBy, State.waiting, Step.item], rfl, ?_, fun _ _ hz => ?_⟩
    · simp [handledBy, observations, State.owed]
    · exact absurd hz (semGive_pos w s.sem)
  | work =>
    obtain ⟨hwaiting, hshared, hnodes, -, hawake⟩ := work_spec h
    exact ⟨by simpa [handledBy, Step.item] using hwaiting, hshared, hnodes, fun _ => hawake⟩

/-- When the worker is blocked and no producer is between its put and its
give, nothing is left in the FIFO. -/
theorem fifo_eq_nil_of_blocked (h : Awake s)
    (hblocked : step w s .work = .error .worker) (hquiet : ∀ i, s.between i = false) :
    s.fifo = [] := by
  simp only [step, work] at hblocked
  split at hblocked
  next hstage =>
    split_ifs at hblocked with hsem
    by_contra hne
    obtain ⟨i, hi⟩ := h hstage hsem hne
    rw [hquiet i] at hi
    cases hi
  next =>
    split at hblocked
    · assumption
    · cases hblocked
  all_goals cases hblocked

end Step

/-! Runs from the idle queue. -/

section Runs

variable [DecidableEq ι] (w : Worker α σ ν) (x : σ)

/-- Items are handled in put order, each once, and leave one node each. -/
structure InOrder (p : List (Step ι α)) (s : State ι α σ ν) : Prop where
  order : handled w (idle ι α ν x) p ++ s.waiting = puts p
  shared : s.shared = (handled w (idle ι α ν x) p).foldl w.handle x
  nodes : s.nodes ++ s.owed w = observations w x (handled w (idle ι α ν x) p)
  awake : Awake s

theorem always_inOrder (es : List (Step ι α)) :
    Always (step w) (InOrder w x) (idle ι α ν x) es := by
  refine Always.of_step ⟨rfl, rfl, rfl, fun _ _ h => absurd rfl h⟩ ?_
  intro p e s t _ hs hi h
  obtain ⟨hwaiting, hshared, hnodes, hawake⟩ := step_spec h
  have hhandled : handled w (idle ι α ν x) (p ++ [e]) =
      handled w (idle ι α ν x) p ++ handledBy s e := outputs_concat hs h
  refine ⟨?_, ?_, ?_, hawake hi.awake⟩
  · have hputs : puts (p ++ [e]) = puts p ++ e.item.toList := by
      simp only [puts, List.filterMap_append, List.filterMap_cons, List.filterMap_nil]
      cases e.item <;> rfl
    rw [hhandled, List.append_assoc, hwaiting, ← List.append_assoc, hi.order, hputs]
  · rw [hhandled, List.foldl_append, ← hi.shared, hshared]
  · rw [hhandled, observations_append, ← hi.shared, ← hi.nodes, hnodes]

end Runs

end WorkQueue
