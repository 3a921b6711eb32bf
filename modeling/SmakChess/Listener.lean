import SmakChess.Shell
import SmakChess.WorkQueue

/-! The FIFO listener of the state machine, and the shell that feeds it. The
shell's `reset` does not go through the FIFO. -/

namespace SmakChess

open Machine WorkQueue

/-- `struct fsm_fifo_item_t` without the pointer to the one state there is. -/
structure FsmFifoItem where
  pin : Int
  isUp : Bool
  deriving DecidableEq, Repr

/-- `pin_change` takes the pin as an `uint8_t`. -/
def FsmFifoItem.event (ffi : FsmFifoItem) : Event := ⟨(ffi.pin % 256).toNat, ffi.isUp⟩

/-- A state that `pin_change` has not stopped with a fault. -/
abbrev Shared := Except Fault ChessState

def fifoListener : Worker FsmFifoItem Shared (Except Fault States) where
  limit := 1
  limit_pos := Nat.one_pos
  handle st ffi := st.bind fun st => step st ffi.event
  observe st := st.map ChessState.stateVal

/-- The items passed to `pin_change` are the first ones put, in put order, and
`move_check_list` holds one node for each, short of the last one while the
listener is about to append it. When the listener is blocked and no producer is
between its put and its give, the FIFO is empty. -/
structure Serves {ι : Type*} [DecidableEq ι] (st₀ : Shared) (p : List (Step ι FsmFifoItem))
    (s : State ι FsmFifoItem Shared (Except Fault States)) : Prop where
  order : handled fifoListener (idle ι FsmFifoItem _ st₀) p <+: puts p
  nodes : s.nodes ++ s.owed fifoListener =
    observations fifoListener st₀ (handled fifoListener (idle ι FsmFifoItem _ st₀) p)
  awake : WorkQueue.step fifoListener s .work = .error .worker → (∀ i, s.between i = false) → s.fifo = []

theorem fifo_listener_serves {ι : Type*} [DecidableEq ι] (st₀ : Shared)
    (es : List (Step ι FsmFifoItem)) :
    Always (WorkQueue.step fifoListener) (Serves st₀) (idle ι FsmFifoItem _ st₀) es := by
  intro p s hp hs
  obtain ⟨horder, -, hnodes, hawake⟩ := always_inOrder fifoListener st₀ es p s hp hs
  refine ⟨?_, hnodes, fun hblocked hquiet => fifo_eq_nil_of_blocked hawake hblocked hquiet⟩
  rw [← horder]
  exact List.prefix_append _ _

/-! The shell. -/

inductive ShellCommand
  | piece (cmd : Command)
  | reset
  deriving DecidableEq, Repr

inductive Action
  | event (ffi : FsmFifoItem)
  | reset
  deriving DecidableEq, Repr

def queueFsmWorkFifo (e : Event) : FsmFifoItem := ⟨e.pinNumber, e.isUp⟩

def ShellCommand.action : ShellCommand → Option Action
  | .piece cmd => (pieceHandler cmd).map fun e => .event (queueFsmWorkFifo e)
  | .reset => some .reset

def act (st : Shared) : Action → Shared
  | .event ffi => fifoListener.handle st ffi
  | .reset => st.map resetFsm

def execute (st : Shared) (cmd : ShellCommand) : Shared :=
  match cmd.action with
  | none => st
  | some a => act st a

structure ShellState where
  queue : State Unit FsmFifoItem Shared (Except Fault States)
  todo : List ShellCommand

inductive Thread
  | shell
  | listener
  deriving DecidableEq, Repr

def shellThread (s : ShellState) : Except Blocked ShellState :=
  if s.queue.between () then
    (WorkQueue.step fifoListener s.queue (.give ())).map fun q => { s with queue := q }
  else
    match s.todo with
    | [] => .error .producer
    | .reset :: todo =>
      .ok { queue := { s.queue with shared := s.queue.shared.map resetFsm }, todo := todo }
    | .piece cmd :: todo =>
      match pieceHandler cmd with
      | none => .ok { s with todo := todo }
      | some e =>
        (WorkQueue.step fifoListener s.queue (.put () (queueFsmWorkFifo e))).map
          fun q => { queue := q, todo := todo }

def shellStep (s : ShellState) : Thread → Except Blocked ShellState
  | .shell => shellThread s
  | .listener => (WorkQueue.step fifoListener s.queue .work).map fun q => { s with queue := q }

def shellInitial (st₀ : Shared) (cmds : List ShellCommand) : ShellState where
  queue := idle Unit FsmFifoItem _ st₀
  todo := cmds

def ShellState.resets (s : ShellState) : Bool :=
  !s.queue.between () && s.todo.head? == some .reset

def actsBy (s : ShellState) : Thread → List Action
  | .listener => s.queue.stage.inHand.map .event
  | .shell => if s.resets then [.reset] else []

def acted (s : ShellState) (sched : List Thread) : List Action :=
  outputs shellStep (fun s th _ => actsBy s th) s sched

def gameView (st : ChessState) : States × Board × (Color → Wing → Bool) × Bool × Nat × Nat :=
  (st.stateVal, st.board, st.right, st.enPassant, st.enPassantSquare, st.ply)

/-- Once the queue is drained the state is that of the commands executed one
after another, and what acts on the state acts in the order it was issued. -/
structure Sequential (st₀ : Shared) (cmds : List ShellCommand) (p : List Thread)
    (s : ShellState) : Prop where
  drained : s.queue.waiting = [] → ∃ issued, issued ++ s.todo = cmds ∧
    s.queue.shared.map gameView = (issued.foldl execute st₀).map gameView
  inOrder : acted (shellInitial st₀ cmds) p <+: cmds.filterMap ShellCommand.action

/-- A reset finds nothing in the FIFO and nothing in the listener's hand. -/
def ResetDrained (s : ShellState) (th : Thread) : Prop :=
  th = .shell → s.resets = true → s.queue.waiting = []

theorem foldl_execute (st : Shared) (cmds : List ShellCommand) :
    cmds.foldl execute st = (cmds.filterMap ShellCommand.action).foldl act st := by
  induction cmds generalizing st with
  | nil => rfl
  | cons cmd cmds ih =>
    rw [List.foldl_cons, ih, List.filterMap_cons, execute]
    cases cmd.action <;> rfl

section Step

variable {s t : ShellState} {th : Thread} {q : State Unit FsmFifoItem Shared (Except Fault States)}

theorem map_eq_ok {ε α β : Type*} {f : α → β} {a : Except ε α} {b : β} (h : a.map f = .ok b) :
    ∃ c, a = .ok c ∧ f c = b := by
  cases a with
  | error e => cases h
  | ok c => exact ⟨c, rfl, by simpa [Except.map] using h⟩

theorem listener_spec (h : shellStep s .listener = .ok t) :
    t.todo = s.todo ∧
      actsBy s .listener ++ t.queue.waiting.map .event = s.queue.waiting.map .event ∧
      t.queue.shared = (actsBy s .listener).foldl act s.queue.shared := by
  obtain ⟨q, hq, rfl⟩ := map_eq_ok h
  obtain ⟨hwaiting, hshared, -, -⟩ := step_spec hq
  refine ⟨rfl, ?_, ?_⟩
  · simpa [actsBy, handledBy, Step.item] using congrArg (List.map Action.event) hwaiting
  · rw [hshared, actsBy, List.foldl_map]
    rfl

/-- The shell puts what it issues at the end of what waits, except that a reset
acts at once. -/
theorem shell_spec (h : shellStep s .shell = .ok t) (hd : ResetDrained s .shell) :
    ∃ issued, s.todo = issued ++ t.todo ∧
      actsBy s .shell ++ t.queue.waiting.map .event =
        s.queue.waiting.map .event ++ issued.filterMap ShellCommand.action ∧
      t.queue.shared = (actsBy s .shell).foldl act s.queue.shared := by
  simp only [shellStep, shellThread] at h
  split_ifs at h with hb
  · obtain ⟨q, hq, rfl⟩ := map_eq_ok h
    obtain ⟨hwaiting, hshared, -, -⟩ := step_spec hq
    refine ⟨[], rfl, ?_, ?_⟩
    · simpa [actsBy, ShellState.resets, hb, handledBy, Step.item] using
        congrArg (List.map Action.event) hwaiting
    · simpa [actsBy, ShellState.resets, hb, handledBy] using hshared
  · split at h
    · cases h
    next todo htodo =>
      have hresets : s.resets = true := by simp [ShellState.resets, hb, htodo]
      have hempty := hd rfl hresets
      obtain rfl := by simpa using h.symm
      refine ⟨[.reset], htodo, ?_, ?_⟩
      · have hwaiting : State.waiting { s.queue with shared := s.queue.shared.map resetFsm } =
            s.queue.waiting := rfl
        simp [actsBy, hresets, hwaiting, hempty, ShellCommand.action]
      · simp [actsBy, hresets, act]
    next cmd todo htodo =>
      have hresets : s.resets = false := by simp [ShellState.resets, htodo]
      split at h
      next hcmd =>
        obtain rfl := by simpa using h.symm
        exact ⟨[.piece cmd], htodo, by simp [actsBy, hresets, ShellCommand.action, hcmd],
          by simp [actsBy, hresets]⟩
      next e hcmd =>
        obtain ⟨q, hq, rfl⟩ := map_eq_ok h
        obtain ⟨hwaiting, hshared, -, -⟩ := step_spec hq
        refine ⟨[.piece cmd], htodo, ?_, ?_⟩
        · simpa [actsBy, hresets, handledBy, Step.item, ShellCommand.action, hcmd] using
            congrArg (List.map Action.event) hwaiting
        · simpa [actsBy, hresets, handledBy] using hshared

end Step

section Runs

variable {st₀ : Shared} {cmds : List ShellCommand} {p : List Thread} {s : ShellState}

/-- The commands issued so far have acted, up to what still waits. -/
structure Issues (st₀ : Shared) (cmds : List ShellCommand) (p : List Thread)
    (s : ShellState) : Prop where
  shared : s.queue.shared = (acted (shellInitial st₀ cmds) p).foldl act st₀
  issued : ∃ issued, issued ++ s.todo = cmds ∧
    acted (shellInitial st₀ cmds) p ++ s.queue.waiting.map .event =
      issued.filterMap ShellCommand.action

theorem issues_concat {t : ShellState} {th : Thread}
    (hs : run shellStep (shellInitial st₀ cmds) p = .ok s) (h : Issues st₀ cmds p s)
    (ht : shellStep s th = .ok t) (hd : ResetDrained s th) :
    Issues st₀ cmds (p ++ [th]) t := by
  have hacted : acted (shellInitial st₀ cmds) (p ++ [th]) =
      acted (shellInitial st₀ cmds) p ++ actsBy s th := outputs_concat hs ht
  obtain ⟨hshared, issued, hcmds, hlog⟩ := h
  have hspec : ∃ more, s.todo = more ++ t.todo ∧
      actsBy s th ++ t.queue.waiting.map .event =
        s.queue.waiting.map .event ++ more.filterMap ShellCommand.action ∧
      t.queue.shared = (actsBy s th).foldl act s.queue.shared := by
    cases th with
    | listener =>
      obtain ⟨htodo, hwaiting, hshared⟩ := listener_spec ht
      exact ⟨[], htodo.symm, by simpa using hwaiting, hshared⟩
    | shell => exact shell_spec ht hd
  obtain ⟨more, htodo, hwaiting, hnext⟩ := hspec
  refine ⟨?_, issued ++ more, ?_, ?_⟩
  · rw [hnext, hacted, List.foldl_append, hshared]
  · rw [List.append_assoc, ← htodo, hcmds]
  · rw [hacted, List.append_assoc, hwaiting, ← List.append_assoc, hlog, List.filterMap_append]

theorem sequential_of_issues (h : Issues st₀ cmds p s) : Sequential st₀ cmds p s := by
  obtain ⟨hshared, issued, hcmds, hlog⟩ := h
  refine ⟨fun hempty => ⟨issued, hcmds, ?_⟩, ?_⟩
  · rw [hempty, List.map_nil, List.append_nil] at hlog
    rw [foldl_execute, ← hlog, hshared]
  · have hactions : acted (shellInitial st₀ cmds) p ++ (s.queue.waiting.map .event ++
        s.todo.filterMap ShellCommand.action) = cmds.filterMap ShellCommand.action := by
      rw [← List.append_assoc, hlog, ← List.filterMap_append, hcmds]
    rw [← hactions]
    exact List.prefix_append _ _

end Runs

/-- In a run whose resets all find the queue drained, the interleaving of the
shell and the listener does not show. -/
theorem sequential_of_resets_drained (st₀ : Shared) (cmds : List ShellCommand)
    (sched : List Thread)
    (h : Throughout shellStep ResetDrained (shellInitial st₀ cmds) sched) :
    Always shellStep (Sequential st₀ cmds) (shellInitial st₀ cmds) sched := by
  have hissues : Always shellStep (Issues st₀ cmds) (shellInitial st₀ cmds) sched :=
    Always.of_throughout ⟨rfl, [], rfl, rfl⟩
      (fun p th s t _ hs hi ht hd => issues_concat hs hi ht hd) h
  exact fun p s hp hs => sequential_of_issues (hissues p s hp hs)

def liftAndReset : List ShellCommand := [.piece (.lift [101, 50]), .reset]

theorem lift_handled_reset_sequential :
    Always shellStep (Sequential (.ok (resetFsm powerOn)) liftAndReset)
      (shellInitial (.ok (resetFsm powerOn)) liftAndReset)
      [.shell, .shell, .listener, .listener, .listener, .shell] :=
  sequential_of_resets_drained _ _ _ <|
    .cons rfl (fun _ h => absurd h (by decide)) <| .cons rfl (fun _ h => absurd h (by decide)) <|
    .cons rfl nofun <| .cons rfl nofun <| .cons rfl nofun <| .cons rfl (fun _ _ => rfl) .nil

theorem reset_overtakes_lift :
    ¬ Always shellStep (Sequential (.ok (resetFsm powerOn)) liftAndReset)
      (shellInitial (.ok (resetFsm powerOn)) liftAndReset)
      [.shell, .shell, .shell, .listener, .listener, .listener] := by
  intro h
  obtain ⟨issued, hcmds, hview⟩ := (h _ _ (List.prefix_refl _) rfl).drained rfl
  obtain rfl : issued = liftAndReset := by simpa using hcmds
  have hstate := congrArg (Except.map Prod.fst) hview
  exact absurd hstate (by decide)

end SmakChess
