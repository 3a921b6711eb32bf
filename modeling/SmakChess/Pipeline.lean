import SmakChess.Framing
import SmakChess.Machine

/-! The two bounded queues of the ESP between the USB callback and the HTTP
task. Both are sent to without waiting, and the result is ignored. -/

namespace SmakChess

open Machine

inductive Gamestate
  | whiteWin
  | blackWin
  | drawAgreed
  | drawRepetition
  | drawFiftyMoves
  | whiteToMove
  | blackToMove
  | notStarted
  | error
  deriving DecidableEq, Repr

structure SmakJsonGameObj where
  gamestate : Gamestate
  boardId : Nat
  deriving DecidableEq, Repr

/-- The commands of `smak_http_command_t` that the program sends. -/
inductive SmakHttpCommand
  | authTokenGet
  | movePost (gameId : UInt64) (mv : SmakChessMove)
  | gamePost (game : SmakJsonGameObj)
  deriving DecidableEq, Repr

/-- What `read_queue_task` asks of the HTTP task for one message. It does not
look at the value of `is_new_game`. -/
def command : SmakMessage → Option SmakHttpCommand
  | .unset => none
  | .move mv => some (.movePost mv.id mv)
  | .newGame _ => some (.gamePost { gamestate := .notStarted, boardId := 1 })

def commandOf (pb : Nanopb) (ctx : SmakPbCtx) : Option SmakHttpCommand :=
  (readMessage pb ctx).bind command

/-- The length of `send_queue` and of `smak_http_req_queue`. -/
def queueLength : Nat := 8

/-- `xQueueSend` with a timeout of zero. -/
def xQueueSend {α : Type*} (q : List α) (a : α) : List α :=
  if q.length < queueLength then q ++ [a] else q

structure Pipeline where
  sendQueue : List SmakPbCtx
  reader : Option SmakHttpCommand
  httpQueue : List SmakHttpCommand

/-- `smak_conn_task_init` has asked for the token before the USB host starts. -/
def Pipeline.initial : Pipeline := ⟨[], none, [.authTokenGet]⟩

inductive PipelineEvent
  | rx (data : List UInt8)
  | receive
  | cmdSend
  | take
  deriving DecidableEq, Repr

inductive Waiting
  | reader
  | connectivity
  deriving DecidableEq, Repr

def pipelineStep (pb : Nanopb) (s : Pipeline) : PipelineEvent → Except Waiting Pipeline
  | .rx data =>
    match handleRx data with
    | none => .ok s
    | some ctx => .ok { s with sendQueue := xQueueSend s.sendQueue ctx }
  | .receive =>
    match s.reader, s.sendQueue with
    | none, ctx :: rest => .ok { s with reader := commandOf pb ctx, sendQueue := rest }
    | _, _ => .error .reader
  | .cmdSend =>
    match s.reader with
    | none => .error .reader
    | some cmd => .ok { s with reader := none, httpQueue := xQueueSend s.httpQueue cmd }
  | .take =>
    match s.httpQueue with
    | [] => .error .connectivity
    | _ :: rest => .ok { s with httpQueue := rest }

def acceptedCommand (pb : Nanopb) : PipelineEvent → Option SmakHttpCommand
  | .rx data => (handleRx data).bind (commandOf pb)
  | _ => none

def commandsAccepted (pb : Nanopb) (es : List PipelineEvent) : List SmakHttpCommand :=
  es.filterMap (acceptedCommand pb)

def takenBy (s : Pipeline) : PipelineEvent → List SmakHttpCommand
  | .take => s.httpQueue.take 1
  | _ => []

def commandsTaken (pb : Nanopb) (es : List PipelineEvent) : List SmakHttpCommand :=
  outputs (pipelineStep pb) (fun s e _ => takenBy s e) .initial es

def Pipeline.pending (pb : Nanopb) (s : Pipeline) : List SmakHttpCommand :=
  s.httpQueue ++ s.reader.toList ++ s.sendQueue.filterMap (commandOf pb)

/-- After the token request, the commands taken are those of the accepted
messages in arrival order, up to the ones on the way. -/
def NothingLost (pb : Nanopb) (p : List PipelineEvent) (s : Pipeline) : Prop :=
  .authTokenGet :: commandsAccepted pb p = commandsTaken pb p ++ s.pending pb

def HasRoom (pb : Nanopb) (s : Pipeline) : PipelineEvent → Prop
  | .rx data => (handleRx data).bind (commandOf pb) ≠ none → s.sendQueue.length < queueLength
  | .cmdSend => s.httpQueue.length < queueLength
  | _ => True

section Step

variable {pb : Nanopb} {s t : Pipeline} {e : PipelineEvent} {p : List PipelineEvent}

theorem xQueueSend_of_lt {α : Type*} {q : List α} (a : α) (h : q.length < queueLength) :
    xQueueSend q a = q ++ [a] := if_pos h

theorem xQueueSend_of_not_lt {α : Type*} {q : List α} (a : α) (h : ¬ q.length < queueLength) :
    xQueueSend q a = q := if_neg h

/-- Everything a step can do. -/
theorem pipelineStep_cases (h : pipelineStep pb s e = .ok t) :
    (∃ data, e = .rx data ∧ handleRx data = none ∧ t = s) ∨
    (∃ data ctx, e = .rx data ∧ handleRx data = some ctx ∧
      t = { s with sendQueue := xQueueSend s.sendQueue ctx }) ∨
    (∃ ctx rest, e = .receive ∧ s.reader = none ∧ s.sendQueue = ctx :: rest ∧
      t = { s with reader := commandOf pb ctx, sendQueue := rest }) ∨
    (∃ cmd, e = .cmdSend ∧ s.reader = some cmd ∧
      t = { s with reader := none, httpQueue := xQueueSend s.httpQueue cmd }) ∨
    ∃ cmd rest, e = .take ∧ s.httpQueue = cmd :: rest ∧ t = { s with httpQueue := rest } := by
  cases e with
  | rx data =>
    simp only [pipelineStep] at h
    cases hx : handleRx data with
    | none => exact Or.inl ⟨data, rfl, hx, by simpa [hx] using h.symm⟩
    | some ctx => exact Or.inr (Or.inl ⟨data, ctx, rfl, hx, by simpa [hx] using h.symm⟩)
  | receive =>
    simp only [pipelineStep] at h
    split at h
    next ctx rest hreader hqueue =>
      exact Or.inr (Or.inr (Or.inl ⟨ctx, rest, rfl, hreader, hqueue, by simpa using h.symm⟩))
    · cases h
  | cmdSend =>
    simp only [pipelineStep] at h
    split at h
    · cases h
    next cmd hreader =>
      exact Or.inr (Or.inr (Or.inr (Or.inl ⟨cmd, rfl, hreader, by simpa using h.symm⟩)))
  | take =>
    simp only [pipelineStep] at h
    split at h
    · cases h
    next cmd rest hqueue =>
      exact Or.inr (Or.inr (Or.inr (Or.inr ⟨cmd, rest, rfl, hqueue, by simpa using h.symm⟩)))

/-- What a step takes and leaves pending is what was pending and what it
accepts, as long as there is room. -/
theorem pending_of_hasRoom (h : pipelineStep pb s e = .ok t) (hr : HasRoom pb s e) :
    takenBy s e ++ t.pending pb = s.pending pb ++ (acceptedCommand pb e).toList := by
  rcases pipelineStep_cases h with ⟨data, rfl, hx, rfl⟩ | ⟨data, ctx, rfl, hx, rfl⟩ |
    ⟨ctx, rest, rfl, hreader, hqueue, rfl⟩ | ⟨cmd, rfl, hreader, rfl⟩ | ⟨cmd, rest, rfl, hqueue, rfl⟩
  · simp [takenBy, acceptedCommand, hx]
  · cases hc : commandOf pb ctx with
    | none =>
      have hsend : (xQueueSend s.sendQueue ctx).filterMap (commandOf pb) =
          s.sendQueue.filterMap (commandOf pb) := by
        unfold xQueueSend
        split_ifs <;> simp [hc]
      simp [takenBy, acceptedCommand, hx, hc, Pipeline.pending, hsend]
    | some cmd =>
      have hlt := hr (by simp [hx, hc])
      simp [takenBy, acceptedCommand, hx, hc, Pipeline.pending, xQueueSend_of_lt ctx hlt]
  · cases hc : commandOf pb ctx <;>
      simp [takenBy, acceptedCommand, Pipeline.pending, hreader, hqueue, hc]
  · simp [takenBy, acceptedCommand, Pipeline.pending, hreader, xQueueSend_of_lt cmd hr]
  · simp [takenBy, acceptedCommand, Pipeline.pending, hqueue]

theorem pending_length_of_not_hasRoom (h : pipelineStep pb s e = .ok t) (hr : ¬ HasRoom pb s e) :
    (takenBy s e ++ t.pending pb).length + 1 =
      (s.pending pb ++ (acceptedCommand pb e).toList).length := by
  rcases pipelineStep_cases h with ⟨data, rfl, hx, rfl⟩ | ⟨data, ctx, rfl, hx, rfl⟩ |
    ⟨ctx, rest, rfl, -, -, rfl⟩ | ⟨cmd, rfl, hreader, rfl⟩ | ⟨cmd, rest, rfl, -, rfl⟩
  · exact absurd (fun hcmd => absurd (by simp [hx]) hcmd) hr
  · obtain ⟨hcmd, hfull⟩ := Classical.not_imp.mp hr
    obtain ⟨cmd, hc⟩ := Option.ne_none_iff_exists'.mp hcmd
    rw [hx, Option.bind_some] at hc
    simp only [takenBy, acceptedCommand, hx, hc, Pipeline.pending,
      xQueueSend_of_not_lt ctx hfull, List.nil_append, List.length_append, Option.bind_some,
      Option.toList_some, List.length_singleton]
  · exact absurd trivial hr
  · simp only [takenBy, acceptedCommand, Pipeline.pending, hreader,
      xQueueSend_of_not_lt cmd hr, List.nil_append, List.length_append, Option.toList_none,
      Option.toList_some, List.length_nil, List.length_singleton]
    omega
  · exact absurd trivial hr

theorem commandsAccepted_concat (pb : Nanopb) (p : List PipelineEvent) (e : PipelineEvent) :
    commandsAccepted pb (p ++ [e]) = commandsAccepted pb p ++ (acceptedCommand pb e).toList := by
  simp only [commandsAccepted, List.filterMap_append, List.filterMap_cons, List.filterMap_nil]
  cases acceptedCommand pb e <;> rfl

theorem commandsTaken_concat (hs : run (pipelineStep pb) .initial p = .ok s)
    (h : pipelineStep pb s e = .ok t) : commandsTaken pb (p ++ [e]) = commandsTaken pb p ++ takenBy s e :=
  outputs_concat hs h

end Step

/-- No accepted move is lost along a run, exactly when every message and every
command that is sent finds room in its queue. -/
theorem nothingLost_iff_hasRoom (pb : Nanopb) (es : List PipelineEvent) :
    Always (pipelineStep pb) (NothingLost pb) .initial es ↔
      Throughout (pipelineStep pb) (HasRoom pb) .initial es := by
  refine always_iff_throughout (I := NothingLost pb) rfl (fun _ _ _ _ hi => hi) ?_ ?_
  · intro p e s t _ hs hi h hr
    have hspec := pending_of_hasRoom h hr
    unfold NothingLost at hi ⊢
    rw [commandsAccepted_concat, commandsTaken_concat hs h, List.append_assoc, hspec, ← List.append_assoc, ← hi,
      List.cons_append]
  · intro p e s t _ hs hi h hr heq
    have hspec := pending_length_of_not_hasRoom h hr
    unfold NothingLost at hi heq
    rw [commandsAccepted_concat, commandsTaken_concat hs h, ← List.cons_append, hi, List.append_assoc,
      List.append_assoc, List.append_cancel_left_eq] at heq
    rw [heq] at hspec
    omega

theorem burst_loses_message :
    ¬ Always (pipelineStep wireFormat) (NothingLost wireFormat) .initial
      (List.replicate 9 (.rx [18, 2, 8, 1])) := by
  intro h
  have hlost := h _ _ (List.prefix_refl _) rfl
  have hlen := congrArg List.length hlost
  revert hlen
  decide

end SmakChess
