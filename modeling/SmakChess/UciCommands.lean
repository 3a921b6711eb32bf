import SmakChess.MakeMoves

/-! The texts of position commands, and moves appended to them. -/

namespace SmakChess

def createFenCommand (fen : String) : String := "\n position fen " ++ fen ++ "\n"

/-- `remove_suffix(1)`, then `remove_prefix(2)`. -/
def strippedCommand (cmd : String) : String := String.ofList (cmd.toList.dropLast.drop 2)

/-- The overload for one move. The move in braces is a `chess::Move` again, so it
calls itself; `none` when the calls that are allowed do not suffice. -/
def appendMoveToPositionCommand : Nat → String → Chess.Move → Option String
  | 0, _, _ => none
  | calls + 1, cmd, move => appendMoveToPositionCommand calls cmd move

namespace Chess.EngineLibrary

variable (lib : Chess.EngineLibrary)

def movesText (moves : List Chess.Move) : String :=
  " moves " ++ " ".intercalate (moves.map lib.moveToUci)

def appendMovesToPositionCommand (cmd : String) (moves : List Chess.Move) : String :=
  "\n " ++ strippedCommand cmd ++ lib.movesText moves ++ "\n"

/-- A command created from a FEN, with moves or without, and what is appended to
it later. -/
def builtCommand (fen : String) (first : Option (List Chess.Move))
    (later : List (List Chess.Move)) : String :=
  later.foldl lib.appendMovesToPositionCommand
    (match first with
    | none => createFenCommand fen
    | some moves => (lib.createPositionCommand fen moves).text)

/-- The command has the keyword once, and the moves after it in order. -/
def OneKeyword (fen : String) (first : Option (List Chess.Move))
    (later : List (List Chess.Move)) : Prop :=
  lib.builtCommand fen first later =
    (lib.createPositionCommand fen (first.toList ++ later).flatten).text

def AppendsTo (fen : String) (ms ns : List Chess.Move) : Prop :=
  lib.appendMovesToPositionCommand (lib.createPositionCommand fen ms).text ns =
    (lib.createPositionCommand fen (ms ++ ns)).text

def AppendsOne (cmd : String) (m : Chess.Move) : Prop :=
  ∃ calls, appendMoveToPositionCommand calls cmd m =
    some (lib.appendMovesToPositionCommand cmd [m])

end Chess.EngineLibrary

section Texts

variable {lib : Chess.EngineLibrary} {fen body cmd : String} {m : Chess.Move}
  {ms ns : List Chess.Move} {first : Option (List Chess.Move)}
  {lists : List (List Chess.Move)}

theorem strippedCommand_text : strippedCommand ("\n " ++ body ++ "\n") = body := by
  have hlist : ("\n " ++ body ++ "\n").toList = ('\n' :: ' ' :: body.toList) ++ ['\n'] := by
    rw [String.toList_append, String.toList_append]
    rfl
  have hlast : ("\n " ++ body ++ "\n").toList.dropLast = '\n' :: ' ' :: body.toList := by
    rw [hlist, List.dropLast_concat]
  rw [strippedCommand, hlast, List.drop_succ_cons, List.drop_succ_cons, List.drop_zero,
    String.ofList_toList]

theorem appendMoves_text :
    lib.appendMovesToPositionCommand ("\n " ++ body ++ "\n") ns =
      "\n " ++ (body ++ lib.movesText ns) ++ "\n" := by
  rw [Chess.EngineLibrary.appendMovesToPositionCommand, strippedCommand_text,
    @String.append_assoc "\n "]

theorem foldl_appendMoves_text :
    lists.foldl lib.appendMovesToPositionCommand ("\n " ++ body ++ "\n") =
      "\n " ++ (body ++ String.join (lists.map lib.movesText)) ++ "\n" := by
  induction lists generalizing body with
  | nil => simp
  | cons l ls ih =>
    rw [List.foldl_cons, appendMoves_text, ih, List.map_cons, String.join_cons,
      @String.append_assoc body]

theorem positionFen_text : "\n position fen " = "\n " ++ "position fen " := rfl

theorem createFenCommand_text :
    createFenCommand fen = "\n " ++ ("position fen " ++ fen) ++ "\n" := by
  have hcommand : createFenCommand fen = "\n position fen " ++ fen ++ "\n" := rfl
  rw [hcommand, positionFen_text, @String.append_assoc "\n "]

theorem createPositionCommand_text :
    (lib.createPositionCommand fen ms).text =
      "\n " ++ ("position fen " ++ fen ++ lib.movesText ms) ++ "\n" := by
  unfold PositionCommand.text Chess.EngineLibrary.createPositionCommand
    Chess.EngineLibrary.movesText
  rw [positionFen_text]
  generalize "\n " = start
  generalize "position fen " = word
  generalize " moves " = keyword
  simp only [String.append_assoc]

theorem builtCommand_text :
    lib.builtCommand fen first lists = "\n " ++ ("position fen " ++ fen ++
      String.join ((first.toList ++ lists).map lib.movesText)) ++ "\n" := by
  cases first with
  | none => simp [Chess.EngineLibrary.builtCommand, createFenCommand_text, foldl_appendMoves_text]
  | some moves =>
    rw [Chess.EngineLibrary.builtCommand, createPositionCommand_text, foldl_appendMoves_text]
    simp [String.append_assoc]

/-! The lengths of these texts. -/

theorem length_intercalate_names (names : List String) :
    (" ".intercalate names).length = (names.map String.length).sum + (names.length - 1) := by
  induction names with
  | nil => rfl
  | cons name names ih =>
    cases names with
    | nil => simp
    | cons next names =>
      have hsep : (" " : String).length = 1 := rfl
      rw [String.intercalate_cons_cons, String.length_append, String.length_append, ih, hsep]
      simp only [List.map_cons, List.sum_cons, List.length_cons]
      omega

def namesLength (lib : Chess.EngineLibrary) (ms : List Chess.Move) : Nat :=
  ((ms.map lib.moveToUci).map String.length).sum

theorem length_movesText :
    (lib.movesText ms).length = 7 + (namesLength lib ms + (ms.length - 1)) := by
  rw [Chess.EngineLibrary.movesText, String.length_append, length_intercalate_names,
    List.length_map]
  rfl

theorem namesLength_append :
    namesLength lib (ms ++ ns) = namesLength lib ms + namesLength lib ns := by
  simp [namesLength]

theorem le_length_join_movesText :
    6 * lists.length + (namesLength lib lists.flatten + lists.flatten.length) ≤
      (String.join (lists.map lib.movesText)).length := by
  induction lists with
  | nil => simp [namesLength]
  | cons l ls ih =>
    rw [List.map_cons, String.join_cons, String.length_append, length_movesText,
      List.flatten_cons, namesLength_append, List.length_append, List.length_cons]
    omega

theorem join_movesText_eq_iff :
    String.join (lists.map lib.movesText) = lib.movesText lists.flatten ↔ lists.length = 1 := by
  constructor
  · intro h
    have hle : 6 * lists.length + (namesLength lib lists.flatten + lists.flatten.length) ≤
        (String.join (lists.map lib.movesText)).length := le_length_join_movesText
    rw [h, length_movesText] at hle
    rcases Nat.eq_zero_or_pos lists.length with hzero | hpos
    · obtain rfl := List.eq_nil_of_length_eq_zero hzero
      have hlen := congrArg String.length h
      rw [length_movesText] at hlen
      have hnone : (String.join (([] : List (List Chess.Move)).map lib.movesText)).length = 0 := rfl
      omega
    · omega
  · intro h
    obtain ⟨l, rfl⟩ := List.length_eq_one_iff.mp h
    simp

theorem oneKeyword_iff :
    lib.OneKeyword fen first lists ↔ first.toList.length + lists.length = 1 := by
  rw [Chess.EngineLibrary.OneKeyword, builtCommand_text, createPositionCommand_text,
    String.append_left_inj, String.append_right_inj, String.append_right_inj,
    join_movesText_eq_iff, List.length_append]

theorem not_appendsTo : ¬ lib.AppendsTo fen ms ns := by
  intro happ
  have hone : lib.OneKeyword fen (some ms) [ns] := by
    have hlists : ([ms] ++ [ns]).flatten = ms ++ ns := by simp
    rw [Chess.EngineLibrary.OneKeyword, Option.toList_some, hlists]
    exact happ
  exact absurd (oneKeyword_iff.mp hone) (by simp)

theorem appendMove_eq_none (calls : Nat) :
    appendMoveToPositionCommand calls cmd m = none := by
  induction calls with
  | zero => rfl
  | succ calls ih => exact ih

theorem not_appendsOne : ¬ lib.AppendsOne cmd m := by
  rintro ⟨calls, h⟩
  rw [appendMove_eq_none] at h
  cases h

end Texts

/-- An append to a command with moves never gives the command for all of them, and
the one for a single move never returns. -/
theorem appends_never (lib : Chess.EngineLibrary) (fen cmd : String) (ms ns : List Chess.Move)
    (m : Chess.Move) (first : Option (List Chess.Move)) (later : List (List Chess.Move)) :
    ¬ lib.AppendsTo fen ms ns ∧ ¬ lib.AppendsOne cmd m ∧
      (lib.OneKeyword fen first later ↔ first.toList.length + later.length = 1) :=
  ⟨not_appendsTo, not_appendsOne, oneKeyword_iff⟩

theorem kingsPawn_not_appendsTo :
    ¬ rulesEngine.AppendsTo "8/8/8/8/8/8/8/8 w - - 0 1" [kingsPawn] [kingsPawn] ∧
      ¬ rulesEngine.AppendsOne (createFenCommand "8/8/8/8/8/8/8/8 w - - 0 1") kingsPawn :=
  ⟨not_appendsTo, not_appendsOne⟩

end SmakChess
