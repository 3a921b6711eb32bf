import SmakChess.Held

/-! The en-passant flag against the plies of the run. -/

namespace SmakChess

open Machine

def Ply.jumpedOver : Ply → Option Nat
  | .quiet .white pWhitePawn x s => if x = s + 16 then some (s + 8) else none
  | .quiet .black pBlackPawn x s => if s = x + 16 then some (x + 8) else none
  | _ => none

def FlagAfter (q : Ply) (st : ChessState) : Prop :=
  (st.enPassant = true ↔ q.jumpedOver.isSome) ∧ ∀ j, q.jumpedOver = some j → st.enPassantSquare = j

/-- A quiet ply by a piece other than a pawn finds no flag to clear. -/
def FindsNoFlag (st : ChessState) (e : Event) : Prop :=
  ∀ c k x s, plyOf st e = some (.quiet c k x s) → k ≠ .man c .pawn → st.enPassant = false

section Step

variable {st : ChessState} {e : Event} {c : Color} {k : SmakPiece} {x s : Nat} {q : Ply}

theorem jumpedOver_eq_none (ho : k.owner = some c) (hk : k ≠ .man c .pawn) :
    (Ply.quiet c k x s).jumpedOver = none := by
  cases k with
  | emptySquare => cases c <;> rfl
  | man d k =>
    obtain rfl := eq_of_owner ho
    cases d <;> cases k <;> first | rfl | exact absurd rfl hk

theorem jumpedOver_pawn (hs : s < 64) : (Ply.quiet c (.man c .pawn) x s).jumpedOver =
    if twoRanks c x s = true then some (jumped c s) else none := by
  cases c with
  | white =>
    simp only [Ply.jumpedOver, twoRanks, jumped, beq_iff_eq]
    have hiff : x = s + 16 ↔ (s : Int) - x = -16 := by omega
    have hmod : (s + 8) % 256 = s + 8 := Nat.mod_eq_of_lt (by omega)
    simp only [hiff, hmod]
  | black =>
    simp only [Ply.jumpedOver, twoRanks, jumped, beq_iff_eq]
    have hiff : s = x + 16 ↔ (s : Int) - x = 16 := by omega
    simp only [hiff]
    split_ifs with h
    · have : (s + 256 - 8) % 256 = x + 8 := by omega
      rw [this]
    · rfl

theorem flagAfter_next (hp : e.pinNumber < 64) (h : Held st) (hq : plyOf st e = some q)
    (hc : FindsNoFlag st e) : FlagAfter q (next st e) := by
  cases q with
  | quiet c k x s =>
    obtain ⟨-, -, hep, hsq, -⟩ := next_of_quiet hq
    obtain ⟨-, -, hs, -⟩ := plyOf_quiet hq
    by_cases hk : k = .man c .pawn
    · subst hk
      rw [if_pos rfl] at hep hsq
      rw [FlagAfter, hep, hsq, jumpedOver_pawn (hs ▸ hp)]
      split_ifs with ht <;> simp [ht]
    · rw [FlagAfter, jumpedOver_eq_none (h.owner_quiet hq) hk, hep, if_neg hk, hc c k x s hq hk]
      simp
  | capture c k x y s =>
    obtain ⟨-, -, hep, -, -⟩ := next_of_capture hq
    simp [FlagAfter, hep, Ply.jumpedOver]
  | castle c v =>
    obtain ⟨-, -, hep, -, -⟩ := next_of_castle hq
    simp [FlagAfter, hep, Ply.jumpedOver]

theorem not_flagAfter_next (h : Held st) (hc : ¬ FindsNoFlag st e) :
    ∃ q, plyOf st e = some q ∧ ¬ FlagAfter q (next st e) := by
  simp only [FindsNoFlag, not_forall] at hc
  obtain ⟨c, k, x, s, hq, hk, hep⟩ := hc
  refine ⟨_, hq, ?_⟩
  obtain ⟨-, -, hep', -⟩ := next_of_quiet hq
  rw [FlagAfter, jumpedOver_eq_none (h.owner_quiet hq) hk, hep', if_neg hk]
  simpa using hep

end Step

/-- After every ply of a run the flag is the one the rules ask for, exactly
when each quiet ply by a piece other than a pawn finds the flag cleared. -/
theorem enPassant_iff_findsNoFlag (st₀ : ChessState) (es : List Event) :
    Always step (fun p t => ∀ q, (plies (resetFsm st₀) p).getLast? = some q → FlagAfter q t)
        (resetFsm st₀) es ↔
      Throughout step FindsNoFlag (resetFsm st₀) es := by
  refine always_iff_of_next ?_ (fun _ _ _ hi => hi) ?_ ?_
  · intro q hq
    cases hq
  · intro p e t _ ht hp hi hc q hq
    rw [plies_concat ht hp] at hq
    cases hpl : plyOf t e with
    | none =>
      obtain ⟨-, -, hep, hsq, -⟩ := next_frame hpl
      rw [hpl, Option.toList_none, List.append_nil] at hq
      rw [FlagAfter, hep, hsq]
      exact hi q hq
    | some r =>
      rw [hpl, Option.toList_some, List.getLast?_concat, Option.some.injEq] at hq
      subst hq
      exact flagAfter_next hp (held_of_run ht) hpl hc
  · intro p e t _ ht hp _ hc hP
    obtain ⟨q, hq, hn⟩ := not_flagAfter_next (held_of_run ht) hc
    refine hn (hP q ?_)
    rw [plies_concat ht hp, hq, Option.toList_some, List.getLast?_concat]

/-- The pawn advances to e4, and the knight's ply to c6 leaves the flag. -/
theorem knight_keeps_enPassant : ¬ Always step
    (fun p t => ∀ q, (plies (resetFsm powerOn) p).getLast? = some q → FlagAfter q t)
    (resetFsm powerOn) [lift 52, put 36, lift 1, put 18] := by
  intro h
  have hr := run_eq_foldl [lift 52, put 36, lift 1, put 18]
    (wellFormed_resetFsm powerOn) (by decide)
  have hq : (plies (resetFsm powerOn) [lift 52, put 36, lift 1, put 18]).getLast? =
      some (.quiet .black (.man .black .knight) 1 18) := by decide +kernel
  have hf := (h _ _ (List.prefix_refl _) hr _ hq).1
  exact absurd hf (by decide +kernel)

end SmakChess
