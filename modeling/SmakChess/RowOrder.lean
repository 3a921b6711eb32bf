import SmakChess.FenList
import SmakChess.RulesLibrary
import Mathlib.Data.List.Perm.Basic

/-! The list of positions and the order of the rows it is made of. -/

namespace SmakChess

/-- The answer does not depend on the order of the rows, and an entry with ply
`p` is computed from the row of ply `p`: entry `i` is computed from row `i`. -/
structure OrderFree (lib : Chess.Library) (id : Int) (g : StoredGame) : Prop where
  same : ∀ rows rows', g.Rows rows → g.Rows rows' →
    lib.fenResponse id rows = lib.fenResponse id rows'
  numbered : ∀ rows body (i : Nat) (dto : FenDTO), g.Rows rows →
    lib.fenResponse id rows = .ok body → body[i]? = some (some dto) →
    ∃ m : StoredMove, rows[i]? = some m ∧ dto.ply = m.plyNumber

/-- No stored move is legal at the start or after null moves alone. -/
def NeverFound (lib : Chess.Library) (g : StoredGame) : Prop :=
  ∀ m ∈ g.moves, ∀ i < g.moves.length,
    lib.finds (lib.makeNullMove^[i] lib.start) m.toMove = false

theorem exists_perm_getElem? {α : Type} {l : List α} {x : α} (hx : x ∈ l) {i : Nat}
    (hi : i < l.length) : ∃ l' : List α, l'.Perm l ∧ l'[i]? = some x := by
  obtain ⟨s, t, rfl⟩ := List.append_of_mem hx
  have hlen : i ≤ (s ++ t).length := by
    simp only [List.length_append, List.length_cons] at hi ⊢
    omega
  refine ⟨(s ++ t).insertIdx i x, ?_, ?_⟩
  · exact (List.perm_insertIdx x (s ++ t) hlen).trans List.perm_middle.symm
  · exact List.getElem?_insertIdx_self.trans (if_pos hlen)

theorem eq_singleton_of_nodup {α : Type} {l : List α} {y : α} (hl : l.Nodup) (hy : y ∈ l)
    (h : ∀ x ∈ l, x = y) : l = [y] := by
  have hrep : l = List.replicate l.length y := List.eq_replicate_of_mem h
  rw [hrep, List.nodup_replicate] at hl
  have hpos : 0 < l.length := List.length_pos_of_mem hy
  rw [hrep, show l.length = 1 by omega]
  rfl

section Rows

variable {lib : Chess.Library} {id : Int} {g : StoredGame} {rows : List StoredMove}

theorem fenResponse_of_neverFound (h : NeverFound lib g) (hr : g.Rows rows) :
    lib.fenResponse id rows =
      if g.moves.length = 0 then .internalError
      else .ok (List.replicate g.moves.length none) := by
  have hlen : rows.length = g.moves.length := hr.length_eq
  have hfens : lib.fensFrom lib.start (rows.map StoredMove.toMove) =
      List.replicate g.moves.length none := by
    rw [Chess.Library.fensFrom_of_not_finds, List.length_map, hlen]
    intro i m hm
    rw [List.getElem?_map, Option.map_eq_some_iff] at hm
    obtain ⟨r, hat, rfl⟩ := hm
    obtain ⟨hi, -⟩ := List.getElem?_eq_some_iff.mp hat
    exact h r (hr.mem_iff.mp (List.mem_of_getElem? hat)) i (hlen ▸ hi)
  rcases lib.fenResponse_cases id rows with ⟨rfl, he⟩ | ⟨hne, he⟩
  · rw [he, if_pos (by simpa using hlen.symm)]
  · have hpos : g.moves.length ≠ 0 := by
      rw [← hlen]
      simpa using hne
    have hbody : lib.fenDtos id (rows.map StoredMove.toMove)
        (List.replicate g.moves.length none) = List.replicate g.moves.length none := by
      apply List.ext_getElem?
      intro i
      simp only [Chess.Library.fenDtos, List.getElem?_mapIdx, List.getElem?_replicate]
      split_ifs <;> rfl
    rw [he, if_neg hpos, hfens, hbody]

theorem exists_entry (id : Int) (h : ¬ NeverFound lib g) :
    ∃ rows body, ∃ (j : Nat) (dto : FenDTO), g.Rows rows ∧
      lib.fenResponse id rows = .ok body ∧ body[j]? = some (some dto) := by
  simp only [NeverFound, not_forall, Bool.not_eq_false] at h
  obtain ⟨m, hm, i, hi, hf⟩ := h
  obtain ⟨rows, hr, hat⟩ := exists_perm_getElem? hm hi
  have hfen : ∃ (j : Nat) (fen : String), (lib.fensFrom lib.start (rows.map StoredMove.toMove))[j]? =
      some (some fen) := by
    by_contra hnone
    simp only [not_exists] at hnone
    have hnot := Chess.Library.not_finds_of_fensFrom hnone (i := i) (m := m.toMove)
      (by simp [hat])
    rw [hf] at hnot
    cases hnot
  obtain ⟨j, fen, hj⟩ := hfen
  rcases lib.fenResponse_cases id rows with ⟨rfl, -⟩ | ⟨-, he⟩
  · simp at hat
  · exact ⟨rows, _, j, _, hr, he, Chess.Library.fenDtos_getElem?.mpr ⟨fen, hj, rfl⟩⟩

theorem head_of_fenResponse {m : StoredMove} {body : List (Option FenDTO)}
    (h : lib.fenResponse id (m :: rows) = .ok body) :
    body.head?.map Option.isSome = some (lib.finds lib.start m.toMove) := by
  rcases lib.fenResponse_cases id (m :: rows) with ⟨hnil, -⟩ | ⟨-, he⟩
  · cases hnil
  · obtain rfl := FenResponse.ok.inj (he.symm.trans h)
    cases hf : lib.finds lib.start m.toMove <;>
      simp [Chess.Library.fenDtos, Chess.Library.fensFrom, hf]

theorem eq_singleton_of_orderFree (ho : OrderFree lib id g) (h : ¬ NeverFound lib g) :
    ∃ m, g.moves = [m] ∧ m.plyNumber = 1 := by
  obtain ⟨rows, body, j, dto, hr, he, hj⟩ := exists_entry id h
  obtain ⟨hply, hlt⟩ := Chess.Library.ply_of_entry he hj
  obtain ⟨y, hy, hyply⟩ := ho.numbered rows body j dto hr he hj
  have hymem : y ∈ g.moves := hr.mem_iff.mp (List.mem_of_getElem? hy)
  rw [hr.length_eq] at hlt
  -- Every stored move can stand in row `j`, so all have the ply of entry `j`.
  have hall : ∀ x ∈ g.moves, x = y := by
    intro x hx
    obtain ⟨rows', hr', hx'⟩ := exists_perm_getElem? hx hlt
    have he' : lib.fenResponse id rows' = .ok body := (ho.same rows' rows hr' hr).trans he
    obtain ⟨x', hx'', hxply⟩ := ho.numbered rows' body j dto hr' he' hj
    obtain rfl : x = x' := by simpa [hx'] using hx''
    exact List.inj_on_of_nodup_map g.distinct hx hymem (hxply.symm.trans hyply)
  have hone := eq_singleton_of_nodup (List.Nodup.of_map _ g.distinct) hymem hall
  refine ⟨y, hone, ?_⟩
  obtain rfl : j = 0 := by
    rw [hone, List.length_singleton] at hlt
    omega
  rw [← hyply, hply]
  decide

end Rows

/-- The answer is independent of the order of the rows, and numbered by ply,
when all its entries are null in every order, or the game has one move and that
is ply 1. -/
theorem orderFree_iff (lib : Chess.Library) (id : Int) (g : StoredGame) :
    OrderFree lib id g ↔ NeverFound lib g ∨ ∃ m, g.moves = [m] ∧ m.plyNumber = 1 := by
  constructor
  · intro ho
    by_cases h : NeverFound lib g
    · exact Or.inl h
    · exact Or.inr (eq_singleton_of_orderFree ho h)
  · rintro (h | ⟨m, hm, hply⟩)
    · constructor
      · intro rows rows' hr hr'
        rw [fenResponse_of_neverFound h hr, fenResponse_of_neverFound h hr']
      · intro rows body i dto hr he hi
        rw [fenResponse_of_neverFound h hr] at he
        split_ifs at he with h0
        obtain rfl := FenResponse.ok.inj he
        simp [List.getElem?_replicate] at hi
    · have hrows : ∀ rows, g.Rows rows → rows = [m] := by
        intro rows hr
        rw [StoredGame.Rows, hm] at hr
        exact List.perm_singleton.mp hr
      constructor
      · intro rows rows' hr hr'
        rw [hrows rows hr, hrows rows' hr']
      · intro rows body i dto hr he hi
        obtain rfl := hrows rows hr
        obtain ⟨hp, hlt⟩ := Chess.Library.ply_of_entry he hi
        obtain rfl : i = 0 := Nat.lt_one_iff.mp hlt
        exact ⟨m, rfl, hp.trans hply.symm⟩

def whitePly : StoredMove := ⟨1, .normal, 52, 36⟩

def blackPly : StoredMove := ⟨2, .normal, 12, 28⟩

def twoPlies : StoredGame := ⟨[whitePly, blackPly], by decide⟩

theorem finds_whitePly : rulesLibrary.finds rulesLibrary.start whitePly.toMove = true := by
  refine (finds_iff (x := 52) (s := 36) rulesLibrary_followsRules rfl (by decide)).mpr ?_
  decide +kernel

theorem not_finds_blackPly :
    rulesLibrary.finds rulesLibrary.start blackPly.toMove = false := by
  rw [← Bool.not_eq_true]
  refine fun h => ?_
  have hblack := (finds_iff (x := 12) (s := 28) rulesLibrary_followsRules rfl (by decide)).mp h
  revert hblack
  decide +kernel

/-- Two rows that come back in the other order: both entries are null then. -/
theorem swapped_rows_not_orderFree : ¬ OrderFree rulesLibrary 1 twoPlies := by
  intro h
  have hsame := h.same [whitePly, blackPly] [blackPly, whitePly] (List.Perm.refl _)
    (List.Perm.swap ..)
  obtain ⟨body, hbody⟩ : ∃ body,
      rulesLibrary.fenResponse 1 [blackPly, whitePly] = .ok body := ⟨_, rfl⟩
  have hwhite := head_of_fenResponse (hsame.trans hbody)
  have hblack := head_of_fenResponse hbody
  rw [hwhite, finds_whitePly, not_finds_blackPly] at hblack
  cases hblack

end SmakChess
