import SmakChess.BoardWidget
import Mathlib.Data.List.Sort

/-! The animations from one position to another: which pieces move, which appear and
which are cleared. -/

namespace SmakChess.Web

open Objects

inductive Animation
  | move (source destination piece : String)
  | add (square piece : String)
  | clear (square piece : String)
  deriving DecidableEq, Repr

/-- The column of a square, from one on. It is zero for no column. -/
def squareX (square : String) : Nat :=
  match columns.idxOf? (String.ofList (square.toList.take 1)) with
  | some i => i + 1
  | none => 0

def squareY (square : String) : Nat := (square.toList.getD 1 '0').toNat - '0'.toNat

def squareDistance (a b : String) : Nat :=
  let xDelta := ((squareX a : Int) - squareX b).natAbs
  let yDelta := ((squareY a : Int) - squareY b).natAbs
  if yDelta ≤ xDelta then xDelta else yDelta

/-- The other squares, the closest first. -/
def createRadius (square : String) : List String :=
  ((List.range 8).flatMap fun i => (List.range 8).filterMap fun j =>
    if square = columnRow i (j + 1) then none else some (columnRow i (j + 1))).insertionSort
      fun a b => squareDistance square a ≤ squareDistance square b

def findClosestPiece (position : PositionObject) (piece square : String) : Option String :=
  (createRadius square).find? fun s => position.get s == some piece

/-- The pieces that stay are taken out of both positions. -/
def removeSame (pos1 pos2 : PositionObject) : PositionObject × PositionObject :=
  pos2.keys.foldl (fun p i => if p.1.get i = p.2.get i then (p.1.delete i, p.2.delete i) else p)
    (pos1, pos2)

/-- The loop that finds the moves. -/
structure Moving where
  pos1 : PositionObject
  pos2 : PositionObject
  squaresMovedTo : List String
  moves : List (String × String × String)

def Moving.step (s : Moving) (i : String) : Moving :=
  match s.pos2.get i with
  | none => s
  | some piece =>
    match findClosestPiece s.pos1 piece i with
    | none => s
    | some closest =>
      { pos1 := s.pos1.delete closest
        pos2 := s.pos2.delete i
        squaresMovedTo := s.squaresMovedTo ++ [i]
        moves := s.moves ++ [(closest, i, piece)] }

def findMoves (pos1 pos2 : PositionObject) : Moving :=
  let p := removeSame pos1 pos2
  p.2.keys.foldl Moving.step ⟨p.1, p.2, [], []⟩

def calculateAnimations (pos1 pos2 : PositionObject) : List Animation :=
  let s := findMoves pos1 pos2
  s.moves.map (fun m => .move m.1 m.2.1 m.2.2) ++ s.pos2.entries.map (fun e => .add e.1 e.2) ++
    (s.pos1.entries.filter fun e => e.1 ∉ s.squaresMovedTo).map fun e => .clear e.1 e.2

/-! Squares by distance. -/

section Radius

variable {square s piece closest : String} {position : PositionObject}

theorem mem_createRadius : s ∈ createRadius square ↔ validSquare s = true ∧ s ≠ square := by
  rw [createRadius, List.mem_insertionSort]
  simp only [List.mem_flatMap, List.mem_range, List.mem_filterMap]
  constructor
  · rintro ⟨i, hi, j, hj, h⟩
    split_ifs at h with hne
    obtain rfl := Option.some.inj h
    exact ⟨validSquare_columnRow i hi (j + 1) (by omega) (by omega), fun heq => hne heq.symm⟩
  · rintro ⟨hvalid, hne⟩
    obtain ⟨j, hj, i, hi, rfl⟩ := exists_columnRow hvalid
    refine ⟨j, hj, 7 - i, by omega, ?_⟩
    rw [show 7 - i + 1 = 8 - i by omega, if_neg (fun heq => hne heq.symm)]

/-- The piece that is found is one of those asked for, and none of them is closer. -/
theorem findClosestPiece_some (h : findClosestPiece position piece square = some closest) :
    position.get closest = some piece ∧ closest ≠ square ∧ ∀ s, validSquare s = true → s ≠ square →
      position.get s = some piece → squareDistance square closest ≤ squareDistance square s := by
  have hmem := List.mem_of_find?_eq_some h
  have hpiece := List.find?_some h
  refine ⟨by simpa using hpiece, (mem_createRadius.mp hmem).2, fun s hs hne hget => ?_⟩
  have htotal : Std.Total fun a b => squareDistance square a ≤ squareDistance square b :=
    ⟨fun _ _ => le_total _ _⟩
  have htrans : IsTrans String fun a b => squareDistance square a ≤ squareDistance square b :=
    ⟨fun _ _ _ => le_trans⟩
  have hsorted : (createRadius square).Pairwise
      fun a b => squareDistance square a ≤ squareDistance square b := List.pairwise_insertionSort _ _
  obtain ⟨-, before, behind, hlist, hbefore⟩ := List.find?_eq_some_iff_append.mp h
  have hmem' : s ∈ createRadius square := mem_createRadius.mpr ⟨hs, hne⟩
  rw [hlist] at hmem' hsorted
  rcases List.mem_append.mp hmem' with hb | hb
  · exact absurd (hbefore s hb) (by simp [hget])
  · rcases List.mem_cons.mp hb with rfl | hb
    · exact le_rfl
    · exact List.rel_of_pairwise_cons (List.pairwise_append.mp hsorted).2.1 hb

theorem findClosestPiece_none (h : findClosestPiece position piece square = none)
    (hs : validSquare s = true) (hne : s ≠ square) : position.get s ≠ some piece := by
  intro hget
  have hnone := List.find?_eq_none.mp h s (mem_createRadius.mpr ⟨hs, hne⟩)
  exact hnone (by simpa using hget)

end Radius

/-! What is left of the positions. -/

section Removed

variable {pos1 pos2 : PositionObject} {q : String}

theorem get_foldl_removeSame (l : List String) (p : PositionObject × PositionObject) (q : String) :
    let r := l.foldl (fun p i => if p.1.get i = p.2.get i then (p.1.delete i, p.2.delete i) else p) p
    r.1.get q = (if q ∈ l ∧ p.1.get q = p.2.get q then none else p.1.get q) ∧
      r.2.get q = (if q ∈ l ∧ p.1.get q = p.2.get q then none else p.2.get q) := by
  induction l generalizing p with
  | nil => simp
  | cons i l ih =>
    simp only [List.foldl_cons, List.mem_cons]
    split
    next heq =>
      obtain ⟨h1, h2⟩ := ih (p.1.delete i, p.2.delete i)
      refine ⟨h1.trans ?_, h2.trans ?_⟩
      · by_cases hq : q = i
        · simp [hq, heq]
        · simp [hq]
      · by_cases hq : q = i
        · simp [hq, heq]
        · simp [hq]
    next hne =>
      obtain ⟨h1, h2⟩ := ih p
      refine ⟨h1.trans ?_, h2.trans ?_⟩
      · by_cases hq : q = i
        · simp [hq, hne]
        · simp [hq]
      · by_cases hq : q = i
        · simp [hq, hne]
        · simp [hq]

/-- The pieces that stay are gone, the others are as they were. -/
theorem get_removeSame (pos1 pos2 : PositionObject) (q : String) :
    (removeSame pos1 pos2).1.get q = (if pos1.get q = pos2.get q then none else pos1.get q) ∧
      (removeSame pos1 pos2).2.get q = (if pos1.get q = pos2.get q then none else pos2.get q) := by
  obtain ⟨h1, h2⟩ := get_foldl_removeSame pos2.keys (pos1, pos2) q
  refine ⟨h1.trans ?_, h2.trans ?_⟩
  · by_cases heq : pos1.get q = pos2.get q
    · by_cases hk : q ∈ pos2.keys
      · simp [heq, hk]
      · simp [heq, hk, get_eq_none.mpr hk]
    · simp [heq]
  · by_cases heq : pos1.get q = pos2.get q
    · by_cases hk : q ∈ pos2.keys
      · simp [heq, hk]
      · simp [heq, hk, get_eq_none.mpr hk]
    · simp [heq]

end Removed

/-! The loop. -/

namespace Moving

def sources (s : Moving) : List String := s.moves.map fun m => m.1

def destinations (s : Moving) : List String := s.moves.map fun m => m.2.1

/-- After the squares `done`, of the positions `r1` and `r2` that the loop began
with. -/
structure Inv (r1 r2 : PositionObject) (done : List String) (s : Moving) : Prop where
  pos1 : ∀ q, s.pos1.get q = if q ∈ s.sources then none else r1.get q
  pos2 : ∀ q, s.pos2.get q = if q ∈ s.destinations then none else r2.get q
  movedTo : s.squaresMovedTo = s.destinations
  moves : ∀ m ∈ s.moves, r1.get m.1 = some m.2.2 ∧ r2.get m.2.1 = some m.2.2
  sources : s.sources.Nodup
  destinations : s.destinations.Nodup
  reached : ∀ q ∈ s.destinations, q ∈ done
  exhausted : ∀ q ∈ done, ∀ piece, s.pos2.get q = some piece →
    ∀ a, validSquare a = true → a ≠ q → s.pos1.get a ≠ some piece
  closest : ∀ m ∈ s.moves, ∀ a, validSquare a = true → a ≠ m.2.1 → s.pos1.get a = some m.2.2 →
    squareDistance m.2.1 m.1 ≤ squareDistance m.2.1 a

variable {r1 r2 : PositionObject} {done l : List String} {s : Moving} {i : String}

theorem Inv.step (h : s.Inv r1 r2 done) (hi : i ∉ done) : (s.step i).Inv r1 r2 (done ++ [i]) := by
  have hdone : ∀ q ∈ s.destinations, q ∈ done ++ [i] := fun q hq => List.mem_append_left _ (h.reached q hq)
  unfold Moving.step
  split
  next hnone =>
    refine { h with reached := hdone, exhausted := fun q hq piece hp => ?_ }
    rcases List.mem_append.mp hq with hq | hq
    · exact h.exhausted q hq piece hp
    · rw [List.mem_singleton.mp hq, hnone] at hp
      cases hp
  next piece hpiece =>
    split
    next hclosest =>
      refine { h with reached := hdone, exhausted := fun q hq p hp a ha hne => ?_ }
      rcases List.mem_append.mp hq with hq | hq
      · exact h.exhausted q hq p hp a ha hne
      · obtain rfl := List.mem_singleton.mp hq
        obtain rfl : piece = p := Option.some.inj (hpiece.symm.trans hp)
        exact findClosestPiece_none hclosest ha hne
    next closest hclosest =>
      obtain ⟨hget, hne, hdist⟩ := findClosestPiece_some hclosest
      have hsource : closest ∉ s.sources ∧ r1.get closest = some piece := by
        have hpos := h.pos1 closest
        rw [hget] at hpos
        split at hpos
        · cases hpos
        next hmem => exact ⟨hmem, hpos.symm⟩
      have hdest : i ∉ s.destinations := fun hmem => hi (h.reached i hmem)
      have hr2 : r2.get i = some piece := by
        rw [← hpiece, h.pos2 i, if_neg hdest]
      have hsources : (⟨s.pos1.delete closest, s.pos2.delete i, s.squaresMovedTo ++ [i],
          s.moves ++ [(closest, i, piece)]⟩ : Moving).sources = s.sources ++ [closest] := List.map_append
      have hdests : (⟨s.pos1.delete closest, s.pos2.delete i, s.squaresMovedTo ++ [i],
          s.moves ++ [(closest, i, piece)]⟩ : Moving).destinations = s.destinations ++ [i] :=
        List.map_append
      have hkept {a p : String} (ha : (s.pos1.delete closest).get a = some p) : s.pos1.get a = some p := by
        rw [get_delete] at ha
        split_ifs at ha
        exact ha
      refine ⟨fun q => ?_, fun q => ?_, ?_, fun m hm => ?_, ?_, ?_, fun q hq => ?_,
        fun q hq p hp a ha hne' hget' => ?_, fun m hm a ha hne' hget' => ?_⟩
      · rw [get_delete, h.pos1 q, hsources]
        by_cases hq : q = closest <;> simp [hq]
      · rw [get_delete, h.pos2 q, hdests]
        by_cases hq : q = i <;> simp [hq]
      · rw [hdests, h.movedTo]
      · rcases List.mem_append.mp hm with hm | hm
        · exact h.moves m hm
        · rw [List.mem_singleton.mp hm]
          exact ⟨hsource.2, hr2⟩
      · rw [hsources, List.nodup_append]
        exact ⟨h.sources, List.nodup_singleton _, fun a ha b hb hab =>
          hsource.1 (List.mem_singleton.mp hb ▸ hab ▸ ha)⟩
      · rw [hdests, List.nodup_append]
        exact ⟨h.destinations, List.nodup_singleton _, fun a ha b hb hab =>
          hdest (List.mem_singleton.mp hb ▸ hab ▸ ha)⟩
      · rw [hdests, List.mem_append] at hq
        exact List.mem_append.mpr (hq.imp_left (h.reached q))
      · rw [get_delete] at hp
        split_ifs at hp with hqi
        rcases List.mem_append.mp hq with hq | hq
        · exact h.exhausted q hq p hp a ha hne' (hkept hget')
        · exact hqi (List.mem_singleton.mp hq)
      · rcases List.mem_append.mp hm with hm | hm
        · exact h.closest m hm a ha hne' (hkept hget')
        · rw [List.mem_singleton.mp hm] at hne' hget' ⊢
          exact hdist a ha hne' (hkept hget')

theorem Inv.foldl (h : s.Inv r1 r2 done) (hl : (done ++ l).Nodup) :
    (l.foldl Moving.step s).Inv r1 r2 (done ++ l) := by
  induction l generalizing s done with
  | nil => simpa using h
  | cons i l ih =>
    have hi : i ∉ done := fun hmem =>
      (List.nodup_append.mp hl).2.2 i hmem i List.mem_cons_self rfl
    have hstep := ih (h.step hi) (by simpa using hl)
    simpa using hstep

end Moving

/-- What the moves leave of two positions. -/
theorem findMoves_inv (pos1 pos2 : PositionObject) : (findMoves pos1 pos2).Inv
    (removeSame pos1 pos2).1 (removeSame pos1 pos2).2 (removeSame pos1 pos2).2.keys := by
  have hinit : (⟨(removeSame pos1 pos2).1, (removeSame pos1 pos2).2, [], []⟩ : Moving).Inv
      (removeSame pos1 pos2).1 (removeSame pos1 pos2).2 [] :=
    { pos1 := fun _ => rfl
      pos2 := fun _ => rfl
      movedTo := rfl
      moves := fun _ hm => absurd hm List.not_mem_nil
      sources := List.nodup_nil
      destinations := List.nodup_nil
      reached := fun _ hq => absurd hq List.not_mem_nil
      exhausted := fun _ hq => absurd hq List.not_mem_nil
      closest := fun _ hm => absurd hm List.not_mem_nil }
  exact hinit.foldl (nodup_keys _)

/-! The animations. -/

def Animation.source : Animation → Option String
  | .move a _ _ => some a
  | _ => none

def Animation.destination : Animation → Option String
  | .move _ b _ => some b
  | _ => none

section Animations

variable {pos1 pos2 : PositionObject} {a b q piece : String}

theorem mem_move : Animation.move a b piece ∈ calculateAnimations pos1 pos2 ↔
    (a, b, piece) ∈ (findMoves pos1 pos2).moves := by
  simp [calculateAnimations]

theorem mem_add : Animation.add q piece ∈ calculateAnimations pos1 pos2 ↔
    (findMoves pos1 pos2).pos2.get q = some piece := by
  simp [calculateAnimations, mem_entries]

theorem mem_clear : Animation.clear q piece ∈ calculateAnimations pos1 pos2 ↔
    (findMoves pos1 pos2).pos1.get q = some piece ∧ q ∉ (findMoves pos1 pos2).destinations := by
  rw [← (findMoves_inv pos1 pos2).movedTo]
  simp [calculateAnimations, mem_entries]

theorem filterMap_source : (calculateAnimations pos1 pos2).filterMap Animation.source =
    (findMoves pos1 pos2).sources := by
  simp [calculateAnimations, Moving.sources, List.filterMap_append, List.filterMap_map, Function.comp_def,
    Animation.source]

theorem filterMap_destination : (calculateAnimations pos1 pos2).filterMap Animation.destination =
    (findMoves pos1 pos2).destinations := by
  simp [calculateAnimations, Moving.destinations, List.filterMap_append, List.filterMap_map,
    Function.comp_def, Animation.destination]

/-- A piece that is left of the first position differs from the one in the second. -/
theorem get_pos1_findMoves (q : String) : (findMoves pos1 pos2).pos1.get q =
    if q ∈ (findMoves pos1 pos2).sources ∨ pos1.get q = pos2.get q then none else pos1.get q := by
  rw [(findMoves_inv pos1 pos2).pos1 q, (get_removeSame pos1 pos2 q).1]
  by_cases hs : q ∈ (findMoves pos1 pos2).sources <;> simp [hs]

theorem get_pos2_findMoves (q : String) : (findMoves pos1 pos2).pos2.get q =
    if q ∈ (findMoves pos1 pos2).destinations ∨ pos1.get q = pos2.get q then none else pos2.get q := by
  rw [(findMoves_inv pos1 pos2).pos2 q, (get_removeSame pos1 pos2 q).2]
  by_cases hs : q ∈ (findMoves pos1 pos2).destinations <;> simp [hs]

theorem move_squares (h : Animation.move a b piece ∈ calculateAnimations pos1 pos2) :
    pos1.get a = some piece ∧ pos2.get a ≠ some piece ∧ pos2.get b = some piece ∧
      pos1.get b ≠ some piece := by
  obtain ⟨h1, h2⟩ := (findMoves_inv pos1 pos2).moves _ (mem_move.mp h)
  dsimp only at h1 h2
  rw [(get_removeSame pos1 pos2 a).1] at h1
  rw [(get_removeSame pos1 pos2 b).2] at h2
  split_ifs at h1 h2 with ha hb
  exact ⟨h1, fun h => ha (h1.trans h.symm), h2, fun h => hb (h.trans h2.symm)⟩

theorem add_iff : Animation.add q piece ∈ calculateAnimations pos1 pos2 ↔ pos2.get q = some piece ∧
    pos1.get q ≠ some piece ∧ q ∉ (calculateAnimations pos1 pos2).filterMap Animation.destination := by
  rw [mem_add, get_pos2_findMoves, filterMap_destination]
  by_cases hd : q ∈ (findMoves pos1 pos2).destinations
  · simp [hd]
  · by_cases heq : pos1.get q = pos2.get q
    · simp [hd, heq]
    · simp only [hd, heq, or_self, if_false, not_false_eq_true, and_true]
      exact ⟨fun h => ⟨h, fun h1 => heq (h1.trans h.symm)⟩, And.left⟩

theorem clear_iff : Animation.clear q piece ∈ calculateAnimations pos1 pos2 ↔ pos1.get q = some piece ∧
    pos2.get q ≠ some piece ∧ q ∉ (calculateAnimations pos1 pos2).filterMap Animation.source ∧
    q ∉ (calculateAnimations pos1 pos2).filterMap Animation.destination := by
  rw [mem_clear, get_pos1_findMoves, filterMap_source, filterMap_destination]
  by_cases hs : q ∈ (findMoves pos1 pos2).sources
  · simp [hs]
  · by_cases heq : pos1.get q = pos2.get q
    · simp only [hs, heq, or_true, if_true, reduceCtorEq, false_and, false_iff]
      exact fun h => h.2.1 h.1
    · simp only [hs, heq, or_self, if_false, not_false_eq_true, true_and]
      exact ⟨fun h => ⟨h.1, fun h2 => heq (h.1.trans h2.symm), h.2⟩, fun h => ⟨h.1, h.2.2⟩⟩

/-- A piece appears out of nowhere only when all pieces of its kind have been used. -/
theorem source_of_add (h1 : validPositionObject pos1 = true)
    (h : Animation.add q piece ∈ calculateAnimations pos1 pos2) (ha : pos1.get a = some piece) :
    pos2.get a = some piece ∨ a ∈ (calculateAnimations pos1 pos2).filterMap Animation.source := by
  have hinv := findMoves_inv pos1 pos2
  have hget := mem_add.mp h
  have hkey : q ∈ (removeSame pos1 pos2).2.keys := by
    have hpos := hinv.pos2 q
    rw [hget] at hpos
    split_ifs at hpos
    exact mem_keys.mpr ⟨piece, hpos.symm⟩
  have hne : a ≠ q := fun heq => (add_iff.mp h).2.1 (heq ▸ ha)
  have hnone := hinv.exhausted q hkey piece hget a ((validPositionObject_iff.mp h1) a piece ha).1 hne
  rw [get_pos1_findMoves, ha] at hnone
  rw [filterMap_source]
  by_contra hneither
  rw [not_or] at hneither
  exact hnone (if_neg (not_or.mpr ⟨hneither.2, fun heq => hneither.1 heq.symm⟩))

theorem nodup_calculateAnimations (pos1 pos2 : PositionObject) :
    (calculateAnimations pos1 pos2).Nodup := by
  have hinv := findMoves_inv pos1 pos2
  have hentries (o : PositionObject) : o.entries.Nodup := List.Nodup.of_map _ o.nodup
  have hmoves : (findMoves pos1 pos2).moves.Nodup := List.Nodup.of_map _ hinv.sources
  rw [calculateAnimations, List.nodup_append', List.nodup_append']
  refine ⟨⟨hmoves.map ?_, (hentries _).map ?_, ?_⟩, ((hentries _).filter _).map ?_, ?_⟩
  · rintro ⟨a, b, c⟩ ⟨a', b', c'⟩ h
    simpa using h
  · rintro ⟨a, b⟩ ⟨a', b'⟩ h
    simpa using h
  · intro x hx hx'
    simp only [List.mem_map] at hx hx'
    obtain ⟨m, -, rfl⟩ := hx
    obtain ⟨e, -, he⟩ := hx'
    cases he
  · rintro ⟨a, b⟩ ⟨a', b'⟩ h
    simpa using h
  · intro x hx hx'
    simp only [List.mem_append, List.mem_map] at hx hx'
    obtain ⟨e, -, rfl⟩ := hx'
    rcases hx with ⟨m, -, hm⟩ | ⟨m, -, hm⟩ <;> cases hm

end Animations

/-- Every piece of the two positions is accounted for: it stays, or goes to a square
that lacks it, or is added, or is cleared, or is captured by one that moves to its
square. No piece is added while one of its kind is left over, and what is cleared is
no closer than what has moved. -/
theorem calculateAnimations_spec {pos1 : PositionObject} (h : validPositionObject pos1 = true)
    (pos2 : PositionObject) :
    let animations := calculateAnimations pos1 pos2
    let sources := animations.filterMap Animation.source
    let destinations := animations.filterMap Animation.destination
    (∀ a b piece, .move a b piece ∈ animations → pos1.get a = some piece ∧ pos2.get a ≠ some piece ∧
      pos2.get b = some piece ∧ pos1.get b ≠ some piece) ∧
    (∀ q piece, .add q piece ∈ animations ↔
      pos2.get q = some piece ∧ pos1.get q ≠ some piece ∧ q ∉ destinations) ∧
    (∀ q piece, .clear q piece ∈ animations ↔
      pos1.get q = some piece ∧ pos2.get q ≠ some piece ∧ q ∉ sources ∧ q ∉ destinations) ∧
    (∀ q piece a, .add q piece ∈ animations → pos1.get a = some piece →
      pos2.get a = some piece ∨ a ∈ sources) ∧
    (∀ a b piece a', .move a b piece ∈ animations → .clear a' piece ∈ animations →
      squareDistance b a ≤ squareDistance b a') ∧
    animations.Nodup ∧ sources.Nodup ∧ destinations.Nodup := by
  intro animations sources destinations
  have hinv := findMoves_inv pos1 pos2
  have hsources : sources = (findMoves pos1 pos2).sources := filterMap_source
  have hdestinations : destinations = (findMoves pos1 pos2).destinations := filterMap_destination
  refine ⟨fun a b piece => move_squares, fun q piece => add_iff, fun q piece => clear_iff,
    fun q piece a hadd ha => source_of_add h hadd ha, fun a b piece a' hmove hclear => ?_,
    nodup_calculateAnimations pos1 pos2, hsources ▸ hinv.sources, hdestinations ▸ hinv.destinations⟩
  obtain ⟨hget, hnot⟩ := mem_clear.mp hclear
  have hne : a' ≠ b := by
    rintro rfl
    exact hnot (List.mem_map.mpr ⟨_, mem_move.mp hmove, rfl⟩)
  have hvalid := ((validPositionObject_iff.mp h) a' piece (clear_iff.mp hclear).1).1
  exact hinv.closest _ (mem_move.mp hmove) a' hvalid hne hget

/-- One queen goes and the other one is taken, and a pawn comes to two that there were. -/
def queensBefore : PositionObject :=
  (((Object.empty.set "e2" "wP").set "c2" "wP").set "d4" "bQ").set "d8" "bQ"

def queensAfter : PositionObject :=
  (((Object.empty.set "e4" "wP").set "c2" "wP").set "h5" "wP").set "d5" "bQ"

theorem calculateAnimations_spec_queens :
    let animations := calculateAnimations queensBefore queensAfter
    let sources := animations.filterMap Animation.source
    let destinations := animations.filterMap Animation.destination
    animations = [.move "e2" "e4" "wP", .move "d4" "d5" "bQ", .add "h5" "wP", .clear "d8" "bQ"] ∧
      (queensBefore.get "d4" = some "bQ" ∧ queensAfter.get "d4" ≠ some "bQ" ∧
        queensAfter.get "d5" = some "bQ" ∧ queensBefore.get "d5" ≠ some "bQ") ∧
      (queensAfter.get "h5" = some "wP" ∧ queensBefore.get "h5" ≠ some "wP" ∧
        "h5" ∉ destinations) ∧
      (queensBefore.get "d8" = some "bQ" ∧ queensAfter.get "d8" ≠ some "bQ" ∧
        "d8" ∉ sources ∧ "d8" ∉ destinations) ∧
      (queensAfter.get "c2" = some "wP" ∨ "c2" ∈ sources) ∧
      squareDistance "d5" "d4" ≤ squareDistance "d5" "d8" ∧
      animations.Nodup ∧ sources.Nodup ∧ destinations.Nodup := by
  have hvalid : validPositionObject queensBefore = true := by decide +kernel
  have hall : calculateAnimations queensBefore queensAfter = [.move "e2" "e4" "wP",
      .move "d4" "d5" "bQ", .add "h5" "wP", .clear "d8" "bQ"] := by decide +kernel
  obtain ⟨hmoves, hadds, hclears, hlike, hclosest, hnodup⟩ :=
    calculateAnimations_spec hvalid queensAfter
  have hmove : .move "d4" "d5" "bQ" ∈ calculateAnimations queensBefore queensAfter := by simp [hall]
  have hadd : .add "h5" "wP" ∈ calculateAnimations queensBefore queensAfter := by simp [hall]
  have hclear : .clear "d8" "bQ" ∈ calculateAnimations queensBefore queensAfter := by simp [hall]
  exact ⟨hall, hmoves _ _ _ hmove, (hadds _ _).mp hadd, (hclears _ _).mp hclear,
    hlike _ _ _ hadd (by decide +kernel), hclosest _ _ _ _ hmove hclear, hnodup⟩

/-- One move is animated as that move alone, whatever it captures. -/
theorem animations_carry {pos1 pos2 : PositionObject} {a b piece : String}
    (h : validPositionObject pos1 = true) (ha : pos1.get a = some piece) (hab : a ≠ b)
    (hb : pos1.get b ≠ some piece) (h2 : pos2.get = BoardPosition.carry pos1.get (a, b)) :
    calculateAnimations pos1 pos2 = [.move a b piece] := by
  have hget (q : String) : pos2.get q = if q = b then some piece else if q = a then none else pos1.get q := by
    simp only [h2, BoardPosition.carry, ha, Function.update_apply]
  have hmove : ∀ x y p, Animation.move x y p ∈ calculateAnimations pos1 pos2 →
      x = a ∧ y = b ∧ p = piece := by
    intro x y p hmem
    obtain ⟨hx, hx', hy, hy'⟩ := move_squares hmem
    rw [hget] at hx' hy
    split_ifs at hy with hyb hya
    · obtain rfl := Option.some.inj hy
      split_ifs at hx' with hxb hxa
      · exact absurd rfl hx'
      · exact ⟨hxa, hyb, rfl⟩
      · exact absurd hx hx'
    · exact absurd hy hy'
  have hsource : a ∈ (calculateAnimations pos1 pos2).filterMap Animation.source := by
    by_contra hnot
    have hadd : Animation.add b piece ∈ calculateAnimations pos1 pos2 := by
      refine add_iff.mpr ⟨by rw [hget, if_pos rfl], hb, fun hmem => hnot ?_⟩
      obtain ⟨x, hx, hdest⟩ := List.mem_filterMap.mp hmem
      cases x with
      | move x y p =>
        obtain ⟨rfl, -, -⟩ := hmove x y p hx
        exact List.mem_filterMap.mpr ⟨_, hx, rfl⟩
      | _ => cases hdest
    rcases source_of_add h hadd ha with hstay | hmem
    · rw [hget, if_neg hab, if_pos rfl] at hstay
      cases hstay
    · exact hnot hmem
  obtain ⟨x, hx, hxa⟩ := List.mem_filterMap.mp hsource
  have hmem : Animation.move a b piece ∈ calculateAnimations pos1 pos2 := by
    cases x with
    | move x y p =>
      obtain ⟨rfl, rfl, rfl⟩ := hmove x y p hx
      exact hx
    | _ => cases hxa
  have hdest : b ∈ (calculateAnimations pos1 pos2).filterMap Animation.destination :=
    List.mem_filterMap.mpr ⟨_, hmem, rfl⟩
  have hall : ∀ y ∈ calculateAnimations pos1 pos2, y = .move a b piece := by
    intro y hy
    cases y with
    | move x y p =>
      obtain ⟨rfl, rfl, rfl⟩ := hmove x y p hy
      rfl
    | add q p =>
      obtain ⟨hq, hq', hnot⟩ := add_iff.mp hy
      rw [hget] at hq
      split_ifs at hq with hqb hqa
      · exact absurd (hqb ▸ hdest) hnot
      · exact absurd hq hq'
    | clear q p =>
      obtain ⟨hq, hq', hns, hnd⟩ := clear_iff.mp hy
      rw [hget] at hq'
      split_ifs at hq' with hqb hqa
      · exact absurd (hqb ▸ hdest) hnd
      · exact absurd (hqa ▸ hsource) hns
      · exact absurd hq hq'
  exact List.perm_singleton.mp ((List.perm_ext_iff_of_nodup (nodup_calculateAnimations pos1 pos2)
    (List.nodup_singleton _)).mpr fun y => ⟨fun hy => List.mem_singleton.mpr (hall y hy),
      fun hy => List.mem_singleton.mp hy ▸ hmem⟩)

/-- A piece that moves to a square without its like is shown as that move alone. -/
theorem animations_widgetMove {cur : PositionObject} {mv a b piece : String}
    (h : validPositionObject cur = true) (hmv : squaresOf mv = some (a, b)) (hab : a ≠ b)
    (ha : cur.get a = some piece) (hb : cur.get b ≠ some piece) :
    calculateAnimations cur (calculatePositionFromMoves cur (collectMoves [some mv])) =
      [.move a b piece] := by
  refine animations_carry h ha hab hb ?_
  have hargs : [some mv].filterMap moveArgument = [(a, b)] := by
    rw [List.filterMap_cons, moveArgument_some, hmv]
    rfl
  rw [get_calculatePositionFromMoves, entries_collectMoves (by simp [hargs]), hargs]
  rfl

theorem animations_widgetMove_e4 :
    calculateAnimations startPosition
      (calculatePositionFromMoves startPosition (collectMoves [some "e2-e4"])) = [.move "e2" "e4" "wP"] :=
  animations_widgetMove startPosition_valid (by decide) (by decide) (by decide +kernel) (by decide +kernel)

end SmakChess.Web
