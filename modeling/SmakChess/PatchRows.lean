import SmakChess.DbRest

/-! The PATCH endpoints of the database service, and which rows they write. -/

namespace SmakChess.DbRest

open Tables

/-- The id under which `save` inserts a row for an id that no row has, `none` when it
refuses. -/
abbrev OnMissing := Nat → Option Nat

/-- An id is the number that the bits of a `Long` make. Those between -128 and 127
are boxed once only. -/
def cachedLong (i : Nat) : Bool :=
  i < 128 || (18446744073709551488 ≤ i && i < 18446744073709551616)

/-- `==` on two boxed numbers compares references. -/
def sameLong (i j : Nat) : Bool := i == j && cachedLong i

def idSaved {α : Type*} (onMissing : OnMissing) (t : Table α) : Option Nat → Option Nat
  | none => some t.next
  | some i => if (t.row i).isSome then some i else onMissing i

def saveUser (onMissing : OnMissing) (users : Table UserRow) (u : User) :
    Option (Nat × UserRow) := do
  let name ← u.name
  let id ← idSaved onMissing users u.id
  return (id, { authentikUserId := u.authentikUserId, name := name })

def saveBoard (onMissing : OnMissing) (users : Table UserRow) (boards : Table BoardRow)
    (b : Board) (userId : Option Nat) : Option (Nat × BoardRow) := do
  let userId ← userId
  if (users.row userId).isSome then
    let id ← idSaved onMissing boards b.id
    return (id, { productId := b.productId, name := b.name, userId := userId })
  else none

/-- What a request leaves, and whether it ends without an exception. -/
structure Patched where
  users : Table UserRow
  boards : Table BoardRow
  ok : Bool

def Service.unpatched (s : Service) : Patched := ⟨s.users, s.boards, false⟩

/-- `UserController.updateUser`. -/
def updateUser (onMissing : OnMissing) (s : Service) (id : Nat) (u : User) : Patched :=
  let save (u : User) : Patched :=
    match saveUser onMissing s.users u with
    | none => s.unpatched
    | some (i, row) => ⟨s.users.put i row, s.boards, true⟩
  match u.id with
  | none => save { u with id := some id }
  | some i => if !sameLong i id then s.unpatched else save u

/-- The end of `BoardService.save`, with the users as they are then. -/
def saveOwned (onMissing : OnMissing) (users : Table UserRow) (boards : Table BoardRow)
    (b : Board) (userId : Option Nat) : Patched :=
  match saveBoard onMissing users boards b userId with
  | none => ⟨users, boards, false⟩
  | some (i, row) => ⟨users, boards.put i row, true⟩

/-- `BoardController.updateBoard`. The id of the path is not used. -/
def updateBoard (onMissing : OnMissing) (s : Service) (_id : Nat) (b : Board) (choice : Nat) :
    Patched :=
  match b.user with
  | none => s.unpatched
  | some u =>
    match u.authentikUserId with
    | none => saveOwned onMissing s.users s.boards b u.id
    | some a =>
      match firstUser s.users a choice with
      | some (i, _) => saveOwned onMissing s.users s.boards b (some i)
      | none =>
        match saveUser onMissing s.users u with
        | none => s.unpatched
        | some (i, row) => saveOwned onMissing (s.users.put i row) s.boards b (some i)

def Unchanged (s : Service) (r : Patched) : Prop :=
  r.ok = false ∧ r.users.row = s.users.row ∧ r.boards.row = s.boards.row

/-- An absent or equal id writes the row of the path and no other, and a different
one fails without a write. -/
def PatchesUser (onMissing : OnMissing) (s : Service) (id : Nat) (u : User) : Prop :=
  if u.id = none ∨ u.id = some id then
    (updateUser onMissing s id u).ok = true ∧
      (updateUser onMissing s id u).boards.row = s.boards.row ∧
      ∃ name, u.name = some name ∧ (updateUser onMissing s id u).users.row =
        Function.update s.users.row id (some ⟨u.authentikUserId, name⟩)
  else Unchanged s (updateUser onMissing s id u)

def PatchesBoard (onMissing : OnMissing) (s : Service) (id : Nat) (b : Board) (choice : Nat) :
    Prop :=
  if b.id = none ∨ b.id = some id then
    (updateBoard onMissing s id b choice).ok = true ∧
      (updateBoard onMissing s id b choice).users.row = s.users.row ∧
      ∃ userId, (updateBoard onMissing s id b choice).boards.row =
        Function.update s.boards.row id (some ⟨b.productId, b.name, userId⟩)
  else Unchanged s (updateBoard onMissing s id b choice)

/-- The user that a board is saved with is there already. -/
def knownOwner (s : Service) (b : Board) (choice : Nat) : Bool :=
  match b.user with
  | none => false
  | some u =>
    match u.authentikUserId with
    | none => u.id.any fun i => (s.users.row i).isSome
    | some a => (firstUser s.users a choice).isSome

/-- The user has an authentik id that is not known, and is inserted or overwritten
first. -/
def savesOwner (onMissing : OnMissing) (s : Service) (b : Board) (choice : Nat) : Bool :=
  match b.user with
  | none => false
  | some u =>
    match u.authentikUserId with
    | none => false
    | some a => (firstUser s.users a choice).isNone && (saveUser onMissing s.users u).isSome

def UserPatchable (id : Nat) (u : User) : Prop :=
  match u.id with
  | none => u.name ≠ none
  | some i => i = id → cachedLong id = true ∧ u.name ≠ none

def BoardPatchable (onMissing : OnMissing) (s : Service) (id : Nat) (b : Board) (choice : Nat) :
    Prop :=
  match b.id with
  | none => False
  | some i =>
    if i = id then knownOwner s b choice = true
    else savesOwner onMissing s b choice = false ∧
      (knownOwner s b choice = true → s.boards.row i = none ∧ onMissing i = none)

section Patch

variable {onMissing : OnMissing} {s : Service} {id i choice : Nat} {u : User} {b : Board}
  {userId : Option Nat}

/-- Where a missing row is refused these are the repositories' own. -/
theorem saveUser_refusing (users : Table UserRow) (u : User) :
    saveUser (fun _ => none) users u = userRepositorySave users u := by
  have hid : idSaved (fun _ => none) users u.id = users.idOf u.id := by
    cases u.id <;> rfl
  rw [saveUser, hid]
  rfl

theorem saveBoard_refusing (users : Table UserRow) (boards : Table BoardRow) (b : Board)
    (userId : Option Nat) :
    saveBoard (fun _ => none) users boards b userId = boardRepositorySave users boards b userId := by
  have hid : idSaved (fun _ => none) boards b.id = boards.idOf b.id := by
    cases b.id <;> rfl
  cases userId with
  | none => rfl
  | some i => simp only [saveBoard, boardRepositorySave, hid]

theorem sameLong_iff {j : Nat} : sameLong i j = true ↔ i = j ∧ cachedLong j = true := by
  unfold sameLong
  rw [Bool.and_eq_true, beq_iff_eq]
  constructor
  · rintro ⟨rfl, hc⟩
    exact ⟨rfl, hc⟩
  · rintro ⟨rfl, hc⟩
    exact ⟨rfl, hc⟩

/-! Users. -/

theorem saveUser_of_row {name : String} (hrow : (s.users.row id).isSome = true)
    (hid : u.id = some id) (hname : u.name = some name) :
    saveUser onMissing s.users u = some (id, ⟨u.authentikUserId, name⟩) := by
  simp [saveUser, idSaved, hrow, hid, hname]

theorem saveUser_of_no_name (hname : u.name = none) : saveUser onMissing s.users u = none := by
  simp [saveUser, hname]

theorem patchesUser_of_save (hrow : (s.users.row id).isSome = true)
    (hid : u.id = none ∨ u.id = some id)
    (hupdate : updateUser onMissing s id u =
      match saveUser onMissing s.users { u with id := some id } with
      | none => s.unpatched
      | some (i, row) => ⟨s.users.put i row, s.boards, true⟩) :
    PatchesUser onMissing s id u ↔ u.name ≠ none := by
  rw [PatchesUser, if_pos hid, hupdate]
  by_cases hname : u.name = none
  · have hfail : saveUser onMissing s.users { u with id := some id } = none :=
      saveUser_of_no_name hname
    rw [hfail]
    exact iff_of_false (fun h => Bool.false_ne_true h.1) fun h => h hname
  · obtain ⟨name, hsome⟩ := Option.ne_none_iff_exists'.mp hname
    have hdone : saveUser onMissing s.users { u with id := some id } =
        some (id, ⟨u.authentikUserId, name⟩) := saveUser_of_row hrow rfl hsome
    rw [hdone]
    exact iff_of_true ⟨rfl, rfl, name, hsome, rfl⟩ hname

theorem patchesUser_iff (hrow : (s.users.row id).isSome = true) :
    PatchesUser onMissing s id u ↔ UserPatchable id u := by
  cases hid : u.id with
  | none =>
    rw [UserPatchable, hid]
    exact patchesUser_of_save hrow (.inl hid) (by simp [updateUser, hid])
  | some i =>
    rw [UserPatchable, hid]
    by_cases hi : i = id
    · subst hi
      have hsame : ({ u with id := some i } : User) = u := by rw [← hid]
      cases hc : cachedLong i with
      | true =>
        have hboxed : sameLong i i = true := sameLong_iff.mpr ⟨rfl, hc⟩
        rw [patchesUser_of_save hrow (.inr hid) (by simp [updateUser, hid, hboxed, hsame])]
        exact ⟨fun h _ => ⟨rfl, h⟩, fun h => (h rfl).2⟩
      | false =>
        -- equal numbers in two boxes
        have hboxed : sameLong i i = false := by
          rw [Bool.eq_false_iff]
          intro h
          rw [(sameLong_iff.mp h).2] at hc
          cases hc
        refine iff_of_false (fun h => ?_) fun h => Bool.false_ne_true (h rfl).1
        rw [PatchesUser, if_pos (.inr hid)] at h
        have hfail : updateUser onMissing s i u = s.unpatched := by simp [updateUser, hid, hboxed]
        rw [hfail] at h
        exact Bool.false_ne_true h.1
    · have hboxed : sameLong i id = false := by
        rw [Bool.eq_false_iff]
        exact fun h => hi (sameLong_iff.mp h).1
      have hfail : updateUser onMissing s id u = s.unpatched := by simp [updateUser, hid, hboxed]
      rw [PatchesUser, if_neg (by simp [hid, hi]), hfail]
      exact iff_of_true ⟨rfl, rfl, rfl⟩ fun h => absurd h hi

/-! Boards. -/

theorem saveOwned_of_owner {users : Table UserRow} {boards : Table BoardRow}
    (h : (users.row i).isSome = true) :
    saveOwned onMissing users boards b (some i) =
      match idSaved onMissing boards b.id with
      | none => ⟨users, boards, false⟩
      | some j => ⟨users, boards.put j ⟨b.productId, b.name, i⟩, true⟩ := by
  cases hid : idSaved onMissing boards b.id <;> simp [saveOwned, saveBoard, h, hid]

theorem users_saveOwned {users : Table UserRow} {boards : Table BoardRow} :
    (saveOwned onMissing users boards b userId).users = users := by
  unfold saveOwned
  split <;> rfl

theorem updateBoard_of_known (h : knownOwner s b choice = true) :
    ∃ i, (s.users.row i).isSome = true ∧
      updateBoard onMissing s id b choice = saveOwned onMissing s.users s.boards b (some i) := by
  unfold knownOwner at h
  unfold updateBoard
  cases hu : b.user with
  | none => simp [hu] at h
  | some u =>
    simp only [hu] at h ⊢
    cases ha : u.authentikUserId with
    | none =>
      simp only [ha] at h ⊢
      cases hi : u.id with
      | none => simp [hi] at h
      | some i => exact ⟨i, by simpa [hi] using h, rfl⟩
    | some a =>
      simp only [ha] at h ⊢
      obtain ⟨⟨i, row⟩, hf⟩ := Option.isSome_iff_exists.mp h
      obtain ⟨v, hv, -⟩ := firstUser_spec hf
      exact ⟨i, by rw [hv]; rfl, by rw [hf]⟩

theorem updateBoard_of_saves (h : savesOwner onMissing s b choice = true) :
    ∃ i row, (s.users.put i row).row ≠ s.users.row ∧
      updateBoard onMissing s id b choice =
        saveOwned onMissing (s.users.put i row) s.boards b (some i) := by
  unfold savesOwner at h
  unfold updateBoard
  cases hu : b.user with
  | none => simp [hu] at h
  | some u =>
    simp only [hu] at h ⊢
    cases ha : u.authentikUserId with
    | none => simp [ha] at h
    | some a =>
      simp only [ha, Bool.and_eq_true, Option.isNone_iff_eq_none] at h ⊢
      obtain ⟨hnew, hsaved⟩ := h
      obtain ⟨⟨i, row⟩, hrow⟩ := Option.isSome_iff_exists.mp hsaved
      refine ⟨i, row, fun hsame => ?_, by rw [hnew, hrow]⟩
      -- no row had this authentik id before
      have hauth : row.authentikUserId = some a := by
        obtain ⟨name, -, hid⟩ := Option.bind_eq_some_iff.mp hrow
        obtain ⟨j, -, hj⟩ := Option.bind_eq_some_iff.mp hid
        obtain ⟨-, rfl⟩ := Prod.mk.inj (Option.some.inj hj)
        exact ha
      have hhas : HasAuth s.users i a := by
        have hput : (s.users.put i row).row i = some row := by rw [put_row, if_pos rfl]
        rw [hsame] at hput
        exact ⟨row, hput, hauth⟩
      obtain ⟨j, v, hf⟩ := exists_firstUser hhas choice
      rw [hf] at hnew
      cases hnew

theorem unchanged_of_neither (hk : knownOwner s b choice = false)
    (hs : savesOwner onMissing s b choice = false) :
    Unchanged s (updateBoard onMissing s id b choice) := by
  unfold knownOwner at hk
  unfold savesOwner at hs
  unfold updateBoard
  cases hu : b.user with
  | none => exact ⟨rfl, rfl, rfl⟩
  | some u =>
    simp only [hu] at hk hs ⊢
    cases ha : u.authentikUserId with
    | none =>
      simp only [ha] at hk ⊢
      have hfail : saveBoard onMissing s.users s.boards b u.id = none := by
        cases hid : u.id with
        | none => rfl
        | some i =>
          rw [hid, Option.any_some] at hk
          simp [saveBoard, hk]
      rw [saveOwned, hfail]
      exact ⟨rfl, rfl, rfl⟩
    | some a =>
      simp only [ha] at hk hs ⊢
      have hnew : firstUser s.users a choice = none := by simpa using hk
      rw [hnew] at hs ⊢
      have hfail : saveUser onMissing s.users u = none := by simpa using hs
      rw [hfail]
      exact ⟨rfl, rfl, rfl⟩

theorem not_savesOwner_of_known (h : knownOwner s b choice = true) :
    savesOwner onMissing s b choice = false := by
  obtain ⟨i, -, hi⟩ := @updateBoard_of_known onMissing s 0 choice b h
  rw [Bool.eq_false_iff]
  intro hs
  obtain ⟨j, row, hne, hj⟩ := @updateBoard_of_saves onMissing s 0 choice b hs
  have hsame := congrArg Patched.users (hi.symm.trans hj)
  rw [users_saveOwned, users_saveOwned] at hsame
  exact hne (congrArg Table.row hsame.symm)

/-- Without an id a new board is written, and the row of the path stays as it was. -/
theorem not_patchesBoard_of_absent (hrow : (s.boards.row id).isSome = true)
    (h : knownOwner s b choice = true) (hid : b.id = none) :
    ¬ PatchesBoard onMissing s id b choice := by
  obtain ⟨o, ho, hupdate⟩ := @updateBoard_of_known onMissing s id choice b h
  rw [saveOwned_of_owner ho] at hupdate
  intro hp
  rw [PatchesBoard, if_pos (.inl hid), hupdate, hid] at hp
  obtain ⟨-, -, userId, hrows⟩ := hp
  have hne : s.boards.next ≠ id := by
    obtain ⟨row, hr⟩ := Option.isSome_iff_exists.mp hrow
    exact (Nat.ne_of_lt (lt_next_of_row hr)).symm
  have hnext := congrFun hrows s.boards.next
  rw [Function.update_of_ne hne, s.boards.fresh _ (Nat.le_refl _)] at hnext
  simp [idSaved, Table.put] at hnext

theorem patchesBoard_of_equal (hrow : (s.boards.row id).isSome = true)
    (h : knownOwner s b choice = true) (hid : b.id = some id) :
    PatchesBoard onMissing s id b choice := by
  obtain ⟨o, ho, hupdate⟩ := @updateBoard_of_known onMissing s id choice b h
  have hsaved : idSaved onMissing s.boards (some id) = some id := if_pos hrow
  rw [PatchesBoard, if_pos (.inr hid), hupdate, saveOwned_of_owner ho, hid, hsaved]
  exact ⟨rfl, rfl, o, rfl⟩

/-- A board with a known user is saved, unless its id has no row and is refused. -/
theorem unchanged_iff_of_known (h : knownOwner s b choice = true) (hid : b.id = some i) :
    Unchanged s (updateBoard onMissing s id b choice) ↔
      s.boards.row i = none ∧ onMissing i = none := by
  obtain ⟨o, ho, hupdate⟩ := @updateBoard_of_known onMissing s id choice b h
  rw [hupdate, saveOwned_of_owner ho, hid]
  cases hmissing : s.boards.row i with
  | some row =>
    have hsaved : idSaved onMissing s.boards (some i) = some i :=
      if_pos (by rw [hmissing]; rfl)
    rw [hsaved]
    exact iff_of_false (fun hu => Bool.false_ne_true hu.1.symm) fun hc =>
      Option.some_ne_none row hc.1
  | none =>
    have hsaved : idSaved onMissing s.boards (some i) = onMissing i :=
      if_neg (by rw [hmissing]; exact Bool.false_ne_true)
    rw [hsaved]
    cases hrefuse : onMissing i with
    | some j =>
      exact iff_of_false (fun hu => Bool.false_ne_true hu.1.symm) fun hc =>
        Option.some_ne_none j hc.2
    | none => exact iff_of_true ⟨rfl, rfl, rfl⟩ ⟨rfl, rfl⟩

theorem patchesBoard_of_known (hrow : (s.boards.row id).isSome = true)
    (h : knownOwner s b choice = true) :
    PatchesBoard onMissing s id b choice ↔ BoardPatchable onMissing s id b choice := by
  cases hid : b.id with
  | none =>
    rw [BoardPatchable, hid]
    exact iff_of_false (not_patchesBoard_of_absent hrow h hid) fun hc => hc
  | some i =>
    rw [BoardPatchable, hid]
    by_cases hi : i = id
    · subst hi
      exact iff_of_true (patchesBoard_of_equal hrow h hid) (by simpa using h)
    · have hdiff : ¬ (b.id = none ∨ b.id = some id) := by simp [hid, hi]
      simp only [if_neg hi]
      rw [PatchesBoard, if_neg hdiff, and_iff_right (not_savesOwner_of_known h),
        imp_iff_right h]
      exact unchanged_iff_of_known h hid

theorem patchesBoard_iff (hrow : (s.boards.row id).isSome = true) :
    PatchesBoard onMissing s id b choice ↔ BoardPatchable onMissing s id b choice := by
  cases hk : knownOwner s b choice with
  | true => exact patchesBoard_of_known hrow hk
  | false =>
    cases hs : savesOwner onMissing s b choice with
    | true =>
      obtain ⟨i, row, hne, hupdate⟩ := @updateBoard_of_saves onMissing s id choice b hs
      refine iff_of_false (fun hp => ?_) fun hc => ?_
      · have husers : (updateBoard onMissing s id b choice).users.row = s.users.row := by
          unfold PatchesBoard at hp
          split at hp
          · exact hp.2.1
          · exact hp.2.1
        rw [hupdate, users_saveOwned] at husers
        exact hne husers
      · unfold BoardPatchable at hc
        split at hc
        · exact hc
        · split at hc
          · rw [hk] at hc
            cases hc
          · rw [hs] at hc
            exact Bool.noConfusion hc.1
    | false =>
      have hsame := @unchanged_of_neither onMissing s id choice b hk hs
      by_cases hid : b.id = none ∨ b.id = some id
      · refine iff_of_false (fun hp => ?_) fun hc => ?_
        · rw [PatchesBoard, if_pos hid, hsame.1] at hp
          exact Bool.false_ne_true hp.1
        · rw [BoardPatchable] at hc
          rcases hid with hid | hid
          · simp [hid] at hc
          · simp [hid, hk] at hc
      · rw [PatchesBoard, if_neg hid]
        refine iff_of_true hsame ?_
        obtain ⟨hnone, hsome⟩ := not_or.mp hid
        obtain ⟨i, hi⟩ := Option.ne_none_iff_exists'.mp hnone
        have hne : i ≠ id := fun he => hsome (he ▸ hi)
        rw [BoardPatchable, hi]
        simp [hne, hs, hk]

end Patch

/-- Which requests write the row of the path and no other, or fail where they
should. -/
theorem patches_iff (onMissing : OnMissing) (s : Service) (id : Nat) (u : User) (b : Board)
    (choice : Nat) :
    ((s.users.row id).isSome = true →
        (PatchesUser onMissing s id u ↔ UserPatchable id u)) ∧
      ((s.boards.row id).isSome = true →
        (PatchesBoard onMissing s id b choice ↔ BoardPatchable onMissing s id b choice)) :=
  ⟨patchesUser_iff, patchesBoard_iff⟩

def oneBoard : Service where
  users := Table.empty.put 200 ⟨some "ak-1", "ann"⟩
  boards := Table.empty.put 1 ⟨none, none, 200⟩
  requests := []
  saved := []

/-- An absent id makes a new board, and an equal one over 127 is refused. -/
theorem oneBoard_not_patches :
    ¬ PatchesBoard some oneBoard 1 ⟨none, none, none, some ⟨none, some "ak-1", none⟩⟩ 200 ∧
      ¬ PatchesUser some oneBoard 200 ⟨some 200, some "ak-1", some "ann"⟩ := by
  have hboard : (oneBoard.boards.row 1).isSome = true := by simp [oneBoard, Table.put]
  have huser : (oneBoard.users.row 200).isSome = true := by simp [oneBoard, Table.put]
  rw [patchesBoard_iff hboard, patchesUser_iff huser]
  exact ⟨id, fun h => absurd (h rfl).1 (by decide)⟩

theorem oneBoard_patches :
    PatchesBoard some oneBoard 1 ⟨some 1, none, some "b", some ⟨some 200, none, none⟩⟩ 200 := by
  have hboard : (oneBoard.boards.row 1).isSome = true := by simp [oneBoard, Table.put]
  refine ((patches_iff some oneBoard 1 ⟨none, none, none⟩ _ 200).2 hboard).mpr ?_
  have hknown : knownOwner oneBoard
      ⟨some 1, none, some "b", some ⟨some 200, none, none⟩⟩ 200 = true := by
    simp [knownOwner, oneBoard, Table.put]
  exact hknown

end SmakChess.DbRest
