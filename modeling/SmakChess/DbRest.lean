import SmakChess.Machine
import SmakChess.Tables

/-! The users and boards of the database service. A request is a thread whose
repository calls are atomic and may fall between those of any other. -/

namespace SmakChess.DbRest

open Machine Tables

structure User where
  id : Option Nat
  authentikUserId : Option String
  name : Option String
  deriving DecidableEq, Repr

structure Board where
  id : Option Nat
  productId : Option String
  name : Option String
  user : Option User
  deriving DecidableEq, Repr

structure UserRow where
  authentikUserId : Option String
  name : String
  deriving DecidableEq, Repr

structure BoardRow where
  productId : Option String
  name : Option String
  userId : Nat
  deriving DecidableEq, Repr

/-- The repository call that a request in `BoardService.save` makes next. -/
inductive SavePhase
  | getByAuthentikUserId (authentikUserId : String)
  | saveUser
  | saveBoard (userId : Option Nat)
  | returned
  deriving DecidableEq, Repr

structure SaveRequest where
  board : Board
  user : User
  phase : SavePhase
  deriving DecidableEq, Repr

/-- The service. `saved` has the boards that `BoardService.save` has returned,
each with the authentik id of its user. -/
structure Service where
  users : Table UserRow
  boards : Table BoardRow
  requests : List SaveRequest
  saved : List (Nat × String)

def Service.boot : Service where
  users := .empty
  boards := .empty
  requests := []
  saved := []

inductive Write
  | nothing
  | user (id : Nat) (row : UserRow)
  | board (id : Nat) (row : BoardRow) (authentikUserId : Option String)
  deriving DecidableEq, Repr

def Service.write (s : Service) : Write → Service
  | .nothing => s
  | .user id row => { s with users := s.users.put id row }
  | .board id row authentikUserId =>
    { s with
      boards := s.boards.put id row
      saved := s.saved ++ (authentikUserId.map fun a => (id, a)).toList }

/-- `UserRepository.getByAuthentikUserId`, and the first row of its list. -/
def firstUser (users : Table UserRow) (authentikUserId : String) (choice : Nat) :
    Option (Nat × UserRow) :=
  users.firstOf (fun u => u.authentikUserId == some authentikUserId) choice

/-- `save` of the user repository: the name is not nullable, and a row that is
named by its id has to exist. -/
def userRepositorySave (users : Table UserRow) (u : User) : Option (Nat × UserRow) := do
  let name ← u.name
  let id ← users.idOf u.id
  return (id, { authentikUserId := u.authentikUserId, name := name })

/-- `save` of the board repository, with a user that exists. -/
def boardRepositorySave (users : Table UserRow) (boards : Table BoardRow) (b : Board)
    (userId : Option Nat) : Option (Nat × BoardRow) := do
  let userId ← userId
  if (users.row userId).isSome then
    let id ← boards.idOf b.id
    return (id, { productId := b.productId, name := b.name, userId := userId })
  else none

def addUser (s : Service) (newUser : User) : Write :=
  match userRepositorySave s.users { newUser with id := none } with
  | none => .nothing
  | some (id, row) => .user id row

/-- `BoardController.addBoard`, up to the first repository call. A board
without a user ends in an exception. -/
def addBoard (newBoard : Board) : Option SaveRequest :=
  newBoard.user.map fun u =>
    { board := newBoard
      user := u
      phase := match u.authentikUserId with
        | some a => .getByAuthentikUserId a
        | none => .saveBoard u.id }

/-- `BoardService.save`, one repository call. -/
def boardServiceSave (s : Service) (r : SaveRequest) (choice : Nat) : Write × SavePhase :=
  match r.phase with
  | .getByAuthentikUserId a =>
    match firstUser s.users a choice with
    | none => (.nothing, .saveUser)
    | some (id, _) => (.nothing, .saveBoard (some id))
  | .saveUser =>
    match userRepositorySave s.users r.user with
    | none => (.nothing, .returned)
    | some (id, row) => (.user id row, .saveBoard (some id))
  | .saveBoard userId =>
    match boardRepositorySave s.users s.boards r.board userId with
    | none => (.nothing, .returned)
    | some (id, row) => (.board id row r.user.authentikUserId, .returned)
  | .returned => (.nothing, .returned)

/-- The requests and the repository calls of running ones, in any order;
`choice` is the row that comes first in the list of a query. -/
inductive RestEvent
  | postUsers (newUser : User)
  | postBoards (newBoard : Board)
  | proceed (i : Nat) (choice : Nat)
  deriving DecidableEq, Repr

def writeOf (s : Service) : RestEvent → Write
  | .postUsers newUser => addUser s newUser
  | .postBoards _ => .nothing
  | .proceed i choice =>
    match s.requests[i]? with
    | none => .nothing
    | some r => (boardServiceSave s r choice).1

def requestsAfter (s : Service) : RestEvent → List SaveRequest
  | .postUsers _ => s.requests
  | .postBoards newBoard => s.requests ++ (addBoard newBoard).toList
  | .proceed i choice =>
    match s.requests[i]? with
    | none => s.requests
    | some r => s.requests.set i { r with phase := (boardServiceSave s r choice).2 }

def serve (s : Service) (e : RestEvent) : Except Empty Service :=
  .ok { s.write (writeOf s e) with requests := requestsAfter s e }

/-- `BoardController.getBoardsByAuthID`. Without a user it ends in an exception. -/
def getBoardsByAuthID (s : Service) (authentikUserId : String) (choice : Nat) :
    Option (List (Nat × BoardRow)) :=
  (firstUser s.users authentikUserId choice).map fun u =>
    s.boards.select fun b => b.userId == u.1

/-- Every board that was saved with a user of authentik id `a` is in the answer
to a request for the boards of `a`, whichever row of the user comes first. -/
def NoneLost (s : Service) : Prop :=
  ∀ b a, (b, a) ∈ s.saved → ∀ choice, ∃ bs, getBoardsByAuthID s a choice = some bs ∧
    b ∈ bs.map Prod.fst

def HasAuth (users : Table UserRow) (i : Nat) (a : String) : Prop :=
  ∃ u, users.row i = some u ∧ u.authentikUserId = some a

def Service.owner (s : Service) (b : Nat) : Option Nat := (s.boards.row b).map BoardRow.userId

/-- The request has found no row of the user, and is going to insert one. -/
def SaveRequest.Inserts (r : SaveRequest) (a : String) : Prop :=
  r.phase = .saveUser ∧ r.user.authentikUserId = some a ∧ r.user.name.isSome = true

def Inserting (s : Service) (a : String) : Prop := ∃ r ∈ s.requests, r.Inserts a

instance (r : SaveRequest) (a : String) : Decidable (r.Inserts a) :=
  inferInstanceAs (Decidable (_ ∧ _ ∧ _))

instance (s : Service) (a : String) : Decidable (Inserting s a) :=
  inferInstanceAs (Decidable (∃ r ∈ s.requests, r.Inserts a))

/-- The look-up does not fall between the look-up and the insertion of another
request of the user. The user's row that a body names has no authentik id, and
the board that it names has not been saved for somebody else. -/
def ApartCall (s : Service) (r : SaveRequest) : SavePhase → Prop
  | .getByAuthentikUserId a => r.user.name.isSome = true → ¬ Inserting s a
  | .saveUser => ∀ i, r.user.id = some i → ∀ a, ¬ HasAuth s.users i a
  | .saveBoard _ => ∀ b a, r.board.id = some b → (b, a) ∈ s.saved →
    r.user.authentikUserId = some a ∨ r.user.authentikUserId = none ∧ r.user.id = s.owner b
  | .returned => True

/-- A user is posted only if there is no row of it and no request is going to
insert one. -/
def Apart (s : Service) : RestEvent → Prop
  | .postUsers newUser => newUser.name.isSome = true → ∀ a, newUser.authentikUserId = some a →
    (∀ i, ¬ HasAuth s.users i a) ∧ ¬ Inserting s a
  | .postBoards _ => True
  | .proceed i _ => ∀ r, s.requests[i]? = some r → ApartCall s r r.phase

/-- What a request knows of the rows of its user. -/
def Knows (users : Table UserRow) (u : User) : SavePhase → Prop
  | .getByAuthentikUserId a => u.authentikUserId = some a
  | .saveUser => ∃ a, u.authentikUserId = some a ∧
    (u.name.isSome = true → ∀ i, ¬ HasAuth users i a)
  | .saveBoard userId => (u.authentikUserId = none → userId = u.id) ∧
    ∀ a, u.authentikUserId = some a → ∃ i, userId = some i ∧ HasAuth users i a
  | .returned => True

structure Kept (s : Service) : Prop where
  unique : ∀ a i j, HasAuth s.users i a → HasAuth s.users j a → i = j
  owned : ∀ b a, (b, a) ∈ s.saved → ∃ i, s.owner b = some i ∧ HasAuth s.users i a
  knows : ∀ r ∈ s.requests, Knows s.users r.user r.phase
  apart : ∀ (i j : Nat) r r' a, s.requests[i]? = some r → s.requests[j]? = some r' →
    r.Inserts a → r'.Inserts a → i = j

section Lookup

variable {s : Service} {users : Table UserRow} {boards : Table BoardRow} {e : RestEvent} {w : Write}
  {a : String} {b i j choice : Nat} {row : UserRow} {brow : BoardRow}

theorem firstUser_spec {u : UserRow} (h : firstUser users a choice = some (i, u)) :
    HasAuth users i a := by
  obtain ⟨hrow, hp⟩ := mem_select.mp (mem_select_of_firstOf h)
  exact ⟨u, hrow, by simpa using hp⟩

theorem firstUser_of_hasAuth (h : HasAuth users i a) :
    ∃ u, firstUser users a i = some (i, u) := by
  obtain ⟨u, hrow, ha⟩ := h
  exact ⟨u, firstOf_choice (mem_select.mpr ⟨hrow, by simpa using ha⟩)⟩

theorem exists_firstUser (h : HasAuth users i a) (choice : Nat) :
    ∃ j u, firstUser users a choice = some (j, u) := by
  obtain ⟨u, hrow, ha⟩ := h
  cases hf : firstUser users a choice with
  | some r => exact ⟨r.1, r.2, rfl⟩
  | none =>
    have hmem : (i, u) ∈ users.select fun u => u.authentikUserId == some a :=
      mem_select.mpr ⟨hrow, by simpa using ha⟩
    rw [firstOf_eq_none.mp hf] at hmem
    cases hmem

theorem mem_boards : b ∈ (s.boards.select fun r => r.userId == i).map Prod.fst ↔
    s.owner b = some i := by
  simp only [List.mem_map, Prod.exists, mem_select, Service.owner, Option.map_eq_some_iff]
  constructor
  · rintro ⟨b', r, ⟨hrow, hu⟩, rfl⟩
    exact ⟨r, hrow, by simpa using hu⟩
  · rintro ⟨r, hrow, hu⟩
    exact ⟨b, r, ⟨hrow, by simpa using hu⟩, rfl⟩

/-- The row of the owner is the only one with the authentik id. -/
theorem noneLost_iff : NoneLost s ↔ ∀ b a, (b, a) ∈ s.saved →
    ∃ i, s.owner b = some i ∧ ∀ j, HasAuth s.users j a ↔ j = i := by
  constructor
  · intro h b a hba
    obtain ⟨bs, hbs, -⟩ := h b a hba 0
    obtain ⟨r, hr, -⟩ := Option.map_eq_some_iff.mp hbs
    obtain ⟨i, u⟩ := r
    have hi := firstUser_spec hr
    have howner (j : Nat) (hj : HasAuth s.users j a) : s.owner b = some j := by
      obtain ⟨v, hv⟩ := firstUser_of_hasAuth hj
      obtain ⟨bs, hbs, hmem⟩ := h b a hba j
      rw [getBoardsByAuthID, hv, Option.map_some, Option.some.injEq] at hbs
      rw [← hbs] at hmem
      exact mem_boards.mp hmem
    refine ⟨i, howner i hi, fun j => ⟨fun hj => ?_, fun hj => hj ▸ hi⟩⟩
    exact Option.some.inj ((howner j hj).symm.trans (howner i hi))
  · intro h b a hba choice
    obtain ⟨i, howner, hunique⟩ := h b a hba
    obtain ⟨j, u, hj⟩ := exists_firstUser ((hunique i).mpr rfl) choice
    obtain rfl : j = i := (hunique j).mp (firstUser_spec hj)
    exact ⟨_, by rw [getBoardsByAuthID, hj, Option.map_some], mem_boards.mpr howner⟩

theorem hasAuth_put : HasAuth (users.put i row) j a ↔
    if j = i then row.authentikUserId = some a else HasAuth users j a := by
  unfold HasAuth
  rw [put_row]
  split_ifs
  · simp
  · rfl

theorem owner_write_board (auth : Option String) :
    (s.write (.board i brow auth)).owner b = if b = i then some brow.userId else s.owner b := by
  simp only [Service.owner, Service.write, put_row]
  split_ifs <;> rfl

theorem mem_saved_write_board {auth : Option String} :
    (b, a) ∈ (s.write (.board i brow auth)).saved ↔ (b, a) ∈ s.saved ∨ b = i ∧ auth = some a := by
  cases auth with
  | none => simp [Service.write]
  | some a' =>
    simp only [Service.write, Option.map_some, Option.toList_some, List.mem_append,
      List.mem_singleton, Prod.mk.injEq, Option.some.injEq]
    exact or_congr Iff.rfl (and_congr Iff.rfl eq_comm)

theorem not_hasAuth_empty (i : Nat) (a : String) : ¬ HasAuth .empty i a := by
  rintro ⟨u, hu, -⟩
  cases hu

theorem not_hasAuth_next (users : Table UserRow) (a : String) : ¬ HasAuth users users.next a := by
  rintro ⟨u, hrow, -⟩
  exact absurd (lt_next_of_row hrow) (Nat.lt_irrefl _)

theorem not_hasAuth_of_firstUser (h : firstUser users a choice = none) (i : Nat) :
    ¬ HasAuth users i a := by
  intro hi
  obtain ⟨j, u, hj⟩ := exists_firstUser hi choice
  rw [h] at hj
  cases hj

end Lookup

/-! One repository call at a time. -/

section Calls

variable {s : Service} {users : Table UserRow} {e : RestEvent} {r r' r₁ : SaveRequest} {a : String}
  {b i j k choice : Nat} {row : UserRow} {brow : BoardRow} {phase : SavePhase}

/-- A row that had no authentik id gets one that no row had. -/
structure Inserts (users : Table UserRow) (i : Nat) (row : UserRow) : Prop where
  unnamed : ∀ a, ¬ HasAuth users i a
  new : ∀ a, row.authentikUserId = some a → ∀ j, ¬ HasAuth users j a

theorem Inserts.hasAuth (h : Inserts users i row) (hj : HasAuth users j a) :
    HasAuth (users.put i row) j a := by
  rw [hasAuth_put, if_neg]
  · exact hj
  · rintro rfl
    exact h.unnamed a hj

theorem Inserts.unique (h : Inserts users i row)
    (hu : ∀ a i j, HasAuth users i a → HasAuth users j a → i = j) (a : String) (j k : Nat)
    (hj : HasAuth (users.put i row) j a) (hk : HasAuth (users.put i row) k a) : j = k := by
  rw [hasAuth_put] at hj hk
  split_ifs at hj hk with hji hki
  · rw [hji, hki]
  · exact absurd hk (h.new a hj k)
  · exact absurd hj (h.new a hk j)
  · exact hu a j k hj hk

theorem Inserts.knows {u : User} (h : Inserts users i row) (hr : Knows users u phase)
    (hnot : ∀ a, row.authentikUserId = some a → phase = .saveUser → u.authentikUserId = some a →
      u.name.isSome ≠ true) : Knows (users.put i row) u phase := by
  cases phase with
  | getByAuthentikUserId a => exact hr
  | saveUser =>
    obtain ⟨a, ha, hnone⟩ := hr
    refine ⟨a, ha, fun hname j hj => ?_⟩
    rw [hasAuth_put] at hj
    split_ifs at hj
    · exact hnot a hj rfl ha hname
    · exact hnone hname j hj
  | saveBoard userId =>
    refine ⟨hr.1, fun a ha => ?_⟩
    obtain ⟨j, rfl, hj⟩ := hr.2 a ha
    exact ⟨j, rfl, h.hasAuth hj⟩
  | returned => trivial

theorem getElem?_set_cases {rs : List SaveRequest} (h : (rs.set i r₁)[j]? = some r) :
    j = i ∧ r = r₁ ∨ j ≠ i ∧ rs[j]? = some r := by
  rw [List.getElem?_set] at h
  split_ifs at h with hij hlt
  · exact .inl ⟨hij.symm, (Option.some.inj h).symm⟩
  · exact .inr ⟨Ne.symm hij, h⟩

/-- The tables stay, and one request goes on. -/
theorem Kept.goOn (h : Kept s) (i : Nat) (hknows : Knows s.users r₁.user r₁.phase)
    (hins : ∀ a, r₁.Inserts a → ¬ Inserting s a) :
    Kept { s with requests := s.requests.set i r₁ } where
  unique := h.unique
  owned := h.owned
  knows r' hr' := by
    rcases List.mem_or_eq_of_mem_set hr' with hr' | rfl
    · exact h.knows r' hr'
    · exact hknows
  apart j k q q' a hj hk hq hq' := by
    rcases getElem?_set_cases hj with ⟨rfl, rfl⟩ | ⟨-, hj'⟩
    · rcases getElem?_set_cases hk with ⟨rfl, -⟩ | ⟨-, hk'⟩
      · rfl
      · exact absurd ⟨q', List.mem_of_getElem? hk', hq'⟩ (hins a hq)
    · rcases getElem?_set_cases hk with ⟨rfl, rfl⟩ | ⟨-, hk'⟩
      · exact absurd ⟨q, List.mem_of_getElem? hj', hq⟩ (hins a hq')
      · exact h.apart j k q q' a hj' hk' hq hq'

theorem Kept.goOn_of_phase (h : Kept s) (i : Nat) (r : SaveRequest) (phase : SavePhase)
    (hknows : Knows s.users r.user phase) (hp : phase ≠ .saveUser) :
    Kept { s with requests := s.requests.set i { r with phase := phase } } :=
  h.goOn i hknows fun _ hins => absurd hins.1 hp

theorem Kept.write_user (h : Kept s) (hi : Inserts s.users i row)
    (hnot : ∀ a, row.authentikUserId = some a → ¬ Inserting s a) :
    Kept (s.write (.user i row)) where
  unique := hi.unique h.unique
  owned b a hba := by
    obtain ⟨j, hj, hauth⟩ := h.owned b a hba
    exact ⟨j, hj, hi.hasAuth hauth⟩
  knows r hr := hi.knows (h.knows r hr) fun a ha hp hauth hname =>
    hnot a ha ⟨r, hr, hp, hauth, hname⟩
  apart := h.apart

theorem Kept.write_board {auth : Option String} (h : Kept s)
    (hold : ∀ a, (i, a) ∈ s.saved → HasAuth s.users brow.userId a)
    (hnew : ∀ a, auth = some a → HasAuth s.users brow.userId a) :
    Kept (s.write (.board i brow auth)) where
  unique := h.unique
  owned b a hba := by
    rw [owner_write_board]
    rcases mem_saved_write_board.mp hba with hba | ⟨rfl, ha⟩
    · split_ifs with hb
      · exact ⟨_, rfl, hold a (hb ▸ hba)⟩
      · exact h.owned b a hba
    · exact ⟨_, if_pos rfl, hnew a ha⟩
  knows := h.knows
  apart := h.apart

theorem kept_postUsers {u : User} (h : Kept s) (hc : Apart s (.postUsers u)) :
    Kept { s.write (addUser s u) with requests := s.requests } := by
  unfold addUser userRepositorySave
  cases hname : u.name with
  | none => exact h
  | some name =>
    have hfree := hc (by simp [hname])
    exact h.write_user ⟨not_hasAuth_next s.users, fun a ha => (hfree a ha).1⟩
      fun a ha => (hfree a ha).2

theorem knows_addBoard (users : Table UserRow) {newBoard : Board} (h : addBoard newBoard = some r) :
    Knows users r.user r.phase ∧ r.phase ≠ .saveUser := by
  obtain ⟨u, -, rfl⟩ := Option.map_eq_some_iff.mp h
  cases ha : u.authentikUserId <;> simp [Knows, ha]

theorem kept_postBoards (h : Kept s) (newBoard : Board) :
    Kept { s with requests := s.requests ++ (addBoard newBoard).toList } := by
  cases hr : addBoard newBoard with
  | none => simpa using h
  | some r =>
    have hlast (j : Nat) (q : SaveRequest) (hj : (s.requests ++ [r])[j]? = some q)
        (hp : q.phase = .saveUser) : s.requests[j]? = some q := by
      rw [List.getElem?_append] at hj
      split_ifs at hj with hlt
      · exact hj
      · obtain rfl : r = q := by
          rw [List.getElem?_singleton] at hj
          split_ifs at hj
          exact Option.some.inj hj
        exact absurd hp (knows_addBoard s.users hr).2
    refine ⟨h.unique, h.owned, fun q hq => ?_, fun j k q q' a hj hk hq hq' => ?_⟩
    · rcases List.mem_append.mp hq with hq | hq
      · exact h.knows q hq
      · obtain rfl := List.mem_singleton.mp hq
        exact (knows_addBoard s.users hr).1
    · exact h.apart j k q q' a (hlast j q hj hq.1) (hlast k q' hk hq'.1) hq hq'

theorem kept_getByAuthentikUserId (h : Kept s) (hauth : r.user.authentikUserId = some a)
    (hc : r.user.name.isSome = true → ¬ Inserting s a) (i choice : Nat) :
    Kept { s with requests := s.requests.set i { r with
      phase := match firstUser s.users a choice with
        | none => .saveUser
        | some (id, _) => .saveBoard (some id) } } := by
  cases hf : firstUser s.users a choice with
  | none =>
    refine h.goOn i ⟨a, hauth, fun _ => not_hasAuth_of_firstUser hf⟩ fun a' hins => ?_
    obtain rfl : a' = a := Option.some.inj (hins.2.1.symm.trans hauth)
    exact hc hins.2.2
  | some u =>
    refine h.goOn_of_phase i r (.saveBoard (some u.1)) ⟨fun hnone => ?_, fun a' ha' => ?_⟩ (by simp)
    · rw [hauth] at hnone
      cases hnone
    · obtain rfl : a' = a := Option.some.inj (ha'.symm.trans hauth)
      exact ⟨u.1, rfl, firstUser_spec hf⟩

theorem userRepositorySave_eq_some {u : User} (h : userRepositorySave users u = some (i, row)) :
    u.name.isSome = true ∧ row.authentikUserId = u.authentikUserId ∧ users.idOf u.id = some i := by
  unfold userRepositorySave at h
  cases hname : u.name with
  | none => simp [hname] at h
  | some name =>
    cases hid : users.idOf u.id with
    | none => simp [hname, hid] at h
    | some j =>
      simp only [hname, hid, Option.bind_eq_bind, Option.bind_some, Option.pure_def,
        Option.some.injEq, Prod.mk.injEq] at h
      obtain ⟨rfl, rfl⟩ := h
      exact ⟨rfl, rfl, rfl⟩

theorem kept_saveUser (h : Kept s) (hi : s.requests[i]? = some r) (hp : r.phase = .saveUser)
    (hc : ∀ j, r.user.id = some j → ∀ a, ¬ HasAuth s.users j a)
    (hsave : userRepositorySave s.users r.user = some (k, row)) :
    Kept { s.write (.user k row) with
      requests := s.requests.set i { r with phase := .saveBoard (some k) } } := by
  obtain ⟨hname, hauth, hid⟩ := userRepositorySave_eq_some hsave
  obtain ⟨a, ha, hnone⟩ : ∃ a, r.user.authentikUserId = some a ∧
      (r.user.name.isSome = true → ∀ j, ¬ HasAuth s.users j a) := by
    have hknows := h.knows r (List.mem_of_getElem? hi)
    rwa [hp] at hknows
  have hrow : row.authentikUserId = some a := hauth.trans ha
  have hinserts : Inserts s.users k row := by
    constructor
    · cases hu : r.user.id with
      | none =>
        rw [hu, Table.idOf, Option.some.injEq] at hid
        exact hid ▸ not_hasAuth_next s.users
      | some j =>
        rw [hu, Table.idOf] at hid
        split_ifs at hid
        exact Option.some.inj hid ▸ hc j hu
    · intro a' ha'
      obtain rfl : a' = a := Option.some.inj (ha'.symm.trans hrow)
      exact hnone hname
  -- the request is taken to have returned while the row is written
  have hgone := h.goOn_of_phase i r .returned trivial (by simp)
  have hwritten := hgone.write_user hinserts fun a' ha' ⟨q, hq, hins⟩ => by
    obtain rfl : a' = a := Option.some.inj (ha'.symm.trans hrow)
    obtain ⟨j, hj⟩ := List.getElem?_of_mem hq
    rcases getElem?_set_cases hj with ⟨-, rfl⟩ | ⟨hne, hj⟩
    · cases hins.1
    · exact hne (h.apart j i q r a' hj hi hins ⟨hp, ha, hname⟩)
  have hput : HasAuth (s.users.put k row) k a := by rw [hasAuth_put, if_pos rfl, hrow]
  have hlast := hwritten.goOn_of_phase i r (.saveBoard (some k))
    ⟨fun hnone => by simp [ha] at hnone, fun a' ha' => ?_⟩ (by simp)
  · simpa only [Service.write, List.set_set] using hlast
  · obtain rfl : a' = a := Option.some.inj (ha'.symm.trans ha)
    exact ⟨k, rfl, hput⟩

theorem boardRepositorySave_eq_some {boards : Table BoardRow} {newBoard : Board}
    {userId : Option Nat} (h : boardRepositorySave users boards newBoard userId = some (k, brow)) :
    userId = some brow.userId ∧ boards.idOf newBoard.id = some k := by
  unfold boardRepositorySave at h
  cases userId with
  | none => simp at h
  | some j =>
    simp only [Option.bind_eq_bind, Option.bind_some] at h
    split_ifs at h
    cases hid : boards.idOf newBoard.id with
    | none => simp [hid] at h
    | some j' =>
      simp only [hid, Option.bind_some, Option.pure_def, Option.some.injEq, Prod.mk.injEq] at h
      obtain ⟨rfl, rfl⟩ := h
      exact ⟨rfl, rfl⟩

theorem kept_saveBoard {userId : Option Nat} (h : Kept s) (hi : s.requests[i]? = some r)
    (hp : r.phase = .saveBoard userId)
    (hc : ∀ b a, r.board.id = some b → (b, a) ∈ s.saved →
      r.user.authentikUserId = some a ∨ r.user.authentikUserId = none ∧ r.user.id = s.owner b)
    (hsave : boardRepositorySave s.users s.boards r.board userId = some (k, brow)) :
    Kept { s.write (.board k brow r.user.authentikUserId) with
      requests := s.requests.set i { r with phase := .returned } } := by
  obtain ⟨huser, hid⟩ := boardRepositorySave_eq_some hsave
  have hknows : Knows s.users r.user (.saveBoard userId) := hp ▸ h.knows r (List.mem_of_getElem? hi)
  have hown (a : String) (ha : r.user.authentikUserId = some a) :
      HasAuth s.users brow.userId a := by
    obtain ⟨j, hj, hauth⟩ := hknows.2 a ha
    exact Option.some.inj (huser.symm.trans hj) ▸ hauth
  have hold (a : String) (hka : (k, a) ∈ s.saved) : HasAuth s.users brow.userId a := by
    obtain ⟨j, howner, hauth⟩ := h.owned k a hka
    cases hb : r.board.id with
    | none =>
      rw [hb, Table.idOf, Option.some.injEq] at hid
      rw [← hid, Service.owner, s.boards.fresh _ (Nat.le_refl _)] at howner
      cases howner
    | some b =>
      rw [hb, Table.idOf] at hid
      split_ifs at hid
      obtain rfl := Option.some.inj hid
      rcases hc b a hb hka with ha | ⟨hnone, hsame⟩
      · exact hown a ha
      · have hj : some brow.userId = some j := by
          rw [← huser, hknows.1 hnone, hsame, howner]
        exact Option.some.inj hj ▸ hauth
  exact (h.write_board hold hown).goOn_of_phase i r .returned trivial (by simp)

/-- The call that a request makes next. -/
theorem kept_proceed (h : Kept s) (hi : s.requests[i]? = some r) (hc : ApartCall s r r.phase) :
    Kept { s.write (boardServiceSave s r choice).1 with
      requests := s.requests.set i { r with phase := (boardServiceSave s r choice).2 } } := by
  have hknows := h.knows r (List.mem_of_getElem? hi)
  cases hp : r.phase with
  | getByAuthentikUserId a =>
    rw [hp] at hc hknows
    have hkept := kept_getByAuthentikUserId h hknows hc i choice
    unfold boardServiceSave
    cases hf : firstUser s.users a choice <;> simpa only [hp, hf, Service.write] using hkept
  | saveUser =>
    rw [hp] at hc
    unfold boardServiceSave
    cases hsave : userRepositorySave s.users r.user with
    | none => simpa only [hp, hsave, Service.write] using h.goOn_of_phase i r .returned trivial (by simp)
    | some u => simpa only [hp, hsave] using kept_saveUser h hi hp hc hsave
  | saveBoard userId =>
    rw [hp] at hc
    unfold boardServiceSave
    cases hsave : boardRepositorySave s.users s.boards r.board userId with
    | none => simpa only [hp, hsave, Service.write] using h.goOn_of_phase i r .returned trivial (by simp)
    | some b => simpa only [hp, hsave] using kept_saveBoard h hi hp hc hsave
  | returned =>
    unfold boardServiceSave
    simpa only [hp, Service.write] using h.goOn_of_phase i r .returned trivial (by simp)

theorem kept_boot : Kept .boot where
  unique a i j hi := absurd hi (not_hasAuth_empty i a)
  owned b a hba := by cases hba
  knows r hr := by cases hr
  apart i j r r' a hi := by cases hi

theorem kept_serve {s' : Service} (h : Kept s) (hs : serve s e = .ok s') (hc : Apart s e) :
    Kept s' := by
  cases hs
  cases e with
  | postUsers newUser => exact kept_postUsers h hc
  | postBoards newBoard => exact kept_postBoards h newBoard
  | proceed i choice =>
    cases hi : s.requests[i]? with
    | none => simpa only [writeOf, requestsAfter, hi, Service.write] using h
    | some r => simpa only [writeOf, requestsAfter, hi] using kept_proceed h hi (hc r hi)

theorem Kept.noneLost (h : Kept s) : NoneLost s := by
  rw [noneLost_iff]
  intro b a hba
  obtain ⟨i, howner, hi⟩ := h.owned b a hba
  exact ⟨i, howner, fun j => ⟨fun hj => h.unique a j i hj hi, fun hj => hj ▸ hi⟩⟩

end Calls

/-- No saved board is lost in a run whose requests keep apart. -/
theorem noneLost_of_apart (es : List RestEvent) (h : Throughout serve Apart .boot es) :
    Always serve (fun _ s => NoneLost s) .boot es :=
  fun p s hp hs => Kept.noneLost (Always.of_throughout (I := fun _ s => Kept s) kept_boot
    (fun _ _ _ _ _ _ hi hstep hc => kept_serve hi hstep hc) h p s hp hs)

def firstBoard : Board where
  id := none
  productId := some "smak"
  name := some "board"
  user := some { id := none, authentikUserId := some "a", name := some "user" }

def secondUser : User := { id := none, authentikUserId := some "b", name := some "user" }

/-- The second request looks for the user after the first has saved it. -/
def boardsApart : List RestEvent :=
  [.postBoards firstBoard, .postBoards firstBoard, .proceed 0 0, .postUsers secondUser,
    .proceed 0 0, .proceed 1 0, .proceed 1 0, .proceed 0 0]

theorem boardsApart_noneLost :
    (∃ s, run serve .boot boardsApart = .ok s ∧ s.saved = [(0, "a"), (1, "a")]) ∧
      Always serve (fun _ s => NoneLost s) .boot boardsApart := by
  refine ⟨⟨_, rfl, rfl⟩, noneLost_of_apart boardsApart ?_⟩
  refine .cons rfl trivial (.cons rfl trivial (.cons rfl ?_ (.cons rfl ?_ (.cons rfl ?_
    (.cons rfl ?_ (.cons rfl ?_ (.cons rfl ?_ .nil)))))))
  · rintro r ⟨⟩ -
    decide
  · rintro - a ⟨⟩
    exact ⟨fun i => not_hasAuth_empty i _, by decide⟩
  · rintro r ⟨⟩ i ⟨⟩
  · rintro r ⟨⟩ -
    decide
  · rintro r ⟨⟩ b a ⟨⟩
  · rintro r ⟨⟩ b a ⟨⟩

/-- Two such requests, of which each looks for the user before either saves it. -/
def twoFirstBoards : List RestEvent :=
  [.postBoards firstBoard, .postBoards firstBoard, .proceed 0 0, .proceed 1 0, .proceed 0 0,
    .proceed 1 0, .proceed 0 0]

theorem second_user_loses_board :
    ¬ Always serve (fun _ s => NoneLost s) .boot twoFirstBoards := by
  intro h
  have hlost := h twoFirstBoards _ (List.prefix_refl _) rfl 0 "a" (by decide) 1
  obtain ⟨bs, hbs, hmem⟩ := hlost
  have hempty : some [] = some bs := hbs
  cases hempty
  cases hmem

end SmakChess.DbRest
