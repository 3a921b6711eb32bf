/-! `smak_storage.c`: the game id in the ESP's non-volatile storage, and the
copy of it that `smak_gameid_store` keeps. -/

namespace SmakChess

/-- How one access to the storage goes. A value that is set but not committed
may be kept or not. -/
inductive NvsOutcome
  | works
  | openFails
  | accessFails
  | commitFails (kept : Bool)
  deriving DecidableEq, Repr

structure Storage where
  nvs : Option UInt64
  currentId : UInt64
  deriving DecidableEq, Repr

/-- After a reboot the copy is zero. -/
def smakStorageInit (nvs : Option UInt64) : Storage := { nvs := nvs, currentId := 0 }

def smakGameidCurrentGet (o : NvsOutcome) (s : Storage) : UInt64 :=
  match o with
  | .openFails => 0
  | .accessFails => 0
  | _ => s.nvs.getD 0

/-- The result, and the storage after it. The result of the commit is not
looked at. -/
def smakGameidStore (o : NvsOutcome) (s : Storage) (id : UInt64) : Int × Storage :=
  if id = s.currentId then (0, s)
  else
    match o with
    | .openFails => (-1, s)
    | .accessFails => (-2, s)
    | .commitFails kept => (0, { nvs := if kept then some id else s.nvs, currentId := id })
    | .works => (0, { nvs := some id, currentId := id })

end SmakChess
