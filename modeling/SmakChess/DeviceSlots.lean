import SmakChess.Machine
import SmakChess.Objects
import Mathlib.Data.Fintype.Basic
import Mathlib.Logic.Function.Basic

/-! The USB devices of the ESP: a slot for each device that is open, and the messages of
the callbacks to the loop of `app_main`, which opens and closes them. -/

namespace SmakChess.Usb

open Machine Objects

def maxCdcDevices : Nat := 5

/-- The length of `app_queue`. -/
def appQueueLength : Nat := 16

inductive AppMessage
  | quit
  | deviceConnected (vid pid : UInt16)
  | deviceDisconnected (deviceSlot : Int)
  deriving DecidableEq, Repr

/-- A device that the driver has open. -/
structure CdcDev where
  userArg : Int
  attached : Bool
  deriving DecidableEq, Repr

structure Host where
  cdcDevices : Fin maxCdcDevices → Option Nat
  appQueue : List AppMessage
  running : Bool
  opened : Object Nat CdcDev
  room : appQueue.length ≤ appQueueLength

/-- A handle is closed that is not open, or the driver is not uninstalled. -/
inductive Fault
  | close
  | uninstall
  deriving DecidableEq, Repr

inductive CdcEventType
  | error
  | deviceDisconnected
  | serialState
  | other
  deriving DecidableEq, Repr

/-- `received` is one round of the loop, where `driver` answers an open. -/
inductive UsbEvent
  | newDevCb (descriptor : Option (UInt16 × UInt16))
  | handleEvent (type : CdcEventType) (handle : Nat)
  | gpioCb
  | received (driver : UInt16 → UInt16 → Option Nat)

namespace Host

/-- A message that finds the queue full is lost. -/
def send (s : Host) (m : AppMessage) : Host :=
  if h : s.appQueue.length < appQueueLength then
    { s with
      appQueue := s.appQueue ++ [m]
      room := by
        rw [List.length_append, List.length_singleton]
        exact h }
  else s

def sendToFront (s : Host) (m : AppMessage) : Host :=
  if h : s.appQueue.length < appQueueLength then { s with appQueue := m :: s.appQueue, room := h }
  else s

def getFreeSlot (s : Host) : Option (Fin maxCdcDevices) :=
  (List.finRange maxCdcDevices).find? fun i => s.cdcDevices i = none

def newDevCb (s : Host) : Option (UInt16 × UInt16) → Host
  | some (vid, pid) => s.send (.deviceConnected vid pid)
  | none => s

def handleEvent (s : Host) (type : CdcEventType) (handle : Nat) : Host :=
  match type, s.opened.get handle with
  | .deviceDisconnected, some d =>
    { s with opened := s.opened.set handle { d with attached := false } }.send
      (.deviceDisconnected d.userArg)
  | _, _ => s

def gpioCb (s : Host) : Host := s.sendToFront .quit

def cdcAcmHostClose (s : Host) (handle : Nat) : Except Fault Host :=
  if handle ∈ s.opened.keys then .ok { s with opened := s.opened.delete handle } else .error .close

def cdcAcmHostUninstall (s : Host) : Except Fault Host :=
  if s.opened.keys = [] then .ok s else .error .uninstall

def freeCdcDevice (s : Host) (slot : Int) : Except Fault Host :=
  if h : 0 ≤ slot ∧ slot < maxCdcDevices then
    let i : Fin maxCdcDevices := ⟨slot.toNat, by omega⟩
    match s.cdcDevices i with
    | none => .ok s
    | some handle => do
      let t ← s.cdcAcmHostClose handle
      .ok { t with cdcDevices := Function.update t.cdcDevices i none }
  else .ok s

def freeAllCdcDevices (s : Host) : Except Fault Host :=
  (List.range maxCdcDevices).foldlM (fun s (i : Nat) => s.freeCdcDevice i) s

/-- `cdc_open` for a device that has been connected. -/
def cdcOpen (s : Host) (i : Fin maxCdcDevices) (answer : Option Nat) : Host :=
  match answer with
  | none => s
  | some handle =>
    { s with
      opened := s.opened.set handle ⟨i, true⟩
      cdcDevices := Function.update s.cdcDevices i (some handle) }

def handleMessage (s : Host) (driver : UInt16 → UInt16 → Option Nat) : AppMessage → Except Fault Host
  | .deviceConnected vid pid =>
    match s.getFreeSlot with
    | none => .ok s
    | some i => .ok (s.cdcOpen i (driver vid pid))
  | .deviceDisconnected slot => s.freeCdcDevice slot
  | .quit => do
    let t ← s.freeAllCdcDevices
    let t ← t.cdcAcmHostUninstall
    .ok { t with running := false }

/-- One round of the loop, which waits at an empty queue. -/
def received (s : Host) (driver : UInt16 → UInt16 → Option Nat) : Except Fault Host :=
  match hq : s.appQueue with
  | [] => .ok s
  | m :: rest =>
    if s.running then
      { s with
        appQueue := rest
        room := by
          have hroom := s.room
          rw [hq, List.length_cons] at hroom
          omega }.handleMessage driver m
    else .ok s

def step (s : Host) : UsbEvent → Except Fault Host
  | .newDevCb descriptor => .ok (s.newDevCb descriptor)
  | .handleEvent type handle => .ok (s.handleEvent type handle)
  | .gpioCb => .ok s.gpioCb
  | .received driver => s.received driver

def boot : Host where
  cdcDevices _ := none
  appQueue := []
  running := true
  opened := .empty
  room := Nat.zero_le _

end Host

/-- The driver gives out no handle that is open, and tells of a device at most once that
it has gone. -/
def UsbEvent.Possible (s : Host) : UsbEvent → Prop
  | .handleEvent .deviceDisconnected handle => ∃ d, s.opened.get handle = some d ∧ d.attached = true
  | .received driver => ∀ vid pid handle, driver vid pid = some handle → s.opened.get handle = none
  | _ => True

def DriverRun : Host → List UsbEvent → Prop
  | _, [] => True
  | s, e :: es => e.Possible s ∧ ∀ t, s.step e = .ok t → DriverRun t es

/-! Slots and devices. -/

def AppMessage.slot : AppMessage → Option Int
  | .deviceDisconnected slot => some slot
  | _ => none

/-- The slots of the disconnects in the queue. -/
def Host.waiting (s : Host) : List Int := s.appQueue.filterMap AppMessage.slot

/-- The slot of a disconnect that finds the queue full. -/
def lost (s : Host) (e : UsbEvent) (_ : Host) : List Int :=
  match e with
  | .handleEvent .deviceDisconnected handle =>
    if s.appQueue.length < appQueueLength then []
    else ((s.opened.get handle).map CdcDev.userArg).toList
  | _ => []

/-- The device in a slot. -/
def Host.At (s : Host) (i : Fin maxCdcDevices) (attached : Bool) : Prop :=
  ∃ handle d, s.cdcDevices i = some handle ∧ s.opened.get handle = some d ∧ d.attached = attached

/-- Every device that is open is in the slot it was opened for. -/
structure Paired (s : Host) : Prop where
  slot : ∀ i handle, s.cdcDevices i = some handle →
    ∃ d, s.opened.get handle = some d ∧ d.userArg = (i : Nat)
  device : ∀ handle d, s.opened.get handle = some d →
    ∃ i : Fin maxCdcDevices, d.userArg = (i : Nat) ∧ s.cdcDevices i = some handle

/-- A device that has gone has its disconnect in the queue, or has lost it. -/
structure Live (s : Host) (waiting lost : List Int) : Prop extends Paired s where
  gone : ∀ i : Fin maxCdcDevices, ((i : Nat) : Int) ∈ waiting ++ lost ↔ s.At i false
  inRange : ∀ x ∈ waiting ++ lost, ∃ i : Fin maxCdcDevices, x = (i : Nat)
  once : (waiting ++ lost).Nodup

/-- The slot is empty, and its device closed. -/
def Host.freed (s : Host) (i : Fin maxCdcDevices) (handle : Nat) : Host := { s with
  opened := s.opened.delete handle
  cdcDevices := Function.update s.cdcDevices i none }

section Slots

variable {s t : Host} {i : Fin maxCdcDevices} {h : Nat} {d : CdcDev} {w l : List Int} {m : AppMessage}

theorem freeCdcDevice_none (hi : s.cdcDevices i = none) : s.freeCdcDevice (i : Nat) = .ok s := by
  have hlt : (0 : Int) ≤ (i : Nat) ∧ ((i : Nat) : Int) < maxCdcDevices := ⟨by omega, by omega⟩
  rw [Host.freeCdcDevice, dif_pos hlt]
  simp [hi]

theorem freeCdcDevice_some (hi : s.cdcDevices i = some h) (hd : s.opened.get h = some d) :
    s.freeCdcDevice (i : Nat) = .ok (s.freed i h) := by
  have hlt : (0 : Int) ≤ (i : Nat) ∧ ((i : Nat) : Int) < maxCdcDevices := ⟨by omega, by omega⟩
  have hkey : h ∈ s.opened.keys := mem_keys.mpr ⟨d, hd⟩
  rw [Host.freeCdcDevice, dif_pos hlt]
  simp only [Int.toNat_natCast, hi, Host.cdcAcmHostClose, if_pos hkey]
  rfl

theorem Paired.freed (hs : Paired s) (hi : s.cdcDevices i = some h) : Paired (s.freed i h) := by
  constructor
  · intro j h' hj
    simp only [Host.freed] at hj ⊢
    have hne : j ≠ i := by
      rintro rfl
      simp at hj
    rw [Function.update_of_ne hne] at hj
    obtain ⟨d, hd, harg⟩ := hs.slot j h' hj
    refine ⟨d, ?_, harg⟩
    rw [get_delete, if_neg]
    · exact hd
    · -- one handle in two slots would have two arguments
      rintro rfl
      obtain ⟨d', hd', harg'⟩ := hs.slot i h' hi
      obtain rfl := Option.some.inj (hd.symm.trans hd')
      exact hne (Fin.ext (by omega))
  · intro h' d hd
    simp only [Host.freed] at hd ⊢
    rw [get_delete] at hd
    split at hd
    · cases hd
    next hne =>
      obtain ⟨j, harg, hj⟩ := hs.device h' d hd
      refine ⟨j, harg, ?_⟩
      rw [Function.update_of_ne, hj]
      rintro rfl
      exact hne (Option.some.inj (hj.symm.trans hi))

/-- What is freed leaves the other slots as they are. -/
theorem exists_freeCdcDevice (hs : Paired s) (i : Fin maxCdcDevices) :
    ∃ t, s.freeCdcDevice (i : Nat) = .ok t ∧ Paired t ∧ t.running = s.running ∧
      t.cdcDevices = Function.update s.cdcDevices i none := by
  cases hi : s.cdcDevices i with
  | none =>
    exact ⟨s, freeCdcDevice_none hi, hs, rfl, (Function.update_eq_self_iff.mpr hi.symm).symm⟩
  | some h =>
    obtain ⟨d, hd, -⟩ := hs.slot i h hi
    exact ⟨_, freeCdcDevice_some hi hd, hs.freed hi, rfl, rfl⟩

theorem exists_freeFold (hs : Paired s) (is : List Nat) (his : ∀ i ∈ is, i < maxCdcDevices) :
    ∃ t, is.foldlM (fun s (i : Nat) => s.freeCdcDevice i) s = .ok t ∧ Paired t ∧
      t.running = s.running ∧ ∀ j : Fin maxCdcDevices, (j : Nat) ∈ is ∨ s.cdcDevices j = none →
        t.cdcDevices j = none := by
  induction is generalizing s with
  | nil => exact ⟨s, rfl, hs, rfl, fun j hj => hj.resolve_left List.not_mem_nil⟩
  | cons i is ih =>
    obtain ⟨hi, hrest⟩ := List.forall_mem_cons.mp his
    obtain ⟨t, ht, hpaired, hrunning, hslots⟩ := exists_freeCdcDevice hs ⟨i, hi⟩
    obtain ⟨u, hu, hpaired', hrunning', hfree⟩ := ih hpaired hrest
    refine ⟨u, ?_, hpaired', hrunning'.trans hrunning, fun j hj => hfree j ?_⟩
    · rw [List.foldlM_cons, ht]
      exact hu
    · rw [hslots]
      by_cases hji : j = ⟨i, hi⟩
      · right
        rw [hji, Function.update_self]
      · rw [Function.update_of_ne hji]
        refine hj.imp_left fun hmem => (List.mem_cons.mp hmem).resolve_left fun heq => hji (Fin.ext heq)

/-- At a quit every device is closed, and the driver can be uninstalled. -/
theorem exists_quit (hs : Paired s) (driver : UInt16 → UInt16 → Option Nat) :
    ∃ t, s.handleMessage driver .quit = .ok t ∧ t.running = false ∧ t.opened.keys = [] ∧
      ∀ i, t.cdcDevices i = none := by
  obtain ⟨t, ht, hpaired, -, hfree⟩ := exists_freeFold hs (List.range maxCdcDevices)
    fun i hi => List.mem_range.mp hi
  have hslots : ∀ i, t.cdcDevices i = none := fun i => hfree i (.inl (List.mem_range.mpr i.isLt))
  have hkeys : t.opened.keys = [] := by
    rw [List.eq_nil_iff_forall_not_mem]
    intro h hh
    obtain ⟨d, hd⟩ := mem_keys.mp hh
    obtain ⟨i, -, hi⟩ := hpaired.device h d hd
    rw [hslots i] at hi
    cases hi
  refine ⟨{ t with running := false }, ?_, rfl, hkeys, hslots⟩
  rw [Host.handleMessage, Host.freeAllCdcDevices, ht]
  change (t.cdcAcmHostUninstall >>= fun u => .ok { u with running := false }) = _
  rw [Host.cdcAcmHostUninstall, if_pos hkeys]
  rfl

theorem getFreeSlot_some (h : s.getFreeSlot = some i) : s.cdcDevices i = none := by
  simpa using List.find?_some h

theorem getFreeSlot_none : s.getFreeSlot = none ↔ ∀ i, s.cdcDevices i ≠ none := by
  simp [Host.getFreeSlot, List.find?_eq_none]

theorem paired_cdcOpen (hs : Paired s) (hi : s.cdcDevices i = none) (hh : s.opened.get h = none) :
    Paired (s.cdcOpen i (some h)) := by
  constructor
  · intro j h' hj
    simp only [Host.cdcOpen] at hj ⊢
    by_cases hji : j = i
    · rw [hji, Function.update_self] at hj
      obtain rfl := Option.some.inj hj
      exact ⟨⟨(i : Nat), true⟩, by rw [get_set, if_pos rfl], by rw [hji]⟩
    · rw [Function.update_of_ne hji] at hj
      obtain ⟨d, hd, harg⟩ := hs.slot j h' hj
      refine ⟨d, ?_, harg⟩
      rw [get_set, if_neg, hd]
      rintro rfl
      rw [hd] at hh
      cases hh
  · intro h' d hd
    simp only [Host.cdcOpen] at hd ⊢
    rw [get_set] at hd
    split at hd
    next heq =>
      obtain rfl := Option.some.inj hd
      exact ⟨i, rfl, by rw [Function.update_self, heq]⟩
    · obtain ⟨j, harg, hj⟩ := hs.device h' d hd
      refine ⟨j, harg, ?_⟩
      rw [Function.update_of_ne, hj]
      rintro rfl
      rw [hi] at hj
      cases hj

/-! The devices that have gone. -/

theorem at_congr (hslots : t.cdcDevices = s.cdcDevices) (hopened : t.opened = s.opened) {b : Bool} :
    t.At i b ↔ s.At i b := by
  rw [Host.At, Host.At, hslots, hopened]

theorem Live.congr (hs : Live s w l) (hslots : t.cdcDevices = s.cdcDevices)
    (hopened : t.opened = s.opened) : Live t w l where
  slot := by
    rw [hslots, hopened]
    exact hs.slot
  device := by
    rw [hslots, hopened]
    exact hs.device
  gone i := (hs.gone i).trans (at_congr hslots hopened).symm
  inRange := hs.inRange
  once := hs.once

@[simp] theorem send_cdcDevices : (s.send m).cdcDevices = s.cdcDevices := by
  unfold Host.send
  split <;> rfl

@[simp] theorem send_opened : (s.send m).opened = s.opened := by
  unfold Host.send
  split <;> rfl

@[simp] theorem send_running : (s.send m).running = s.running := by
  unfold Host.send
  split <;> rfl

theorem waiting_send : (s.send m).waiting =
    if s.appQueue.length < appQueueLength then s.waiting ++ m.slot.toList else s.waiting := by
  unfold Host.send Host.waiting
  split
  · rw [List.filterMap_append]
    cases hm : m.slot <;> simp [hm]
  · rfl

theorem live_send (hs : Live s s.waiting l) (hm : m.slot = none) :
    Live (s.send m) (s.send m).waiting l := by
  have hwaiting : (s.send m).waiting = s.waiting := by
    rw [waiting_send, hm]
    simp
  rw [hwaiting]
  exact hs.congr send_cdcDevices send_opened

theorem live_sendToFront (hs : Live s s.waiting l) (hm : m.slot = none) :
    Live (s.sendToFront m) (s.sendToFront m).waiting l := by
  unfold Host.sendToFront
  split
  · have hwaiting : (m :: s.appQueue).filterMap AppMessage.slot = s.waiting :=
      List.filterMap_cons_none hm
    rw [Host.waiting, hwaiting]
    exact hs.congr rfl rfl
  · exact hs

/-- The driver notes that a device has gone. -/
def Host.left (s : Host) (handle : Nat) (d : CdcDev) : Host :=
  { s with opened := s.opened.set handle { d with attached := false } }

theorem at_left (hs : Paired s) (hd : s.opened.get h = some d) :
    (s.left h d).At i false ↔ d.userArg = (i : Nat) ∨ s.At i false := by
  constructor
  · rintro ⟨h', d', hi, hget, hd'⟩
    rw [Host.left, get_set] at hget
    split at hget
    next heq =>
      obtain ⟨d'', hd'', harg⟩ := hs.slot i h' hi
      rw [heq, hd] at hd''
      obtain rfl := Option.some.inj hd''
      exact .inl harg
    · exact .inr ⟨h', d', hi, hget, hd'⟩
  · rintro (harg | ⟨h', d', hi, hget, hd'⟩)
    · obtain ⟨j, harg', hj⟩ := hs.device h d hd
      obtain rfl : i = j := Fin.ext (by omega)
      exact ⟨h, _, hj, by rw [Host.left, get_set, if_pos rfl], rfl⟩
    · by_cases heq : h' = h
      · exact ⟨h', _, hi, by rw [Host.left, get_set, if_pos heq], rfl⟩
      · exact ⟨h', d', hi, by rw [Host.left, get_set, if_neg heq, hget], hd'⟩

theorem Paired.left (hs : Paired s) (hd : s.opened.get h = some d) : Paired (s.left h d) := by
  constructor
  · intro i h' hi
    obtain ⟨d', hd', harg⟩ := hs.slot i h' hi
    by_cases heq : h' = h
    · rw [heq, hd] at hd'
      obtain rfl := Option.some.inj hd'
      exact ⟨{ d with attached := false }, by rw [Host.left, get_set, if_pos heq], harg⟩
    · exact ⟨d', by rw [Host.left, get_set, if_neg heq, hd'], harg⟩
  · intro h' d' hd'
    rw [Host.left, get_set] at hd'
    split at hd'
    next heq =>
      obtain rfl := Option.some.inj hd'
      rw [heq]
      exact hs.device h d hd
    · exact hs.device h' d' hd'

/-- A device that is attached has no disconnect on its way. -/
theorem Live.not_mem (hs : Live s w l) (hd : s.opened.get h = some d) (ha : d.attached = true) :
    d.userArg ∉ w ++ l := by
  obtain ⟨i, harg, hi⟩ := hs.device h d hd
  rw [harg, hs.gone i]
  rintro ⟨h', d', hi', hd', ha'⟩
  obtain rfl := Option.some.inj (hi.symm.trans hi')
  rw [hd] at hd'
  obtain rfl := Option.some.inj hd'
  rw [ha] at ha'
  cases ha'

theorem Live.left (hs : Live s w l) (hd : s.opened.get h = some d) (ha : d.attached = true)
    {w' l' : List Int} (hperm : (w' ++ l').Perm (d.userArg :: (w ++ l))) : Live (s.left h d) w' l' where
  toPaired := hs.toPaired.left hd
  gone i := by
    rw [hperm.mem_iff, List.mem_cons, hs.gone i, at_left hs.toPaired hd, eq_comm]
  inRange x hx := by
    rcases List.mem_cons.mp (hperm.mem_iff.mp hx) with rfl | hmem
    · obtain ⟨i, harg, -⟩ := hs.device h d hd
      exact ⟨i, harg⟩
    · exact hs.inRange x hmem
  once := hperm.nodup_iff.mpr (List.nodup_cons.mpr ⟨hs.not_mem hd ha, hs.once⟩)

theorem Live.freed (hs : Live s (((i : Nat) : Int) :: w) l) (hi : s.cdcDevices i = some h) :
    Live (s.freed i h) w l where
  toPaired := hs.toPaired.freed hi
  gone j := by
    have hother : (s.freed i h).At j false ↔ j ≠ i ∧ s.At j false := by
      constructor
      · rintro ⟨h', d, hj, hd, ha⟩
        simp only [Host.freed] at hj hd
        have hne : j ≠ i := by
          rintro rfl
          simp at hj
        rw [Function.update_of_ne hne] at hj
        rw [get_delete] at hd
        split at hd
        · cases hd
        · exact ⟨hne, h', d, hj, hd, ha⟩
      · rintro ⟨hne, h', d, hj, hd, ha⟩
        refine ⟨h', d, by simp [Host.freed, hne, hj], ?_, ha⟩
        simp only [Host.freed]
        rw [get_delete, if_neg, hd]
        rintro rfl
        obtain ⟨d₁, hd₁, harg₁⟩ := hs.slot i h' hi
        obtain ⟨d₂, hd₂, harg₂⟩ := hs.slot j h' hj
        obtain rfl := Option.some.inj (hd₁.symm.trans hd₂)
        exact hne (Fin.ext (by omega))
    obtain ⟨hnot, -⟩ := List.nodup_cons.mp hs.once
    have hgone := hs.gone j
    rw [List.cons_append, List.mem_cons] at hgone
    rw [hother, ← hgone]
    constructor
    · intro hmem
      refine ⟨?_, .inr hmem⟩
      rintro rfl
      exact hnot hmem
    · rintro ⟨hne, heq | hmem⟩
      · exact absurd (Fin.ext (by omega)) hne
      · exact hmem
  inRange x hx := hs.inRange x (List.mem_cons_of_mem _ hx)
  once := (List.nodup_cons.mp hs.once).2

theorem Live.cdcOpen (hs : Live s w l) (hi : s.cdcDevices i = none) (hh : s.opened.get h = none) :
    Live (s.cdcOpen i (some h)) w l where
  toPaired := paired_cdcOpen hs.toPaired hi hh
  gone j := by
    rw [hs.gone j]
    constructor
    · rintro ⟨h', d, hj, hd, ha⟩
      have hne : j ≠ i := by
        rintro rfl
        rw [hi] at hj
        cases hj
      have hne' : h' ≠ h := by
        rintro rfl
        rw [hd] at hh
        cases hh
      exact ⟨h', d, by simp [Host.cdcOpen, hne, hj], by simp [Host.cdcOpen, hne', hd], ha⟩
    · rintro ⟨h', d, hj, hd, ha⟩
      simp only [Host.cdcOpen, get_set] at hj hd
      split at hd
      · obtain rfl := Option.some.inj hd
        cases ha
      next hne' =>
        have hne : j ≠ i := by
          rintro rfl
          rw [Function.update_self] at hj
          exact hne' (Option.some.inj hj).symm
        rw [Function.update_of_ne hne] at hj
        exact ⟨h', d, hj, hd, ha⟩
  inRange := hs.inRange
  once := hs.once

end Slots

/-- While the loop runs the devices are as above, and after a quit all are closed. -/
structure Inv (s : Host) (lost : List Int) : Prop where
  live : s.running = true → Live s s.waiting lost
  closed : s.running = false → s.opened.keys = [] ∧ ∀ i, s.cdcDevices i = none

section Runs

variable {s : Host} {l : List Int} {e : UsbEvent} {es : List UsbEvent} {h : Nat} {d : CdcDev}

theorem inv_boot : Inv .boot [] where
  live _ :=
    { slot := fun i h hi => by cases hi
      device := fun h d hd => by cases hd
      gone := fun i => ⟨fun hmem => absurd hmem List.not_mem_nil, fun ⟨_, _, hi, _⟩ => by cases hi⟩
      inRange := fun x hx => absurd hx List.not_mem_nil
      once := List.nodup_nil }
  closed hr := by cases hr

/-- What one round does to a message. -/
theorem inv_handleMessage {driver : UInt16 → UInt16 → Option Nat} {m : AppMessage} (hr : s.running = true)
    (hdriver : ∀ vid pid h, driver vid pid = some h → s.opened.get h = none)
    (hs : Live s (m.slot.toList ++ s.waiting) l) :
    ∃ t, s.handleMessage driver m = .ok t ∧ Inv t l := by
  cases m with
  | quit =>
    obtain ⟨t, ht, hrun, hclosed⟩ := exists_quit hs.toPaired driver
    refine ⟨t, ht, fun hrun' => ?_, fun _ => hclosed⟩
    rw [hrun] at hrun'
    cases hrun'
  | deviceConnected vid pid =>
    have hlive : ∀ i, s.cdcDevices i = none →
        Inv (s.cdcOpen i (driver vid pid)) l := by
      intro i hi
      cases hanswer : driver vid pid with
      | none => exact ⟨fun _ => hs, fun hr' => by rw [Host.cdcOpen, hr] at hr'; cases hr'⟩
      | some h =>
        exact ⟨fun _ => hs.cdcOpen hi (hdriver vid pid h hanswer), fun hr' => by
          rw [Host.cdcOpen, hr] at hr'
          cases hr'⟩
    cases hfree : s.getFreeSlot with
    | none =>
      refine ⟨s, by rw [Host.handleMessage, hfree], fun _ => hs, fun hr' => ?_⟩
      rw [hr] at hr'
      cases hr'
    | some i => exact ⟨_, by rw [Host.handleMessage, hfree], hlive i (getFreeSlot_some hfree)⟩
  | deviceDisconnected slot =>
    have hmem : slot ∈ (AppMessage.deviceDisconnected slot).slot.toList ++ s.waiting ++ l := by
      simp [AppMessage.slot]
    obtain ⟨i, rfl⟩ := hs.inRange slot hmem
    obtain ⟨h, d, hi, hd, -⟩ := (hs.gone i).mp hmem
    refine ⟨_, freeCdcDevice_some hi hd, fun _ => Live.freed hs hi, fun hr' => ?_⟩
    rw [Host.freed, hr] at hr'
    cases hr'

theorem inv_send {m : AppMessage} (hs : Inv s l) (hm : m.slot = none) : Inv (s.send m) l where
  live hr := live_send (hs.live (by rwa [send_running] at hr)) hm
  closed hr := by
    rw [send_opened, send_cdcDevices]
    exact hs.closed (by rwa [send_running] at hr)

theorem inv_sendToFront {m : AppMessage} (hs : Inv s l) (hm : m.slot = none) :
    Inv (s.sendToFront m) l := by
  have hkeep : (s.sendToFront m).running = s.running ∧ (s.sendToFront m).opened = s.opened ∧
      (s.sendToFront m).cdcDevices = s.cdcDevices := by
    unfold Host.sendToFront
    split <;> exact ⟨rfl, rfl, rfl⟩
  obtain ⟨hrunning, hopened, hslots⟩ := hkeep
  constructor
  · intro hr
    exact live_sendToFront (hs.live (hrunning ▸ hr)) hm
  · intro hr
    rw [hopened, hslots]
    exact hs.closed (hrunning ▸ hr)

/-- A device that goes sends its slot, or loses it. -/
theorem inv_disconnected (hs : Inv s l) (hd : s.opened.get h = some d) (ha : d.attached = true) :
    Inv (s.handleEvent .deviceDisconnected h)
      (l ++ lost s (.handleEvent .deviceDisconnected h) (s.handleEvent .deviceDisconnected h)) := by
  have hrun : s.running = true := by
    by_contra hr
    obtain ⟨hkeys, -⟩ := hs.closed (by simpa using hr)
    have hmem := mem_keys.mpr ⟨d, hd⟩
    rw [hkeys] at hmem
    cases hmem
  have hevent : s.handleEvent .deviceDisconnected h =
      (s.left h d).send (.deviceDisconnected d.userArg) := by
    simp only [Host.handleEvent, hd]
    rfl
  have hlost : lost s (.handleEvent .deviceDisconnected h) (s.handleEvent .deviceDisconnected h) =
      if s.appQueue.length < appQueueLength then [] else [d.userArg] := by
    simp only [lost, hd]
    rfl
  have hwaiting : ((s.left h d).send (.deviceDisconnected d.userArg)).waiting =
      if s.appQueue.length < appQueueLength then s.waiting ++ [d.userArg] else s.waiting := waiting_send
  have hperm : ((if s.appQueue.length < appQueueLength then s.waiting ++ [d.userArg] else s.waiting) ++
      (l ++ if s.appQueue.length < appQueueLength then [] else [d.userArg])).Perm
      (d.userArg :: (s.waiting ++ l)) := by
    split
    · rw [List.append_nil, List.append_assoc]
      exact List.perm_middle
    · rw [← List.append_assoc]
      exact List.perm_append_singleton _ _
  rw [hlost, hevent]
  refine ⟨fun _ => ?_, fun hr => ?_⟩
  · rw [hwaiting]
    exact ((hs.live hrun).left hd ha hperm).congr send_cdcDevices send_opened
  · rw [send_running, Host.left, hrun] at hr
    cases hr

theorem inv_received {driver : UInt16 → UInt16 → Option Nat} (hs : Inv s l)
    (hdriver : ∀ vid pid h, driver vid pid = some h → s.opened.get h = none) :
    ∃ t, s.received driver = .ok t ∧ Inv t l := by
  unfold Host.received
  split
  · exact ⟨s, rfl, hs⟩
  next m rest hq =>
    split
    next hr =>
      refine inv_handleMessage hr hdriver ?_
      have hwaiting : s.waiting = m.slot.toList ++ rest.filterMap AppMessage.slot := by
        rw [Host.waiting, hq, List.filterMap_cons]
        cases m.slot <;> rfl
      have hlive := hs.live hr
      rw [hwaiting] at hlive
      exact hlive.congr rfl rfl
    · exact ⟨s, rfl, hs⟩

theorem inv_step (hs : Inv s l) (he : e.Possible s) :
    ∃ t, s.step e = .ok t ∧ Inv t (l ++ lost s e t) := by
  cases e with
  | newDevCb descriptor =>
    refine ⟨_, rfl, ?_⟩
    rw [show lost s (.newDevCb descriptor) _ = [] from rfl, List.append_nil]
    cases descriptor with
    | none => exact hs
    | some ids => exact inv_send hs rfl
  | gpioCb =>
    refine ⟨_, rfl, ?_⟩
    rw [show lost s .gpioCb _ = [] from rfl, List.append_nil]
    exact inv_sendToFront hs rfl
  | handleEvent type h =>
    refine ⟨_, rfl, ?_⟩
    cases type with
    | deviceDisconnected =>
      obtain ⟨d, hd, ha⟩ := he
      exact inv_disconnected hs hd ha
    | error | serialState | other =>
      rw [show lost s (.handleEvent _ h) _ = [] from rfl, List.append_nil]
      exact hs
  | received driver =>
    obtain ⟨t, ht, hinv⟩ := inv_received hs he
    refine ⟨t, ht, ?_⟩
    rw [show lost s (.received driver) t = [] from rfl, List.append_nil]
    exact hinv

theorem inv_run (hs : Inv s l) (he : DriverRun s es) :
    ∃ t, run Host.step s es = .ok t ∧ Inv t (l ++ outputs Host.step lost s es) := by
  induction es generalizing s l with
  | nil => exact ⟨s, rfl, by simpa [outputs] using hs⟩
  | cons e es ih =>
    obtain ⟨hfirst, hrest⟩ := he
    obtain ⟨t, ht, hinv⟩ := inv_step hs hfirst
    obtain ⟨u, hu, hinv'⟩ := ih hinv (hrest t ht)
    refine ⟨u, (run_cons_of_ok ht).trans hu, ?_⟩
    rw [List.append_assoc] at hinv'
    simpa only [outputs, ht] using hinv'

end Runs

/-- However callbacks, the quit pin and the loop come after one another, no handle is
closed that is not open and the driver can be uninstalled: every device that is open
has one slot, one whose disconnect is in the queue has gone, and after the quit no
device is open. -/
theorem devices_safe (es : List UsbEvent) (h : DriverRun .boot es) :
    ∃ s, run Host.step .boot es = .ok s ∧
      (∀ handle d, s.opened.get handle = some d → ∃! i, s.cdcDevices i = some handle) ∧
      (s.running = true → ∀ slot : Int, .deviceDisconnected slot ∈ s.appQueue →
        ∃ i : Fin maxCdcDevices, slot = (i : Nat) ∧ s.At i false) ∧
      (s.running = false → s.opened.keys = [] ∧ ∀ i, s.cdcDevices i = none) := by
  obtain ⟨s, hs, hinv⟩ := inv_run inv_boot h
  refine ⟨s, hs, fun handle d hd => ?_, fun hr slot hslot => ?_, hinv.closed⟩
  · have hr : s.running = true := by
      by_contra hr
      obtain ⟨hkeys, -⟩ := hinv.closed (by simpa using hr)
      have hmem := mem_keys.mpr ⟨d, hd⟩
      rw [hkeys] at hmem
      cases hmem
    have hlive := hinv.live hr
    obtain ⟨i, harg, hi⟩ := hlive.device handle d hd
    refine ⟨i, hi, fun j hj => ?_⟩
    obtain ⟨d', hd', harg'⟩ := hlive.slot j handle hj
    obtain rfl := Option.some.inj (hd.symm.trans hd')
    exact Fin.ext (by omega)
  · have hlive := hinv.live hr
    have hmem : slot ∈ s.waiting ++ ([] ++ outputs Host.step lost .boot es) :=
      List.mem_append_left _ (List.mem_filterMap.mpr ⟨_, hslot, rfl⟩)
    obtain ⟨i, rfl⟩ := hlive.inRange slot hmem
    exact ⟨i, rfl, (hlive.gone i).mp hmem⟩

/-- A slot is taken as long as its device is attached or has its disconnect in the queue,
and until the quit when the disconnect found the queue full; so no slot is found free
only if each is one of these. -/
theorem slot_taken_iff (es : List UsbEvent) (h : DriverRun .boot es) :
    ∃ s, run Host.step .boot es = .ok s ∧ (s.running = true →
      (∀ i, s.cdcDevices i ≠ none ↔ s.At i true ∨
        .deviceDisconnected (i : Nat) ∈ s.appQueue ∨ ((i : Nat) : Int) ∈ outputs Host.step lost .boot es) ∧
      (s.getFreeSlot = none ↔ ∀ i, s.At i true ∨
        .deviceDisconnected (i : Nat) ∈ s.appQueue ∨ ((i : Nat) : Int) ∈ outputs Host.step lost .boot es)) := by
  obtain ⟨s, hs, hinv⟩ := inv_run inv_boot h
  refine ⟨s, hs, fun hr => ?_⟩
  have hlive := hinv.live hr
  have hwaiting (slot : Int) : slot ∈ s.waiting ↔ .deviceDisconnected slot ∈ s.appQueue := by
    rw [Host.waiting, List.mem_filterMap]
    constructor
    · rintro ⟨m, hm, hslot⟩
      cases m with
      | deviceDisconnected slot' =>
        obtain rfl := Option.some.inj hslot
        exact hm
      | quit | deviceConnected _ _ => cases hslot
    · exact fun hm => ⟨_, hm, rfl⟩
  have htaken : ∀ i, s.cdcDevices i ≠ none ↔ s.At i true ∨
      .deviceDisconnected (i : Nat) ∈ s.appQueue ∨ ((i : Nat) : Int) ∈ outputs Host.step lost .boot es := by
    intro i
    have hgone := hlive.gone i
    rw [List.nil_append, List.mem_append, hwaiting] at hgone
    rw [hgone]
    constructor
    · intro hne
      obtain ⟨handle, hi⟩ := Option.ne_none_iff_exists'.mp hne
      obtain ⟨d, hd, -⟩ := hlive.slot i handle hi
      cases ha : d.attached with
      | true => exact .inl ⟨handle, d, hi, hd, ha⟩
      | false => exact .inr ⟨handle, d, hi, hd, ha⟩
    · rintro (⟨_, _, hi, -⟩ | ⟨_, _, hi, -⟩) <;> simp [hi]
  refine ⟨htaken, getFreeSlot_none.trans (forall_congr' htaken)⟩

theorem DriverRun.cons {s t : Host} {e : UsbEvent} {es : List UsbEvent} (he : e.Possible s)
    (hs : s.step e = .ok t) (h : DriverRun t es) : DriverRun s (e :: es) :=
  ⟨he, fun _ hs' => Except.ok.inj (hs.symm.trans hs') ▸ h⟩

theorem DriverRun.take {s : Host} {es : List UsbEvent} (h : DriverRun s es) (n : Nat) :
    DriverRun s (es.take n) := by
  induction es generalizing s n with
  | nil => simpa using h
  | cons e es ih =>
    cases n with
    | zero => trivial
    | succ n => exact ⟨h.1, fun t ht => ih (h.2 t ht) n⟩

/-- A device comes and goes, and another one stays until the quit. -/
def sessionEvents : List UsbEvent :=
  [.newDevCb (some (12346, 1)), .received fun _ _ => some 7, .newDevCb (some (12346, 1)),
    .handleEvent .deviceDisconnected 7, .received fun _ _ => some 8, .received fun _ _ => none,
    .gpioCb, .received fun _ _ => none]

theorem sessionEvents_driverRun : DriverRun .boot sessionEvents := by
  refine .cons trivial rfl (.cons (fun _ _ h hh => rfl) rfl (.cons trivial rfl
    (.cons ⟨⟨0, true⟩, rfl, rfl⟩ rfl (.cons (fun _ _ h hh => ?_) rfl
      (.cons (fun _ _ h hh => ?_) rfl (.cons trivial rfl (.cons (fun _ _ h hh => ?_) rfl trivial)))))))
  · obtain rfl := Option.some.inj hh
    rfl
  · cases hh
  · cases hh

theorem devices_safe_session :
    ∃ s, run Host.step .boot sessionEvents = .ok s ∧
      (∀ handle d, s.opened.get handle = some d → ∃! i, s.cdcDevices i = some handle) ∧
      (s.running = true → ∀ slot : Int, .deviceDisconnected slot ∈ s.appQueue →
        ∃ i : Fin maxCdcDevices, slot = (i : Nat) ∧ s.At i false) ∧
      (s.running = false → s.opened.keys = [] ∧ ∀ i, s.cdcDevices i = none) :=
  devices_safe sessionEvents sessionEvents_driverRun

theorem slot_taken_iff_session :
    ∃ s, run Host.step .boot (sessionEvents.take 5) = .ok s ∧ (s.running = true →
      (∀ i, s.cdcDevices i ≠ none ↔ s.At i true ∨ .deviceDisconnected (i : Nat) ∈ s.appQueue ∨
        ((i : Nat) : Int) ∈ outputs Host.step lost .boot (sessionEvents.take 5)) ∧
      (s.getFreeSlot = none ↔ ∀ i, s.At i true ∨ .deviceDisconnected (i : Nat) ∈ s.appQueue ∨
        ((i : Nat) : Int) ∈ outputs Host.step lost .boot (sessionEvents.take 5))) :=
  slot_taken_iff _ (sessionEvents_driverRun.take 5)

end SmakChess.Usb
