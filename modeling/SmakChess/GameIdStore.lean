import SmakChess.Machine
import SmakChess.Storage

/-! The stored game id over any sequence of stores and reboots. -/

namespace SmakChess

open Machine

inductive StorageEvent
  | store (o : NvsOutcome) (id : UInt64)
  | reboot
  deriving DecidableEq, Repr

def storageStep (s : Storage) : StorageEvent → Except Empty Storage
  | .store o id => .ok (smakGameidStore o s id).2
  | .reboot => .ok (smakStorageInit s.nvs)

/-- A store that succeeds is read back, and one that fails changes nothing. -/
def ReadsBack (s : Storage) : StorageEvent → Prop
  | .store o id =>
    let r := smakGameidStore o s id
    (r.1 = 0 → smakGameidCurrentGet .works r.2 = id) ∧
      (r.1 < 0 → smakGameidCurrentGet .works r.2 = smakGameidCurrentGet .works s)
  | .reboot => True

/-- A store that writes nothing, or whose write is lost, finds the id there. -/
def Coherent (s : Storage) : StorageEvent → Prop
  | .store o id => id = s.currentId ∨ o = .commitFails false → s.nvs.getD 0 = id
  | .reboot => True

/-- No write is lost, and the id stored is not that of the copy after a boot. -/
def Ordinary : StorageEvent → Prop
  | .store o id => o ≠ .commitFails false ∧ id ≠ 0
  | .reboot => True

def CopyRight (s : Storage) : Prop := s.currentId ≠ 0 → s.nvs = some s.currentId

section Runs

variable {s t : Storage} {e : StorageEvent} {es : List StorageEvent} {nvs : Option UInt64}

theorem readsBack_iff : ReadsBack s e ↔ Coherent s e := by
  cases e with
  | reboot => exact Iff.rfl
  | store o id =>
    simp only [ReadsBack, Coherent, smakGameidStore]
    by_cases hid : id = s.currentId
    · simp [hid, smakGameidCurrentGet]
    · cases o with
      | works => simp [hid, smakGameidCurrentGet]
      | openFails => simp [hid, smakGameidCurrentGet]
      | accessFails => simp [hid, smakGameidCurrentGet]
      | commitFails kept => cases kept <;> simp [hid, smakGameidCurrentGet]

theorem throughout_readsBack_iff :
    Throughout storageStep ReadsBack s es ↔ Throughout storageStep Coherent s es :=
  ⟨fun h p e t t' hp ht hs => readsBack_iff.mp (h p e t t' hp ht hs),
    fun h p e t t' hp ht hs => readsBack_iff.mpr (h p e t t' hp ht hs)⟩

theorem CopyRight.step (h : CopyRight s) (he : Ordinary e) (hs : storageStep s e = .ok t) :
    CopyRight t := by
  cases e with
  | reboot =>
    obtain rfl := Except.ok.inj hs
    exact fun hne => absurd rfl hne
  | store o id =>
    obtain rfl := Except.ok.inj hs
    simp only [smakGameidStore]
    split
    · exact h
    · cases o with
      | works => exact fun _ => rfl
      | openFails => exact h
      | accessFails => exact h
      | commitFails kept =>
        cases kept with
        | true => exact fun _ => rfl
        | false => exact absurd rfl he.1

theorem CopyRight.coherent (h : CopyRight s) (he : Ordinary e) : Coherent s e := by
  cases e with
  | reboot => trivial
  | store o id =>
    rintro (rfl | hlost)
    · rw [h he.2, Option.getD_some]
    · exact absurd hlost he.1

theorem copyRight_of_run (he : ∀ e ∈ es, Ordinary e)
    (h : run storageStep (smakStorageInit nvs) es = .ok t) : CopyRight t := by
  have halways : Always storageStep (fun _ s => CopyRight s) (smakStorageInit nvs) es :=
    Always.of_step (fun hne => absurd rfl hne) fun p e u v hp _ hi hs =>
      hi.step (he e (hp.subset (by simp))) hs
  exact halways es t (List.prefix_refl es) h

theorem throughout_coherent (he : ∀ e ∈ es, Ordinary e) :
    Throughout storageStep Coherent (smakStorageInit nvs) es := by
  intro p e t t' hp ht _
  have hpre : p <+: es := (List.prefix_append p [e]).trans hp
  have hcopy := copyRight_of_run (fun d hd => he d (hpre.subset hd)) ht
  exact hcopy.coherent (he e (hp.subset (by simp)))

end Runs

/-- What was stored is read back exactly where every skipped or lost write finds
its id in the storage; so it is where no write is lost and no id is zero. -/
theorem stores_read_back_iff (nvs : Option UInt64) (es : List StorageEvent) :
    (Throughout storageStep ReadsBack (smakStorageInit nvs) es ↔
      Throughout storageStep Coherent (smakStorageInit nvs) es) ∧
    ((∀ e ∈ es, Ordinary e) → Throughout storageStep ReadsBack (smakStorageInit nvs) es) :=
  ⟨throughout_readsBack_iff, fun he => throughout_readsBack_iff.mpr (throughout_coherent he)⟩

/-- After a reboot the storage holds 5, and a store of 0 is passed over. -/
theorem zero_not_readsBack :
    ¬ Throughout storageStep ReadsBack (smakStorageInit none)
      [.store .works 5, .reboot, .store .works 0] := by
  intro h
  have hzero := h [.store .works 5, .reboot] (.store .works 0) ⟨some 5, 0⟩ ⟨some 5, 0⟩
    (List.prefix_refl _) rfl rfl
  exact absurd (readsBack_iff.mp hzero (.inl rfl)) (by decide)

end SmakChess
