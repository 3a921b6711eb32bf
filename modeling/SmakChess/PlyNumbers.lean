import SmakChess.Gestures
import Mathlib.Data.List.Nodup
import Mathlib.Data.List.Range

/-! The number of a ply in its message, against the eight bits of the counter. -/

namespace SmakChess

open Machine

/-- The values of `shell_obj` along a run, one for each completed ply. -/
def messages (st : ChessState) (es : List Event) : List SmakJsonObj :=
  outputs step (fun st e t => if (plyOf st e).isSome then [t.shellObj] else []) st es

/-- The k-th ply leaves the counter at k and sends the number k, so that no two
messages share a key. -/
def Numbered (st : ChessState) (es : List Event) : Prop :=
  Always step (fun p t => t.ply = (plies st p).length) st es ∧
    (messages st es).map SmakJsonObj.ply = List.range' 1 (plies st es).length ∧
    ∀ gameId : Nat, ((messages st es).map fun m => (gameId, m.ply)).Nodup

section Step

variable {st st₀ t : ChessState} {e : Event} {es p : List Event} {q : Ply} {c : Color} {x s : Nat}

theorem shellObj_ply_next (h : plyOf st e = some q) :
    (next st e).shellObj.ply = (st.ply + 1) % 256 := by
  cases q with
  | quiet c k x s => rw [(next_of_quiet h).2.2.2.2]
  | capture c k x y s => rw [(next_of_capture h).2.2.2.2]
  | castle c v => rw [(next_of_castle h).2.2.2.2]

theorem ply_eq_mod (h : run step (resetFsm st₀) es = .ok t) :
    t.ply = (plies (resetFsm st₀) es).length % 256 ∧
      (messages (resetFsm st₀) es).map SmakJsonObj.ply =
        (List.range' 1 (plies (resetFsm st₀) es).length).map (· % 256) := by
  refine always_of_next (I := fun p t => t.ply = (plies (resetFsm st₀) p).length % 256 ∧
    (messages (resetFsm st₀) p).map SmakJsonObj.ply =
      (List.range' 1 (plies (resetFsm st₀) p).length).map (· % 256)) ⟨rfl, rfl⟩ ?_
    es t (List.prefix_refl es) h
  rintro p e t ht hp ⟨hply, hmsg⟩
  have hstep := pinChange_eq (wellFormed_of_run ht) hp
  rw [plies_concat ht hp, next_ply, messages, outputs_concat ht hstep, ← messages, List.map_append,
    hmsg]
  cases hq : plyOf t e with
  | none => simpa using hply
  | some q =>
    have hnext : (next t e).shellObj.ply = ((plies (resetFsm st₀) p).length + 1) % 256 := by
      rw [shellObj_ply_next hq, hply, Nat.mod_add_mod]
    have hrange : List.range' 1 ((plies (resetFsm st₀) p).length + 1) =
        List.range' 1 (plies (resetFsm st₀) p).length ++ [1 + (plies (resetFsm st₀) p).length] :=
      List.range'_1_concat
    have hlen : (plies (resetFsm st₀) p ++ [q]).length = (plies (resetFsm st₀) p).length + 1 := by
      simp
    rw [Option.toList_some, hlen, hrange, List.map_append]
    refine ⟨by simp [hply], ?_⟩
    simp [hnext, Nat.add_comm 1]

theorem range'_map_mod {n : Nat} (h : n ≤ 255) :
    (List.range' 1 n).map (· % 256) = List.range' 1 n := by
  refine (List.map_congr_left fun k hk => ?_).trans (List.map_id _)
  have hlt := (List.mem_range'_1.mp hk).2
  exact Nat.mod_eq_of_lt (by omega)

theorem numbered_of_le (h : (plies (resetFsm st₀) es).length ≤ 255) :
    Numbered (resetFsm st₀) es := by
  obtain ⟨p, t, hp, ht, hout⟩ := exists_run_prefix step (resetFsm st₀) es
  have hplies : plies (resetFsm st₀) es = plies (resetFsm st₀) p := hout _
  have hmsgs : messages (resetFsm st₀) es = messages (resetFsm st₀) p := hout _
  have hnumbers : (messages (resetFsm st₀) es).map SmakJsonObj.ply =
      List.range' 1 (plies (resetFsm st₀) es).length := by
    rw [hmsgs, (ply_eq_mod ht).2, ← hplies, range'_map_mod h]
  refine ⟨fun p t hp ht => ?_, hnumbers, fun gameId => ?_⟩
  · have hle : (plies (resetFsm st₀) p).length ≤ (plies (resetFsm st₀) es).length :=
      (outputs_mono hp).length_le
    have hmod := (ply_eq_mod ht).1
    rwa [Nat.mod_eq_of_lt (by omega)] at hmod
  · have hmap : ((messages (resetFsm st₀) es).map fun m => (gameId, m.ply)) =
        ((messages (resetFsm st₀) es).map SmakJsonObj.ply).map (Prod.mk gameId) := by
      rw [List.map_map]
      rfl
    rw [hmap, hnumbers]
    exact List.Nodup.map (fun a b hab => (Prod.mk.inj hab).2) List.nodup_range'

theorem le_of_numbered (h : Numbered (resetFsm st₀) es) :
    (plies (resetFsm st₀) es).length ≤ 255 := by
  obtain ⟨p, t, hp, ht, hout⟩ := exists_run_prefix step (resetFsm st₀) es
  have hplies : plies (resetFsm st₀) es = plies (resetFsm st₀) p := hout _
  have hcount := h.1 p t hp ht
  have hmod := (ply_eq_mod ht).1
  rw [hplies]
  omega

end Step

/-- The plies of a run carry their own numbers, exactly when there are at most
255 of them. -/
theorem numbered_iff_le (st₀ : ChessState) (es : List Event) :
    Numbered (resetFsm st₀) es ↔ (plies (resetFsm st₀) es).length ≤ 255 :=
  ⟨le_of_numbered, numbered_of_le⟩

/-! A game of 256 plies: the knights of the king's side go out and back. -/

def shuffle : List Event :=
  [lift 62, put 45] ++ [lift 6, put 21] ++ [lift 45, put 62] ++ [lift 21, put 6]

def shuffles (n : Nat) : List Event := (List.replicate n shuffle).flatten

structure Shuffling (st : ChessState) : Prop where
  wellFormed : WellFormed st
  active : active st = some .white
  whiteHome : st.board 62 = .man .white .knight
  whiteAway : st.board 45 = .emptySquare
  blackHome : st.board 6 = .man .black .knight
  blackAway : st.board 21 = .emptySquare

section Shuffle

variable {st t : ChessState} {es : List Event} {q : Ply} {c : Color} {x s : Nat}

theorem plies_of_completes (hw : WellFormed st) (hp : ∀ e ∈ es, e.pinNumber < 64)
    (h : Completes st es q) : plies st es = [q] := by
  induction h with
  | last h =>
    have hs := pinChange_eq hw (hp _ (List.mem_singleton_self _))
    simp [plies, outputs, hs, h]
  | cons hn _ ih =>
    obtain ⟨he, hes⟩ := List.forall_mem_cons.mp hp
    have hs := pinChange_eq hw he
    have ih := ih (wellFormed_next hw he) hes
    simpa [plies, outputs, hs, hn] using ih

theorem plies_append {p q : List Event} (hw : WellFormed st) (hp : ∀ e ∈ p, e.pinNumber < 64) :
    plies st (p ++ q) = plies st p ++ plies (p.foldl next st) q :=
  outputs_append_of_ok (run_eq_foldl _ hw hp) q

theorem knight_ply (hw : WellFormed st) (ha : active st = some (.of c .base)) (hx : x < 64)
    (hs : s < 64) (hxs : x ≠ s) (hb : st.board x = .man c .knight) :
    (plies st [lift x, put s]).length = 1 ∧
      WellFormed ([lift x, put s].foldl next st) ∧
      active ([lift x, put s].foldl next st) = some (.of c.other .base) ∧
      ([lift x, put s].foldl next st).board = moved st.board x s := by
  have hp : ∀ e ∈ [lift x, put s], e.pinNumber < 64 := by simp [hx, hs]
  have hhome : KingHome st c x := by
    intro hm
    have hk := (mayCastle_eq_true.mp hm).1
    cases hb.symm.trans hk
  have hq := completes_quiet ha hb hxs hhome (fun hk => by cases hk)
  refine ⟨by rw [plies_of_completes hw hp hq]; rfl, wellFormed_foldl hw hp, hq.state.1, ?_⟩
  rw [hq.quiet.1, promote_target_eq]
  rw [moved_target hxs, hb]
  simp

theorem shuffling_shuffle (h : Shuffling st) :
    (plies st shuffle).length = 4 ∧ Shuffling (shuffle.foldl next st) := by
  obtain ⟨hw, ha, h62, h45, h6, h21⟩ := h
  obtain ⟨hl₁, hw₁, ha₁, hb₁⟩ := knight_ply (s := 45) hw ha (by decide) (by decide) (by decide) h62
  set st₁ := [lift 62, put 45].foldl next st
  have h6₁ : st₁.board 6 = .man .black .knight := by rw [hb₁, moved_other (by decide) (by decide), h6]
  obtain ⟨hl₂, hw₂, ha₂, hb₂⟩ :=
    knight_ply (s := 21) hw₁ ha₁ (by decide) (by decide) (by decide) h6₁
  set st₂ := [lift 6, put 21].foldl next st₁
  have h45₂ : st₂.board 45 = .man .white .knight := by
    rw [hb₂, moved_other (by decide) (by decide), hb₁, moved_target (by decide), h62]
  obtain ⟨hl₃, hw₃, ha₃, hb₃⟩ :=
    knight_ply (s := 62) hw₂ ha₂ (by decide) (by decide) (by decide) h45₂
  set st₃ := [lift 45, put 62].foldl next st₂
  have h21₃ : st₃.board 21 = .man .black .knight := by
    rw [hb₃, moved_other (by decide) (by decide), hb₂, moved_target (by decide), h6₁]
  obtain ⟨hl₄, hw₄, ha₄, hb₄⟩ :=
    knight_ply (s := 6) hw₃ ha₃ (by decide) (by decide) (by decide) h21₃
  have hfold : shuffle.foldl next st = [lift 21, put 6].foldl next st₃ := rfl
  have hplies : plies st shuffle = plies st [lift 62, put 45] ++ (plies st₁ [lift 6, put 21] ++
      (plies st₂ [lift 45, put 62] ++ plies st₃ [lift 21, put 6])) := by
    rw [shuffle, List.append_assoc, List.append_assoc, plies_append hw (by decide),
      plies_append hw₁ (by decide), plies_append hw₂ (by decide)]
  refine ⟨by rw [hplies]; simp [hl₁, hl₂, hl₃, hl₄], ?_⟩
  rw [hfold]
  refine ⟨hw₄, ha₄, ?_, ?_, ?_, ?_⟩ <;> rw [hb₄, hb₃, hb₂, hb₁] <;> simp [moved, h62, h6]

theorem shuffling_shuffles (n : Nat) (h : Shuffling st) :
    (plies st (shuffles n)).length = 4 * n := by
  induction n generalizing st with
  | zero => rfl
  | succ n ih =>
    obtain ⟨hlen, hnext⟩ := shuffling_shuffle h
    have hsplit : shuffles (n + 1) = shuffle ++ shuffles n := by
      rw [shuffles, List.replicate_succ, List.flatten_cons, shuffles]
    rw [hsplit, plies_append h.wellFormed (by decide), List.length_append, hlen, ih hnext]
    omega

end Shuffle

theorem shuffles_not_numbered : ¬ Numbered (resetFsm powerOn) (shuffles 64) := by
  intro h
  have hs : Shuffling (resetFsm powerOn) :=
    ⟨wellFormed_resetFsm powerOn, rfl, rfl, rfl, rfl, rfl⟩
  have hlen := shuffling_shuffles 64 hs
  have hle := le_of_numbered h
  omega

end SmakChess
