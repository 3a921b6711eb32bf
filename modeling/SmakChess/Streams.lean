import Mathlib.Data.List.Infix
import Mathlib.Data.List.Basic
import Mathlib.Tactic.Common

/-! Streams that arrive in pieces: reading until something is found, splitting
into lines, and searching for the leftmost match. -/

namespace Streams

variable {α β γ : Type*}

/-- A way to cut a stream into pieces. -/
structure Cut (stream : List α) where
  pieces : List (List α)
  flatten : pieces.flatten = stream

/-- What has been read when it first has what is looked for, or when the pieces
run out. -/
def readUntil (found : List α → Bool) : List α → List (List α) → List α
  | acc, [] => acc
  | acc, piece :: pieces =>
    if found (acc ++ piece) then acc ++ piece else readUntil found (acc ++ piece) pieces

section Read

variable {found : List α → Bool} {acc : List α} {pieces : List (List α)}

theorem readUntil_isPrefix : readUntil found acc pieces <+: acc ++ pieces.flatten := by
  induction pieces generalizing acc with
  | nil => simp [readUntil]
  | cons piece pieces ih =>
    rw [readUntil, List.flatten_cons, ← List.append_assoc]
    split_ifs
    · exact List.prefix_append _ _
    · exact ih

theorem found_readUntil (h : found (acc ++ pieces.flatten) = true) :
    found (readUntil found acc pieces) = true := by
  induction pieces generalizing acc with
  | nil => simpa [readUntil] using h
  | cons piece pieces ih =>
    rw [readUntil]
    split_ifs with hf
    · exact hf
    · exact ih (by simpa using h)

end Read

/-- Where pieces end that come after `n` characters. -/
def ends : Nat → List (List α) → List Nat
  | _, [] => []
  | n, piece :: pieces => (n + piece.length) :: ends (n + piece.length) pieces

/-- The first end of a piece by which what is looked for has arrived. -/
def Cut.readEnd {stream : List α} (d : Cut stream) (found : List α → Bool) : Nat :=
  ((ends 0 d.pieces).find? fun n => found (stream.take n)).getD stream.length

section ReadEnd

variable {found : List α → Bool}

theorem readUntil_eq_take (found : List α → Bool) (acc : List α) (pieces : List (List α)) :
    readUntil found acc pieces = (acc ++ pieces.flatten).take
      (((ends acc.length pieces).find? fun n => found ((acc ++ pieces.flatten).take n)).getD
        (acc ++ pieces.flatten).length) := by
  induction pieces generalizing acc with
  | nil => simp [readUntil, ends]
  | cons piece pieces ih =>
    have hsplit : acc ++ (piece :: pieces).flatten = (acc ++ piece) ++ pieces.flatten := by simp
    have htake : (acc ++ piece ++ pieces.flatten).take (acc.length + piece.length) =
        acc ++ piece := by rw [← List.length_append, List.take_left]
    rw [readUntil, ends, List.find?_cons, hsplit, htake]
    cases hf : found (acc ++ piece) with
    | true => rw [if_pos rfl, Option.getD_some, htake]
    | false =>
      rw [if_neg (by simp), ih, List.length_append]

theorem readUntil_eq_readEnd {stream : List α} (d : Cut stream) :
    readUntil found [] d.pieces = stream.take (d.readEnd found) := by
  rw [readUntil_eq_take, Cut.readEnd]
  simp only [List.nil_append, List.length_nil, d.flatten]

end ReadEnd

/-! Lines. -/

/-- The lines of a text. The last one need not be ended. -/
def getlines (newline : α → Bool) : List α → List (List α)
  | [] => []
  | c :: cs =>
    if newline c then [] :: getlines newline cs
    else
      match getlines newline cs with
      | [] => [[c]]
      | l :: ls => (c :: l) :: ls

def Ended (newline : α → Bool) (t : List α) : Prop := ∀ c, t.getLast? = some c → newline c = true

section Lines

variable {newline : α → Bool} {l t u v : List α} {c : α}

theorem getlines_ne_nil (h : t ≠ []) : getlines newline t ≠ [] := by
  cases t with
  | nil => exact absurd rfl h
  | cons c cs =>
    rw [getlines]
    split_ifs
    · simp
    · split <;> simp

theorem getlines_line (hl : ∀ d ∈ l, newline d = false) (hc : newline c = true) :
    getlines newline (l ++ c :: t) = l :: getlines newline t := by
  induction l with
  | nil => simp [getlines, hc]
  | cons d l ih =>
    obtain ⟨hd, hl⟩ := List.forall_mem_cons.mp hl
    simp [getlines, hd, ih hl]

theorem getlines_unended (hl : ∀ d ∈ l, newline d = false) (hne : l ≠ []) :
    getlines newline l = [l] := by
  induction l with
  | nil => exact absurd rfl hne
  | cons d l ih =>
    obtain ⟨hd, hl⟩ := List.forall_mem_cons.mp hl
    cases l with
    | nil => simp [getlines, hd]
    | cons e l =>
      have hrest := ih hl (List.cons_ne_nil e l)
      rw [getlines, hrest]
      simp [hd]

theorem getlines_append (h : Ended newline u) :
    getlines newline (u ++ v) = getlines newline u ++ getlines newline v := by
  induction u with
  | nil => rfl
  | cons c u ih =>
    have hrest : Ended newline u := by
      intro d hd
      apply h d
      cases u with
      | nil => simp at hd
      | cons e u => simpa [List.getLast?_cons_cons] using hd
    rw [List.cons_append, getlines, getlines, ih hrest]
    by_cases hc : newline c = true
    · simp [hc]
    · have hne : u ≠ [] := by
        intro hu
        exact hc (h c (by simp [hu]))
      have hlines : getlines newline u ≠ [] := getlines_ne_nil hne
      obtain ⟨l, ls, hls⟩ := List.exists_cons_of_ne_nil hlines
      simp [hc, hls]

theorem getlines_take_line {n : Nat} (hl : ∀ d ∈ l, newline d = false) (hc : newline c = true)
    (hn : 0 < n) : getlines newline ((l ++ [c]).take n) = [l.take n] := by
  by_cases hle : n ≤ l.length
  · have hne : l.take n ≠ [] := by
      rw [Ne, List.take_eq_nil_iff]
      rintro (h | rfl)
      · omega
      · simp at hle
        omega
    rw [List.take_append_of_le_length hle]
    exact getlines_unended (fun d hd => hl d (List.mem_of_mem_take hd)) hne
  · rw [List.take_of_length_le (by simp; omega), List.take_of_length_le (by omega),
      getlines_line hl hc, getlines]

theorem getlines_map (f : β → α) (t : List β) :
    (getlines (newline ∘ f) t).map (List.map f) = getlines newline (t.map f) := by
  induction t with
  | nil => rfl
  | cons c t ih =>
    rw [List.map_cons, getlines, getlines, ← ih]
    by_cases hc : newline (f c) = true
    · simp [hc]
    · cases getlines (newline ∘ f) t <;> simp [hc]

theorem isPrefix_of_head?_getlines (h : (getlines newline t).head? = some l) : l <+: t := by
  induction t generalizing l with
  | nil => simp [getlines] at h
  | cons d t ih =>
    rw [getlines] at h
    split_ifs at h
    · obtain rfl : [] = l := by simpa using h
      exact List.nil_prefix
    · split at h
      next =>
        obtain rfl : [d] = l := by simpa using h
        exact List.prefix_append [d] t
      next l' ls hls =>
        obtain rfl : d :: l' = l := by simpa using h
        exact (List.prefix_cons_inj d).mpr (ih (by rw [hls]; rfl))

theorem isInfix_of_mem_getlines (h : l ∈ getlines newline t) : l <:+: t := by
  induction t generalizing l with
  | nil => simp [getlines] at h
  | cons d t ih =>
    cases hd : getlines newline (d :: t) with
    | nil => simp [hd] at h
    | cons l' ls =>
      rw [hd] at h
      rcases List.mem_cons.mp h with rfl | h
      · have hhead : (getlines newline (d :: t)).head? = some l := by
          rw [hd]
          rfl
        exact (isPrefix_of_head?_getlines hhead).isInfix
      · refine (ih ?_).trans (List.suffix_cons d t).isInfix
        rw [getlines] at hd
        split_ifs at hd
        · exact (List.cons.inj hd).2 ▸ h
        · split at hd
          next => simp_all
          next hls =>
            rw [hls]
            exact List.mem_cons_of_mem _ ((List.cons.inj hd).2 ▸ h)

theorem isPrefix_of_isPrefix_append_cons {w : List α} (hw : c ∉ w) (h : w <+: u ++ c :: v) :
    w <+: u := by
  refine List.prefix_of_prefix_length_le h (List.prefix_append u _) ?_
  by_contra hlt
  have hpre : u ++ [c] <+: w := by
    refine List.prefix_of_prefix_length_le ⟨v, by simp⟩ h ?_
    rw [List.length_append, List.length_singleton]
    exact Nat.lt_of_not_le hlt
  exact hw (hpre.subset (by simp))

theorem infix_or_of_infix_append_cons {w : List α} (hw : c ∉ w) (h : w <:+: u ++ c :: v) :
    w <:+: u ∨ w <:+: v := by
  induction u with
  | nil =>
    rcases List.infix_cons_iff.mp h with h | h
    · cases w with
      | nil => exact .inl (List.nil_infix)
      | cons d w =>
        obtain ⟨rfl, -⟩ := List.cons_prefix_cons.mp h
        exact absurd List.mem_cons_self hw
    · exact .inr h
  | cons d u ih =>
    rw [List.cons_append] at h
    rcases List.infix_cons_iff.mp h with h | h
    · left
      exact (isPrefix_of_isPrefix_append_cons (u := d :: u) hw h).isInfix
    · rcases ih h with h | h
      · exact .inl (h.trans (List.suffix_cons d u).isInfix)
      · exact .inr h

end Lines

/-- A place in a text: the line it is in, how much of that line is before it, and the line
before. The character that ends a line is counted with it. -/
structure Spot (α : Type*) where
  before : Option (List α)
  line : List α
  count : Nat

def spot : Option (List α) → List (List α) → List α → Nat → Spot α
  | before, [], last, n => ⟨before, last, n⟩
  | before, l :: ls, last, n =>
    if n ≤ l.length + 1 then ⟨before, l, n⟩ else spot (some l) ls last (n - (l.length + 1))

/-- The lines of a text as far as a place in it. -/
theorem getlines_take_spot {newline : α → Bool} {c : α} {ls : List (List α)} {last : List α}
    (hc : newline c = true) (hls : ∀ l ∈ ls, ∀ d ∈ l, newline d = false)
    (hlast : ∀ d ∈ last, newline d = false) (before : Option (List α)) {n : Nat} (hn : 0 < n) :
    ∃ pre, getlines newline (((ls.flatMap fun l => l ++ [c]) ++ (last ++ [c])).take n) =
        pre ++ [(spot before ls last n).line.take (spot before ls last n).count] ∧
      pre.getLast?.or before = (spot before ls last n).before := by
  induction ls generalizing before n with
  | nil => exact ⟨[], getlines_take_line hlast hc hn, rfl⟩
  | cons l ls ih =>
    obtain ⟨hl, hls⟩ := List.forall_mem_cons.mp hls
    rw [spot, List.flatMap_cons, List.append_assoc]
    split_ifs with hle
    · refine ⟨[], ?_, rfl⟩
      rw [List.take_append_of_le_length (by simpa using hle)]
      exact getlines_take_line hl hc hn
    · obtain ⟨pre, hpre, hbefore⟩ := ih hls (some l) (n := n - (l.length + 1)) (by omega)
      refine ⟨l :: pre, ?_, ?_⟩
      · rw [List.take_append, List.take_of_length_le (by simp; omega), List.append_assoc,
          List.singleton_append, List.length_append, List.length_singleton, getlines_line hl hc,
          hpre, List.cons_append]
      · rw [← hbefore, List.getLast?_cons]
        cases pre.getLast? <;> rfl

/-! Matches. -/

/-- The match at the first position that has one. -/
def search (m : List α → Option β) : List α → Option β
  | [] => m []
  | c :: cs =>
    match m (c :: cs) with
    | some b => some b
    | none => search m cs

/-- The match `b`, and no match before it. -/
def FirstMatch (m : List α → Option β) (t : List α) (b : β) : Prop :=
  ∃ u v, t = u ++ v ∧ m v = some b ∧ ∀ w, w <:+ u → w ≠ [] → m (w ++ v) = none

section Search

variable {m : List α → Option β} {t t' : List α} {b : β}

theorem exists_of_search (h : search m t = some b) : ∃ v, v <:+ t ∧ m v = some b := by
  induction t with
  | nil => exact ⟨[], List.suffix_refl _, h⟩
  | cons c t ih =>
    rw [search] at h
    split at h
    next b' hb =>
      obtain rfl := by simpa using h
      exact ⟨c :: t, List.suffix_refl _, hb⟩
    next =>
      obtain ⟨v, hv, hm⟩ := ih h
      exact ⟨v, hv.trans (List.suffix_cons c t), hm⟩

theorem search_eq_none : search m t = none ↔ ∀ v, v <:+ t → m v = none := by
  constructor
  · intro h v hv
    induction t with
    | nil =>
      obtain rfl := List.suffix_nil.mp hv
      exact h
    | cons c t ih =>
      rw [search] at h
      split at h
      next => cases h
      next hnone =>
        rcases List.suffix_cons_iff.mp hv with rfl | hv
        · exact hnone
        · exact ih h hv
  · intro h
    by_contra hne
    obtain ⟨b, hb⟩ := Option.ne_none_iff_exists'.mp hne
    obtain ⟨v, hv, hm⟩ := exists_of_search hb
    rw [h v hv] at hm
    cases hm

theorem search_of_match (h : m t = some b) : search m t = some b := by
  cases t with
  | nil => exact h
  | cons c t => rw [search, h]

/-- Positions without a match are passed over. -/
theorem search_append {u : List α} (h : ∀ v, v <:+ u → v ≠ [] → m (v ++ t) = none) :
    search m (u ++ t) = search m t := by
  induction u with
  | nil => rfl
  | cons c u ih =>
    have hc : m (c :: (u ++ t)) = none := h (c :: u) (List.suffix_refl _) (by simp)
    rw [List.cons_append, search, hc]
    exact ih fun v hv hne => h v (hv.trans (List.suffix_cons c u)) hne

theorem search_eq_some : search m t = some b ↔ FirstMatch m t b := by
  constructor
  · intro h
    induction t with
    | nil => exact ⟨[], [], rfl, h, fun w hw hne => absurd (List.suffix_nil.mp hw) hne⟩
    | cons c t ih =>
      cases hc : m (c :: t) with
      | some b' =>
        rw [search_of_match hc] at h
        exact ⟨[], c :: t, rfl, hc.trans h, fun w hw hne => absurd (List.suffix_nil.mp hw) hne⟩
      | none =>
        rw [search, hc] at h
        obtain ⟨u, v, rfl, hv, hnone⟩ := ih h
        refine ⟨c :: u, v, rfl, hv, fun w hw hne => ?_⟩
        rcases List.suffix_cons_iff.mp hw with rfl | hw
        · exact hc
        · exact hnone w hw hne
  · rintro ⟨u, v, rfl, hv, hnone⟩
    rw [search_append hnone, search_of_match hv]

theorem search_map (g : β → γ) (t : List α) :
    search (fun t => (m t).map g) t = (search m t).map g := by
  induction t with
  | nil => rfl
  | cons c t ih =>
    rw [search, search, ih]
    cases m (c :: t) <;> rfl

end Search

/-! Matches of `n` characters. -/

/-- Whether there is a match is decided by the first `n` characters; the rest is returned with it. -/
def Fixed (n : Nat) (m : List α → Option (β × List α)) : Prop :=
  ∀ v b r, m v = some (b, r) → n ≤ v.length ∧ r = v.drop n ∧
    ∀ w, v.take n <+: w → m w = some (b, w.drop n)

section Fixed

variable {n k : Nat} {m : List α → Option (β × List α)} {t v w : List α} {b : β} {r : List α}

theorem Fixed.grows (h : Fixed n m) (hpre : v <+: w) (hv : m v ≠ none) : m w ≠ none := by
  obtain ⟨⟨b, r⟩, hb⟩ := Option.ne_none_iff_exists'.mp hv
  have hw := (h v b r hb).2.2 w ((List.take_prefix n v).trans hpre)
  simp [hw]

theorem Fixed.take (h : Fixed n m) (hv : m v = some (b, r)) (k : Nat) :
    m (v.take k) = if n ≤ k then some (b, r.take (k - n)) else none := by
  obtain ⟨hlen, rfl, hmatch⟩ := h v b r hv
  split_ifs with hk
  · rw [hmatch _ (List.take_prefix_take_left hk), List.drop_take]
  · by_contra hne
    obtain ⟨⟨b', r'⟩, hb'⟩ := Option.ne_none_iff_exists'.mp hne
    have hlen' := (h _ b' r' hb').1
    rw [List.length_take] at hlen'
    omega

/-- The first match of a text is found in a part of it that goes as far as the match. -/
theorem Fixed.search_take (h : Fixed n m) (ht : search m t = some (b, r)) (k : Nat) :
    search m (t.take k) = if t.length - r.length ≤ k then
      some (b, r.take (k - (t.length - r.length))) else none := by
  obtain ⟨u, v, rfl, hv, hnone⟩ := search_eq_some.mp ht
  obtain ⟨hlen, hr, -⟩ := h v b r hv
  have hend : (u ++ v).length - r.length = u.length + n := by
    rw [hr, List.length_append, List.length_drop]
    omega
  rw [hend]
  split_ifs with hk
  · have hcut : (u ++ v).take k = u ++ v.take (k - u.length) := by
      rw [List.take_append, List.take_of_length_le (by omega)]
    have hm : m (v.take (k - u.length)) = some (b, r.take (k - (u.length + n))) := by
      rw [h.take hv, if_pos (by omega), Nat.sub_sub]
    refine search_eq_some.mpr ⟨u, _, hcut, hm, fun w hw hne => ?_⟩
    by_contra hsome
    exact h.grows ((List.prefix_append_right_inj w).mpr (List.take_prefix _ v)) hsome
      (hnone w hw hne)
  · by_contra hsome
    obtain ⟨⟨b', r'⟩, hb'⟩ := Option.ne_none_iff_exists'.mp hsome
    obtain ⟨u', v', hcut, hv', -⟩ := search_eq_some.mp hb'
    have hlen' := (h v' b' r' hv').1
    have hshort : u'.length + v'.length ≤ k := by
      rw [← List.length_append, ← hcut]
      exact List.length_take_le k _
    have hpre : u' ++ v' <+: u ++ v := hcut ▸ List.take_prefix k (u ++ v)
    obtain ⟨w, rfl⟩ : u' <+: u := List.prefix_of_prefix_length_le
      ((List.prefix_append u' v').trans hpre) (List.prefix_append u v) (by omega)
    have hne : w ≠ [] := by
      rintro rfl
      simp at hk
      omega
    rw [List.append_assoc, List.prefix_append_right_inj] at hpre
    exact h.grows hpre (by simp [hv']) (hnone w (List.suffix_append u' w) hne)

theorem Fixed.search_take_none (h : Fixed n m) (ht : search m t = none) (k : Nat) :
    search m (t.take k) = none := by
  rw [search_eq_none] at ht ⊢
  rintro v ⟨u, hu⟩
  by_contra hne
  have htext : u ++ (v ++ t.drop k) = t := by rw [← List.append_assoc, hu, List.take_append_drop]
  exact h.grows (List.prefix_append v _) hne (ht _ ⟨u, htext⟩)

end Fixed

theorem dropWhile_take (p : α → Bool) (t : List α) (k : Nat) :
    (t.take k).dropWhile p = (t.dropWhile p).take (k - (t.takeWhile p).length) := by
  induction t generalizing k with
  | nil => simp
  | cons c t ih =>
    cases k with
    | zero => simp
    | succ k =>
      rw [List.take_succ_cons, List.dropWhile_cons, List.dropWhile_cons, List.takeWhile_cons]
      split_ifs
      · rw [ih, List.length_cons, Nat.add_sub_add_right]
      · rw [List.length_nil, Nat.sub_zero, List.take_succ_cons]

end Streams
