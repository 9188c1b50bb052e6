import RhythmChart.Proofs.Desk

/-! # Being told the time

Main statements.

* `Desk.maintain_maintain` and `Desk.elapse_elapse`: queue and holds do not notice whether they were
  told the time on the way;
* `Desk.maintain_change`: the queue and the holds do not get into each other's way;
* `Desk.settle_settle` and `Desk.settle_edge`: so a desk is the same at any time at which it is looked
  at, however often it was told the time before. -/

namespace RhythmChart

open Judge Holds Binary64

/-! ### The queue -/

theorem Judge.frontier_frontier {t u : Float} (hle : t ≤ u) (enter : Float) (live : Array LiveNote)
    (i : Nat) : frontier enter u live (frontier enter t live i) = frontier enter u live i := by
  fun_induction frontier enter t live i with
  | case1 i h hfar => rfl
  | case2 i h hnear ih =>
      conv_rhs => unfold Judge.frontier
      rw [ih, dif_pos h, if_neg fun hfar => hnear (lt_sub_of_le hle hfar)]
  | case3 i h => rfl

theorem Judge.openBetween_append (notes : Array Note) (live : Array LiveNote) {i j k : Nat}
    (hij : i ≤ j) (hjk : j ≤ k) :
    openBetween notes live i j ++ openBetween notes live j k = openBetween notes live i k := by
  unfold openBetween
  rw [← List.filter_append]
  congr 1
  have happend := @List.range'_append i (j - i) (k - j) 1
  rw [one_mul, Nat.add_sub_cancel' hij] at happend
  rw [happend]
  congr 1
  omega

section Lists

variable {α : Type} {p q : α → Bool}

theorem dropWhile_dropWhile_append (h : ∀ a, q a = true → p a = true) (l l' : List α) :
    (l.dropWhile q ++ l').dropWhile p = (l ++ l').dropWhile p := by
  induction l with
  | nil => rfl
  | cons a l ih =>
      cases hq : q a with
      | true => rw [List.dropWhile_cons_of_pos hq, ih, List.cons_append,
          List.dropWhile_cons_of_pos (h a hq)]
      | false => rw [List.dropWhile_cons_of_neg (by simp [hq])]

theorem mem_takeWhile_append_iff (h : ∀ a, q a = true → p a = true) (l l' : List α) (b : α) :
    b ∈ (l ++ l').takeWhile p ↔ b ∈ l.takeWhile q ∨ b ∈ (l.dropWhile q ++ l').takeWhile p := by
  induction l with
  | nil => simp
  | cons a l ih =>
      cases hq : q a with
      | true =>
          rw [List.cons_append, List.takeWhile_cons_of_pos (h a hq), List.takeWhile_cons_of_pos hq,
            List.dropWhile_cons_of_pos hq, List.mem_cons, List.mem_cons, ih, or_assoc]
      | false =>
          rw [List.takeWhile_cons_of_neg (by simp [hq]), List.dropWhile_cons_of_neg (by simp [hq])]
          simp

end Lists

variable {S : Sheet} {t u : Float}

theorem Sheet.isGone_mono (hbot : value t ≠ ⊥) (hle : t ≤ u) (id : Nat)
    (h : S.isGone t id = true) : S.isGone u id = true := by
  unfold isGone at h ⊢
  rw [Bool.not_eq_true', decide_eq_false_iff_not] at h ⊢
  exact fun hlater => h (sub_le_of_le hbot hle hlater)

namespace Desk

theorem frontier_maintain (hle : t ≤ u) (x : Desk) :
    (x.maintain S t).frontier S u = x.frontier S u :=
  frontier_frontier hle _ _ _

theorem lined_eq (hle : t ≤ u) (x : Desk) : x.lined S u =
    x.lined S t ++ openBetween S.notes S.all (x.frontier S t) (x.frontier S u) := by
  have hbetween : x.frontier S t ≤ x.frontier S u := by
    rw [← frontier_maintain hle]
    exact le_frontier' (x.maintain S t) u
  unfold lined
  rw [List.append_assoc, openBetween_append _ _ (le_frontier' x t) hbetween]

/-- The queue does not notice whether it was told the time on the way. -/
theorem maintain_maintain (hbot : value t ≠ ⊥) (hle : t ≤ u) (x : Desk) :
    (x.maintain S t).maintain S u = x.maintain S u := by
  have hgone := S.isGone_mono hbot hle
  have hlined : (x.maintain S t).lined S u = (x.lined S t).dropWhile (S.isGone t) ++
      openBetween S.notes S.all (x.frontier S t) (x.frontier S u) := by
    rw [← frontier_maintain hle x]
    rfl
  have hlapsed : ∀ id, id ∈ x.lapsed S u ↔ id ∈ x.lapsed S t ∨ id ∈ (x.maintain S t).lapsed S u := by
    intro id
    rw [lapsed, lapsed, lapsed, hlined, lined_eq hle]
    exact mem_takeWhile_append_iff hgone _ _ id
  refine Desk.ext ?_ (frontier_maintain hle x) (funext fun id => ?_) rfl (funext fun id => ?_) rfl
  · change ((x.maintain S t).lined S u).dropWhile (S.isGone u) = (x.lined S u).dropWhile (S.isGone u)
    rw [hlined, lined_eq hle]
    exact dropWhile_dropWhile_append hgone _ _
  · change (if id ∈ (x.maintain S t).lapsed S u then none else
      if id ∈ x.lapsed S t then none else x.worst id) = if id ∈ x.lapsed S u then none else x.worst id
    by_cases h1 : id ∈ x.lapsed S t <;> by_cases h2 : id ∈ (x.maintain S t).lapsed S u <;>
      simp [hlapsed, h1, h2]
  · change (if id ∈ (x.maintain S t).lapsed S u then some ⟨.tooLate, none⟩ else
      if id ∈ x.lapsed S t then some ⟨.tooLate, none⟩ else x.ended id) =
        if id ∈ x.lapsed S u then some ⟨.tooLate, none⟩ else x.ended id
    by_cases h1 : id ∈ x.lapsed S t <;> by_cases h2 : id ∈ (x.maintain S t).lapsed S u <;>
      simp [hlapsed, h1, h2]

/-- The queue and the holds do not get into each other's way. -/
theorem maintain_change {x : Desk} (h : x.Steady) {fate : Board → Hold → HoldFate} (hf : Lawful fate)
    (now : Float) : (x.change S fate).maintain S now = (x.maintain S now).change S fate := by
  refine Desk.ext rfl rfl rfl rfl (funext fun id => ?_) rfl
  change (if id ∈ x.lapsed S now then some ⟨.tooLate, none⟩ else
      ((fate .blank (x.hold S id)).ending?).or (x.ended id)) =
    ((fate .blank (x.hold S id)).ending?).or
      (if id ∈ x.lapsed S now then some ⟨.tooLate, none⟩ else x.ended id)
  split_ifs with hlapsed
  · rw [(isEngaged_phase hf .blank (x.hold S id) (h.lapsed hlapsed)).2]
    rfl
  · rfl

/-! ### The holds -/

theorem timeFate_idle (w : Windows) (now : Float) {h : Hold} (hidle : h.phase = .idle) :
    timeFate w now .blank h = .goOn h := by
  unfold timeFate
  rw [hidle]
  rfl

/-- A hold that time has left alone is as it was; one that got its grade gets the same one later. -/
theorem timeFate_cases (w : Windows) (hle : t ≤ u) (h : Hold) :
    timeFate w t .blank h = .goOn h ∨
      ∃ g time, timeFate w t .blank h = .grade g time ∧ timeFate w u .blank h = .grade g time := by
  cases hp : h.phase with
  | idle => exact .inl (timeFate_idle w t hp)
  | holding k g =>
      unfold timeFate
      simp only [hp]
      by_cases hover : h.finish ≤ t
      · exact .inr ⟨_, _, if_pos hover, if_pos (le_of_le_of_le hover hle)⟩
      · exact .inl (if_neg hover)
  | guarded k g released =>
      unfold timeFate
      simp only [hp]
      by_cases hover : h.finish ≤ released + w.holdGrace ∧ h.finish ≤ t
      · exact .inr ⟨_, _, if_pos hover, if_pos ⟨hover.1, le_of_le_of_le hover.2 hle⟩⟩
      · rw [if_neg hover]
        by_cases hlost : w.holdGrace < t - released
        · -- The grace period is over at `t`, so that the end of the hold cannot come first any more.
          have hexpired : released + w.holdGrace ≤ t := add_le_of_lt_sub hlost
          have hlater : ¬ (h.finish ≤ released + w.holdGrace ∧ h.finish ≤ u) :=
            fun hend => hover ⟨hend.1, le_of_le_of_le hend.1 hexpired⟩
          refine .inr ⟨_, _, if_pos hlost, ?_⟩
          rw [if_neg hlater, if_pos (lt_sub_of_lt_sub hle hlost)]
        · exact .inl (if_neg hlost)

/-- The holds do not notice whether they were told the time on the way. -/
theorem change_change (hle : t ≤ u) (x : Desk) :
    (x.change S (timeFate S.windows t)).change S (timeFate S.windows u) =
      x.change S (timeFate S.windows u) := by
  have hpoint : ∀ id, ((timeFate S.windows u .blank
        ((x.change S (timeFate S.windows t)).hold S id)).phase =
          (timeFate S.windows u .blank (x.hold S id)).phase) ∧
      ((timeFate S.windows u .blank ((x.change S (timeFate S.windows t)).hold S id)).ending?).or
        (timeFate S.windows t .blank (x.hold S id)).ending? =
          (timeFate S.windows u .blank (x.hold S id)).ending? := by
    intro id
    have hhold : (x.change S (timeFate S.windows t)).hold S id = { x.hold S id with
        phase := (timeFate S.windows t .blank (x.hold S id)).phase } := rfl
    rw [hhold]
    rcases timeFate_cases S.windows hle (x.hold S id) with hkept | ⟨g, time, hthen, hnow⟩
    · rw [hkept]
      exact ⟨rfl, Option.or_none⟩
    · rw [hthen, hnow, timeFate_idle S.windows u rfl]
      exact ⟨rfl, rfl⟩
  refine Desk.ext rfl rfl rfl rfl (funext fun id => ?_) (funext fun id => (hpoint id).1)
  change ((timeFate S.windows u .blank ((x.change S (timeFate S.windows t)).hold S id)).ending?).or
      (((timeFate S.windows t .blank (x.hold S id)).ending?).or (x.ended id)) = _
  rw [← Option.or_assoc, (hpoint id).2]
  rfl

/-! ### The desk -/

/-- Being told the time on the way changes nothing. -/
theorem settle_settle (hbot : value t ≠ ⊥) (hle : t ≤ u) {x : Desk} (h : x.Steady) :
    (x.settle S t).settle S u = x.settle S u := by
  unfold settle
  rw [maintain_change (h.maintain t) (lawful_timeFate _ _), maintain_maintain hbot hle,
    change_change hle]

/-- A release at a time is the same whether the queue was told the time before. -/
theorem settle_release {x : Desk} (h : x.Steady) (key : Key) (t : Float) :
    (x.release S key t).settle S t =
      ((x.settle S t).change S (releaseFate S.windows key t)).change S (timeFate S.windows t) := by
  have htime := lawful_timeFate S.windows t
  unfold release settle
  rw [maintain_change (h.change htime) (lawful_releaseFate _ _ _), maintain_change h htime]

/-- Two desks that are the same once they are told the time. -/
def Agree (S : Sheet) (t : Float) (x y : Desk) : Prop := x.settle S t = y.settle S t

theorem Agree.later {x y : Desk} (h : Agree S t x y) (hbot : value t ≠ ⊥) (hle : t ≤ u)
    (hx : x.Steady) (hy : y.Steady) : Agree S u x y := by
  unfold Agree at h ⊢
  rw [← settle_settle hbot hle hx, h, settle_settle hbot hle hy]

/-- Desks that agree at some time agree after any later edge. -/
theorem Agree.edge {x y : Desk} {e : Edge} (h : Agree S t x y) (hbot : value t ≠ ⊥)
    (hle : t ≤ e.time) (hx : x.Steady) (hy : y.Steady) :
    Agree S e.time (x.edge S e) (y.edge S e) := by
  have hnow : Agree S e.time x y := h.later hbot hle hx hy
  unfold Desk.edge
  split_ifs
  · unfold Agree at hnow ⊢
    unfold press
    rw [hnow]
  · unfold Agree at hnow ⊢
    rw [settle_release hx, settle_release hy, hnow]

end Desk

end RhythmChart
