import RhythmChart.Proofs.Flow.Interpreter

/-! # Tables of constructs

What is found in a table of constructs: the innermost one that satisfies a test, all that do, innermost
first, and the first one at each anchor.

Main statements.

* `innermost?_some`: what is found is as deep as all others that satisfy the test;
* `innermostFirst_cons`: which place comes first;
* `anchors_firstPerAnchor`: no two constructs of a table have the same anchor. -/

namespace RhythmChart

/-! ### Depth -/

namespace Construct

theorem covers_iff (k : Construct) (i : Nat) :
    k.covers i = true ↔ ∃ b, k.body = some b ∧ b.first ≤ i ∧ i ≤ b.last := by
  unfold covers Body.contains
  cases k.body with
  | none => simp
  | some b => simp

theorem endsAt_iff (k : Construct) (i : Nat) :
    k.endsAt i = true ↔ ∃ b, k.body = some b ∧ b.last = i := by
  unfold endsAt
  cases k.body with
  | none => simp
  | some b => simp

theorem atOrInside_iff (c d : Construct) :
    c.atOrInside d = true ↔ c.indent < d.indent ∨ c.indent = d.indent ∧ c.index ≤ d.index := by
  simp [atOrInside]

theorem atOrInside_trans {c d e : Construct} (h : c.atOrInside d = true)
    (h' : d.atOrInside e = true) : c.atOrInside e = true := by
  rw [atOrInside_iff] at h h' ⊢
  omega

theorem atOrInside_total (c d : Construct) : c.atOrInside d = true ∨ d.atOrInside c = true := by
  rw [atOrInside_iff, atOrInside_iff]
  omega

/-- Of two constructs at different rows one is deeper. -/
theorem index_eq_of_atOrInside {c d : Construct} (h : c.atOrInside d = true)
    (h' : d.atOrInside c = true) : c.index = d.index := by
  rw [atOrInside_iff] at h h'
  omega

end Construct

section Tables

variable {α β : Type} {site : α → Construct} {test : α → Bool} {xs : List α}

/-! ### The innermost construct -/

theorem innermostFrom_eq_none_iff (i : Nat) (best : Option (Nat × α)) :
    innermostFrom site test xs i best = none ↔ best = none ∧ ∀ x ∈ xs, test x = false := by
  induction xs generalizing i best with
  | nil => simp [innermostFrom]
  | cons x xs ih =>
      rw [innermostFrom, ih]
      cases hx : test x with
      | false => simp [hx]
      | true =>
          cases best with
          | none => simp [hx]
          | some b =>
              simp only [Bool.true_and, Option.all_some]
              split_ifs <;> simp [hx]

theorem innermost?_eq_none_iff :
    innermost? site test xs = none ↔ ∀ x ∈ xs, test x = false := by
  rw [innermost?, innermostFrom_eq_none_iff]
  simp

theorem innermostFrom_some {i p : Nat} {best : Option (Nat × α)} {x : α}
    (h : innermostFrom site test xs i best = some (p, x)) :
    (best = some (p, x) ∨ ∃ d, p = i + d ∧ xs[d]? = some x ∧ test x = true) ∧
      (∀ b, best = some b → (site b.2).atOrInside (site x) = true) ∧
      ∀ y ∈ xs, test y = true → (site y).atOrInside (site x) = true := by
  induction xs generalizing i best with
  | nil =>
      rw [innermostFrom] at h
      subst h
      refine ⟨.inl rfl, fun b hb => ?_, fun y hy => (nomatch hy)⟩
      obtain rfl := Option.some.inj hb
      exact (Construct.atOrInside_total _ _).elim id id
  | cons y ys ih =>
      rw [innermostFrom] at h
      by_cases hbetter : (test y && best.all fun b => (site b.2).atOrInside (site y)) = true
      · rw [if_pos hbetter] at h
        rw [Bool.and_eq_true] at hbetter
        obtain ⟨hfound, hbest, hrest⟩ := ih h
        have hy := hbest _ rfl
        refine ⟨.inr ?_, fun b hb => ?_, fun z hz htest => ?_⟩
        · rcases hfound with hfound | ⟨d, rfl, hd, htest⟩
          · obtain ⟨rfl, rfl⟩ := Prod.mk.inj (Option.some.inj hfound)
            exact ⟨0, rfl, rfl, hbetter.1⟩
          · exact ⟨d + 1, by omega, by simpa using hd, htest⟩
        · have := hbetter.2
          rw [hb, Option.all_some] at this
          exact Construct.atOrInside_trans this hy
        · cases hz with
          | head => exact hy
          | tail _ hz => exact hrest z hz htest
      · rw [if_neg hbetter] at h
        obtain ⟨hfound, hbest, hrest⟩ := ih h
        refine ⟨hfound.imp_right fun ⟨d, hp, hd, htest⟩ => ⟨d + 1, by omega, by simpa using hd, htest⟩,
          hbest, fun z hz htest => ?_⟩
        cases hz with
        | tail _ hz => exact hrest z hz htest
        | head =>
            -- The best so far is deeper than a construct that is not better.
            cases hb : best with
            | none => exact absurd (by simp [hb, htest]) hbetter
            | some b =>
                rw [hb, htest, Bool.true_and, Option.all_some] at hbetter
                exact Construct.atOrInside_trans
                  ((Construct.atOrInside_total _ _).resolve_right hbetter) (hbest b hb)

/-- The innermost construct that satisfies a test, with its place. -/
theorem innermost?_some {p : Nat} {x : α} (h : innermost? site test xs = some (p, x)) :
    xs[p]? = some x ∧ test x = true ∧
      ∀ y ∈ xs, test y = true → (site y).atOrInside (site x) = true := by
  obtain ⟨hfound, -, hrest⟩ := innermostFrom_some h
  rcases hfound with hfound | ⟨d, rfl, hd, htest⟩
  · cases hfound
  · exact ⟨by simpa using hd, htest, hrest⟩

/-- A construct that alone satisfies a test is the innermost. -/
theorem innermost?_eq_some {p : Nat} {x : α} (hp : xs[p]? = some x) (hx : test x = true)
    (honly : ∀ (q : Nat) (y : α), xs[q]? = some y → test y = true → q = p) :
    innermost? site test xs = some (p, x) := by
  cases h : innermost? site test xs with
  | none =>
      have := innermost?_eq_none_iff.mp h x (List.mem_of_getElem? hp)
      rw [hx] at this
      cases this
  | some found =>
      obtain ⟨hq, htest, -⟩ := innermost?_some h
      have heq : found.1 = p := honly found.1 found.2 hq htest
      rw [heq, hp] at hq
      rw [← heq, Option.some.inj hq]

/-! ### Innermost first -/

theorem mem_indicesFrom (i p : Nat) :
    p ∈ indicesFrom test xs i ↔ ∃ d x, p = i + d ∧ xs[d]? = some x ∧ test x = true := by
  induction xs generalizing i with
  | nil => simp [indicesFrom]
  | cons y ys ih =>
      have hsplit : (∃ d x, p = i + d ∧ (y :: ys)[d]? = some x ∧ test x = true) ↔
          (p = i ∧ test y = true) ∨ ∃ d x, p = i + 1 + d ∧ ys[d]? = some x ∧ test x = true := by
        constructor
        · rintro ⟨d, x, rfl, hd, hx⟩
          cases d with
          | zero =>
              obtain rfl := Option.some.inj hd
              exact .inl ⟨rfl, hx⟩
          | succ d => exact .inr ⟨d, x, by omega, by simpa using hd, hx⟩
        · rintro (⟨rfl, hy⟩ | ⟨d, x, rfl, hd, hx⟩)
          · exact ⟨0, y, rfl, rfl, hy⟩
          · exact ⟨d + 1, x, by omega, by simpa using hd, hx⟩
      rw [hsplit, ← ih, indicesFrom]
      cases hy : test y with
      | true => simp
      | false => simp

theorem nodup_indicesFrom (i : Nat) : (indicesFrom test xs i).Nodup := by
  induction xs generalizing i with
  | nil => exact List.nodup_nil
  | cons y ys ih =>
      rw [indicesFrom]
      split_ifs
      · refine List.nodup_cons.mpr ⟨fun h => ?_, ih _⟩
        obtain ⟨d, x, hd, -⟩ := (mem_indicesFrom _ _).mp h
        omega
      · exact ih _

theorem mem_innermostFirst (p : Nat) :
    p ∈ innermostFirst site test xs ↔ ∃ x, xs[p]? = some x ∧ test x = true := by
  rw [innermostFirst, List.mem_mergeSort, mem_indicesFrom]
  constructor
  · rintro ⟨d, x, rfl, hd, hx⟩
    exact ⟨x, by simpa using hd, hx⟩
  · rintro ⟨x, hp, hx⟩
    exact ⟨p, x, by omega, hp, hx⟩

theorem nodup_innermostFirst : (innermostFirst site test xs).Nodup :=
  ((List.mergeSort_perm _ _).nodup_iff).mpr (nodup_indicesFrom 0)

/-- The construct at a place of a table; any will do where there is none. -/
def siteAt (site : α → Construct) (xs : List α) (p : Nat) : Construct :=
  ((xs[p]?).map site).getD ⟨0, 0, 0, none, none⟩

theorem siteAt_of_getElem? {p : Nat} {x : α} (h : xs[p]? = some x) : siteAt site xs p = site x := by
  rw [siteAt, h]
  rfl

theorem pairwise_innermostFirst :
    (innermostFirst site test xs).Pairwise fun p q =>
      (siteAt site xs q).atOrInside (siteAt site xs p) = true := by
  have heq : innermostFirst site test xs = (indicesFrom test xs 0).mergeSort fun p q =>
      (siteAt site xs q).atOrInside (siteAt site xs p) := by
    unfold innermostFirst
    rw [← List.map_id (List.mergeSort _ _)]
    refine (List.map_mergeSort (f := id)
      (s := fun p q => (siteAt site xs q).atOrInside (siteAt site xs p)) fun p hp q hq => ?_).trans
        (by rw [List.map_id])
    obtain ⟨d, x, rfl, hx, -⟩ := (mem_indicesFrom _ _).mp hp
    obtain ⟨e, y, rfl, hy, -⟩ := (mem_indicesFrom _ _).mp hq
    simp only [Nat.zero_add, id_eq]
    rw [siteAt_of_getElem? hx, siteAt_of_getElem? hy, hx, hy]
  rw [heq]
  refine List.pairwise_mergeSort (fun p q s hpq hqs => ?_) (fun p q => ?_) _
  · exact Construct.atOrInside_trans hqs hpq
  · rw [Bool.or_eq_true]
    exact Construct.atOrInside_total _ _

theorem indicesFrom_congr {test' : α → Bool} (h : ∀ x ∈ xs, test x = test' x) (i : Nat) :
    indicesFrom test xs i = indicesFrom test' xs i := by
  induction xs generalizing i with
  | nil => rfl
  | cons y ys ih =>
      rw [indicesFrom, indicesFrom, h y List.mem_cons_self,
        ih fun x hx => h x (List.mem_cons_of_mem _ hx)]

theorem innermostFirst_congr {test' : α → Bool} (h : ∀ x ∈ xs, test x = test' x) :
    innermostFirst site test xs = innermostFirst site test' xs := by
  rw [innermostFirst, innermostFirst, indicesFrom_congr h]

theorem indicesFrom_map (f : α → β) (test : β → Bool) (i : Nat) :
    indicesFrom test (xs.map f) i = indicesFrom (fun x => test (f x)) xs i := by
  induction xs generalizing i with
  | nil => rfl
  | cons y ys ih => rw [List.map_cons, indicesFrom, indicesFrom, ih]

theorem innermostFirst_map (f : α → β) (site : β → Construct) (test : β → Bool) :
    innermostFirst site test (xs.map f) =
      innermostFirst (fun x => site (f x)) (fun x => test (f x)) xs := by
  rw [innermostFirst, innermostFirst, indicesFrom_map]
  congr 1
  funext p q
  rw [List.getElem?_map, List.getElem?_map]
  cases xs[p]? <;> cases xs[q]? <;> rfl

/-- The place that comes first when one more construct, the deepest, satisfies the test. -/
theorem innermostFirst_cons {test' : α → Bool} {p : Nat} {x : α} (hp : xs[p]? = some x)
    (hx : test' x = false)
    (htest : ∀ (q : Nat) (y : α), xs[q]? = some y → (test y = true ↔ q = p ∨ test' y = true))
    (hdeep : ∀ y ∈ xs, test' y = true → (site y).atOrInside (site x) = true)
    (hindex : ∀ (q q' : Nat) (y y' : α), xs[q]? = some y → xs[q']? = some y' →
      (site y).index = (site y').index → q = q') :
    innermostFirst site test xs = p :: innermostFirst site test' xs := by
  have hnot : p ∉ innermostFirst site test' xs := by
    intro hmem
    obtain ⟨y, hy, htest'⟩ := (mem_innermostFirst p).mp hmem
    rw [hp] at hy
    rw [← Option.some.inj hy, hx] at htest'
    cases htest'
  have hmem : ∀ q, q ∈ innermostFirst site test xs ↔ q ∈ p :: innermostFirst site test' xs := by
    intro q
    rw [List.mem_cons, mem_innermostFirst, mem_innermostFirst]
    constructor
    · rintro ⟨y, hy, hq⟩
      exact ((htest q y hy).mp hq).imp_right fun h => ⟨y, hy, h⟩
    · rintro (rfl | ⟨y, hy, hq⟩)
      · exact ⟨x, hp, (htest q x hp).mpr (.inl rfl)⟩
      · exact ⟨y, hy, (htest q y hy).mpr (.inr hq)⟩
  refine List.Perm.eq_of_pairwise (fun q s hq hs hqs hsq => ?_) pairwise_innermostFirst
    (List.pairwise_cons.mpr ⟨fun q hq => ?_, pairwise_innermostFirst⟩)
    ((List.perm_ext_iff_of_nodup nodup_innermostFirst
      (List.nodup_cons.mpr ⟨hnot, nodup_innermostFirst⟩)).mpr hmem)
  · obtain ⟨y, hy, -⟩ := (mem_innermostFirst q).mp hq
    obtain ⟨z, hz, -⟩ := (mem_innermostFirst s).mp ((hmem s).mpr hs)
    rw [siteAt_of_getElem? hy, siteAt_of_getElem? hz] at hqs hsq
    exact hindex q s y z hy hz (Construct.index_eq_of_atOrInside hsq hqs)
  · obtain ⟨y, hy, hq⟩ := (mem_innermostFirst q).mp hq
    rw [siteAt_of_getElem? hy, siteAt_of_getElem? hp]
    exact hdeep y (List.mem_of_getElem? hy) hq

/-! ### One construct at each anchor -/

theorem anchors_firstPerAnchor (site : α → Construct) (xs : List α) :
    ((firstPerAnchor site xs).map fun x => (site x).anchor).Nodup := by
  unfold firstPerAnchor
  suffices ∀ table : List α, (table.map fun x => (site x).anchor).Nodup →
      ((xs.foldl (fun table x => (insert? site table x).getD table) table).map
        fun x => (site x).anchor).Nodup from this [] List.nodup_nil
  induction xs with
  | nil => exact fun _ h => h
  | cons x xs ih =>
      intro table htable
      refine ih _ ?_
      dsimp only
      unfold insert?
      split_ifs with htaken
      · exact htable
      · rw [Option.getD_some, List.map_append]
        refine List.nodup_append'.mpr ⟨htable, List.nodup_singleton _, ?_⟩
        intro anchor hanchor hnew
        obtain rfl := List.mem_singleton.mp hnew
        obtain ⟨y, hy, hsame⟩ := List.mem_map.mp hanchor
        exact htaken (List.any_eq_true.mpr ⟨y, hy, by simpa using hsame⟩)

theorem mem_of_mem_firstPerAnchor {site : α → Construct} {xs : List α} {x : α}
    (h : x ∈ firstPerAnchor site xs) : x ∈ xs := by
  unfold firstPerAnchor at h
  suffices ∀ table : List α,
      x ∈ xs.foldl (fun table x => (insert? site table x).getD table) table → x ∈ table ∨ x ∈ xs from
    (this [] h).resolve_left (nomatch ·)
  clear h
  induction xs with
  | nil => exact fun _ h => .inl h
  | cons y ys ih =>
      intro table h
      rcases ih _ h with hin | hin
      · dsimp only at hin
        unfold insert? at hin
        split_ifs at hin with htaken
        · exact .inl hin
        · rw [Option.getD_some] at hin
          rcases List.mem_append.mp hin with hold | hnew
          · exact .inl hold
          · exact .inr (List.mem_singleton.mp hnew ▸ List.mem_cons_self)
      · exact .inr (List.mem_cons_of_mem _ hin)

end Tables

end RhythmChart
