/-! # The boundary of a predicate

An array is partitioned by a predicate when the elements that satisfy it come first.  `boundary`
finds, by halving, the index of the first element that does not, between two given indices.

Main statements.

* `boundary_mem`: the boundary lies between the given indices;
* `sat_of_lt_boundary` and `not_sat_of_boundary_le`: on a partitioned array, an element between the
  given indices satisfies the predicate exactly when it stands before the boundary;
* `boundary_eq`: the boundary is known by that. -/

namespace RhythmChart

variable {α : Type}

/-- The index of the first element of `xs` from `low` up to `high` that fails `p`, if those that
satisfy it come first; `high` if none fails. -/
def boundary (p : α → Bool) (xs : Array α) (low high : Nat) : Nat :=
  if low < high then
    let middle := (low + high) / 2
    match xs[middle]? with
    | some x => if p x then boundary p xs (middle + 1) high else boundary p xs low middle
    | none => boundary p xs low middle
  else low
termination_by high - low

/-- The boundary lies between the given indices. -/
theorem boundary_mem (p : α → Bool) (xs : Array α) (low high : Nat) (h : low ≤ high) :
    low ≤ boundary p xs low high ∧ boundary p xs low high ≤ high := by
  fun_induction boundary p xs low high with
  | case1 low high hlt middle x hx hp ih =>
      have := ih (by omega)
      omega
  | case2 low high hlt middle x hx hp ih =>
      have := ih (by omega)
      omega
  | case3 low high hlt middle hx ih =>
      have := ih (by omega)
      omega
  | case4 low high hlt => omega

/-- The elements of `xs` that satisfy `p` come first. -/
def Partitioned (p : α → Bool) (xs : Array α) : Prop :=
  ∀ i j (hi : i < xs.size) (hj : j < xs.size), i ≤ j → p xs[j] = true → p xs[i] = true

/-- An element before the boundary satisfies the predicate. -/
theorem sat_of_lt_boundary {p : α → Bool} {xs : Array α} (hp : Partitioned p xs) {low high i : Nat}
    (hlow : low ≤ i) (hi : i < xs.size) (h : i < boundary p xs low high) : p xs[i] = true := by
  fun_induction boundary p xs low high with
  | case1 low high hlt middle x hx hsat ih =>
      obtain ⟨hm, rfl⟩ := Array.getElem?_eq_some_iff.mp hx
      by_cases him : i ≤ middle
      · exact hp i middle hi hm him hsat
      · exact ih (by omega) h
  | case2 low high hlt middle x hx hsat ih => exact ih hlow h
  | case3 low high hlt middle hx ih => exact ih hlow h
  | case4 low high hlt => omega

/-- An element from the boundary on, before the upper index, fails the predicate. -/
theorem not_sat_of_boundary_le {p : α → Bool} {xs : Array α} (hp : Partitioned p xs)
    {low high i : Nat} (hhigh : i < high) (hi : i < xs.size) (h : boundary p xs low high ≤ i) :
    p xs[i] = false := by
  fun_induction boundary p xs low high with
  | case1 low high hlt middle x hx hsat ih => exact ih hhigh h
  | case2 low high hlt middle x hx hsat ih =>
      obtain ⟨hm, rfl⟩ := Array.getElem?_eq_some_iff.mp hx
      by_cases him : i < middle
      · exact ih him h
      · exact Bool.eq_false_iff.mpr fun hsati =>
          hsat (hp middle i hm hi (by omega) hsati)
  | case3 low high hlt middle hx ih =>
      have hsize : xs.size ≤ middle := Array.getElem?_eq_none_iff.mp hx
      exact ih (by omega) h
  | case4 low high hlt => omega

/-- Where a predicate changes from true to false is its boundary. -/
theorem boundary_eq {p : α → Bool} {xs : Array α} {k : Nat} (hk : k ≤ xs.size)
    (hsat : ∀ i (h : i < xs.size), i < k → p xs[i] = true)
    (hnot : ∀ i (h : i < xs.size), k ≤ i → p xs[i] = false) : boundary p xs 0 xs.size = k := by
  have hpart : Partitioned p xs := by
    intro i j hi hj hij hp
    by_cases hik : i < k
    · exact hsat i hi hik
    · rw [hnot j hj (by omega)] at hp
      cases hp
  have hmem := boundary_mem p xs 0 xs.size (Nat.zero_le _)
  rcases Nat.lt_trichotomy (boundary p xs 0 xs.size) k with hlt | heq | hgt
  · have h1 := not_sat_of_boundary_le hpart (by omega) (by omega) (Nat.le_refl (boundary p xs 0 xs.size))
    have h2 := hsat (boundary p xs 0 xs.size) (by omega) hlt
    rw [h1] at h2
    cases h2
  · exact heq
  · have h1 := sat_of_lt_boundary hpart (Nat.zero_le k) (by omega) hgt
    rw [hnot k (by omega) (Nat.le_refl k)] at h1
    cases h1

/-- An element of an array whose keys fall is where the greater keys end. -/
theorem boundary_of_falling {f : α → Int} {xs : Array α}
    (h : ∀ i j (hi : i < xs.size) (hj : j < xs.size), i < j → f xs[j] < f xs[i]) {i : Nat}
    (hi : i < xs.size) : boundary (fun x => decide (f xs[i] < f x)) xs 0 xs.size = i := by
  refine boundary_eq (Nat.le_of_lt hi) (fun j hj hlt => ?_) (fun j hj hle => ?_)
  · exact decide_eq_true (h j i hj hi hlt)
  · rcases Nat.eq_or_lt_of_le hle with rfl | hlt
    · exact decide_eq_false (Int.lt_irrefl _)
    · exact decide_eq_false (Int.not_lt.mpr (Int.le_of_lt (h i j hi hj hlt)))

/-- The boundary of what is made of the elements. -/
theorem boundary_map {β : Type} (f : α → β) (p : β → Bool) (xs : Array α) (low high : Nat) :
    boundary p (xs.map f) low high = boundary (fun x => p (f x)) xs low high := by
  fun_induction boundary (fun x => p (f x)) xs low high with
  | case1 low high hlt middle x hx hp ih =>
      have hget : (xs.map f)[(low + high) / 2]? = some (f x) := by simpa using ⟨x, hx, rfl⟩
      rw [boundary, if_pos hlt]
      simp only [hget, hp, if_true]
      exact ih
  | case2 low high hlt middle x hx hp ih =>
      have hget : (xs.map f)[(low + high) / 2]? = some (f x) := by simpa using ⟨x, hx, rfl⟩
      rw [boundary, if_pos hlt]
      simp only [hget, hp]
      exact ih
  | case3 low high hlt middle hx ih =>
      have hget : (xs.map f)[(low + high) / 2]? = none := by simpa using hx
      rw [boundary, if_pos hlt]
      simp only [hget]
      exact ih
  | case4 low high hlt => rw [boundary, if_neg hlt]

/-- The boundary of a later part of an array. -/
theorem boundary_add (p : α → Bool) (xs : Array α) (base low high : Nat) :
    boundary p xs (base + low) (base + high) =
      base + boundary p (xs.extract base xs.size) low high := by
  have hmiddle : ∀ l h : Nat, (base + l + (base + h)) / 2 = base + (l + h) / 2 := by omega
  have hget : ∀ {i : Nat} {x : α}, (xs.extract base xs.size)[i]? = some x → xs[base + i]? = some x := by
    intro i x hx
    rw [Array.getElem?_extract] at hx
    split at hx
    · exact hx
    · cases hx
  fun_induction boundary p (xs.extract base xs.size) low high with
  | case1 low high hlt middle x hx hp ih =>
      have hx : xs[base + (low + high) / 2]? = some x := hget hx
      rw [boundary, if_pos (by omega), hmiddle]
      simp only [hx, hp, if_true]
      exact ih
  | case2 low high hlt middle x hx hp ih =>
      have hx : xs[base + (low + high) / 2]? = some x := hget hx
      rw [boundary, if_pos (by omega), hmiddle]
      simp only [hx, hp]
      exact ih
  | case3 low high hlt middle hx ih =>
      have hx : xs[base + (low + high) / 2]? = none := by
        rw [Array.getElem?_eq_none_iff, Array.size_extract] at hx
        exact Array.getElem?_eq_none_iff.mpr (by omega)
      rw [boundary, if_pos (by omega), hmiddle]
      simp only [hx]
      exact ih
  | case4 low high hlt => rw [boundary, if_neg (by omega)]

end RhythmChart
