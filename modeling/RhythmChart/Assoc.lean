/-! # Association lists

Finite maps as lists of pairs, each key at most once, in the order in which keys were first put.
Reading is `List.lookup`. -/

namespace RhythmChart.Assoc

variable {κ α : Type} [BEq κ]

/-- The map with `key` sent to `value`. -/
def put (key : κ) (value : α) : List (κ × α) → List (κ × α)
  | [] => [(key, value)]
  | (k, v) :: rest => if k == key then (key, value) :: rest else (k, v) :: put key value rest

/-- The map without `key`. -/
def drop (key : κ) (entries : List (κ × α)) : List (κ × α) :=
  entries.filter fun e => !(e.1 == key)

/-- What was put is read back. -/
@[simp]
theorem lookup_put_self [LawfulBEq κ] (key : κ) (value : α) (entries : List (κ × α)) :
    (put key value entries).lookup key = some value := by
  induction entries with
  | nil => simp [put]
  | cons e rest ih =>
      obtain ⟨k, v⟩ := e
      by_cases h : k = key
      · subst h
        simp [put]
      · have hk : (key == k) = false := by simpa using fun e => h e.symm
        simp [put, h, List.lookup_cons, hk, ih]

/-- Putting a key leaves the others alone. -/
theorem lookup_put_of_ne [LawfulBEq κ] {key other : κ} (h : other ≠ key) (value : α)
    (entries : List (κ × α)) : (put key value entries).lookup other = entries.lookup other := by
  induction entries with
  | nil =>
      have ho : (other == key) = false := by simpa using h
      simp [put, List.lookup_cons, ho]
  | cons e rest ih =>
      obtain ⟨k, v⟩ := e
      by_cases hk : k = key
      · subst hk
        have ho : (other == k) = false := by simpa using h
        simp [put, List.lookup_cons, ho]
      · simp [put, hk, List.lookup_cons, ih]

/-- What was dropped is not read back, the other keys are left alone. -/
theorem lookup_drop [LawfulBEq κ] [DecidableEq κ] (key other : κ) (entries : List (κ × α)) :
    (drop key entries).lookup other = if other = key then none else entries.lookup other := by
  induction entries with
  | nil => simp [drop]
  | cons e rest ih =>
      obtain ⟨k, v⟩ := e
      unfold drop at ih ⊢
      by_cases hk : k = key
      · subst hk
        rw [List.filter_cons_of_neg (by simp), ih]
        by_cases ho : other = k
        · simp [ho]
        · have : (other == k) = false := by simpa using ho
          simp [ho, List.lookup_cons, this]
      · rw [List.filter_cons_of_pos (by simpa using hk), List.lookup_cons, List.lookup_cons]
        by_cases ho : other = k
        · subst ho
          simp [hk]
        · have : (other == k) = false := by simpa using ho
          simp [this, ih]

end RhythmChart.Assoc
