import Mathlib
import RhythmChart.Flow.Traversal

/-! # Playing a chart by its structure

The body of a construct is a run of rows, so that a chart is a nest of runs.  It can be played without
a traversal: a run is played from its first row to its last, the body of a conditional is passed over
if the next code says so, and the body of a loop is played as often as its codes say.

* `Layout` is what never changes in a traversal: the rows and where the constructs are;
* `Layout.around?` is the loop directly around a row;
* `Reading` is how far the codes are used up;
* `Layout.play` plays a run of rows. -/

namespace RhythmChart

/-- What never changes in a traversal: the row ids in playing order, and the constructs with their
codes. -/
structure Layout where
  rows : Array Int
  loops : List (Construct × List Nat)
  conditionals : List (Construct × List Bool)

/-- The layout of a traversal. -/
def Traversal.layout (t : Traversal) : Layout where
  rows := t.rows
  loops := t.loops.map fun l => (l.toConstruct, l.codes)
  conditionals := t.conditionals.map fun b => (b.toConstruct, b.codes)

/-- How far codes are used up, by the places of the rows: how many codes a conditional has read, which
code a loop points at, and whether a loop is exhausted. -/
structure Reading where
  read : Nat → Nat
  pointer : Nat → Nat
  exhausted : Nat → Bool

namespace Reading

/-- Nothing is used up. -/
def start : Reading := ⟨fun _ => 0, fun _ => 0, fun _ => false⟩

/-- A visit of row `i` uses up one code of a conditional there. -/
def visit (r : Reading) (i : Nat) : Reading :=
  { r with read := Function.update r.read i (r.read i + 1) }

/-- The loop at row `i` has finished a visit; on its last code that exhausts it. -/
def finish (r : Reading) (i : Nat) (codes : List Nat) : Reading :=
  if codes.length ≤ r.pointer i + 1 then
    { r with exhausted := Function.update r.exhausted i true }
  else r

theorem read_visit_self (r : Reading) (i : Nat) : (r.visit i).read i = r.read i + 1 :=
  Function.update_self _ _ _

theorem read_visit_of_ne (r : Reading) {i j : Nat} (h : j ≠ i) : (r.visit i).read j = r.read j :=
  Function.update_of_ne h _ _

theorem exhausted_finish (r : Reading) (i : Nat) (codes : List Nat) :
    (r.finish i codes).exhausted i =
      (r.exhausted i || decide (codes.length ≤ r.pointer i + 1)) := by
  unfold finish
  split
  next h => simp [h]
  next h => simp [h]

theorem exhausted_finish_of_ne (r : Reading) {i j : Nat} (h : j ≠ i) (codes : List Nat) :
    (r.finish i codes).exhausted j = r.exhausted j := by
  unfold finish
  split
  next => exact Function.update_of_ne h _ _
  next => rfl

theorem pointer_finish (r : Reading) (i : Nat) (codes : List Nat) :
    (r.finish i codes).pointer = r.pointer := by
  unfold finish
  split <;> rfl

theorem read_finish (r : Reading) (i : Nat) (codes : List Nat) :
    (r.finish i codes).read = r.read := by
  unfold finish
  split <;> rfl

end Reading

namespace Layout

/-- The number of rows in the body of a construct at row `i`, and its codes. -/
def bodyAt? {α : Type} (sites : List (Construct × α)) (i : Nat) : Option (Nat × α) :=
  (sites.find? fun k => k.1.index == i).bind fun k => k.1.body.map fun b => (b.size, k.2)

/-- The loop with a body at row `i`. -/
def loop? (L : Layout) (i : Nat) : Option (Nat × List Nat) := bodyAt? L.loops i

/-- The conditional with a body at row `i`. -/
def conditional? (L : Layout) (i : Nat) : Option (Nat × List Bool) := bodyAt? L.conditionals i

/-- Whether row `i` is in the body of a loop at row `j`. -/
def isAround (L : Layout) (i j : Nat) : Bool :=
  (L.loop? j).any fun l => decide (j < i ∧ i ≤ j + l.1)

/-- The place of the innermost loop around row `i`: of nested bodies the inner one begins last. -/
def around? (L : Layout) (i : Nat) : Option Nat := (List.range i).reverse.find? (L.isAround i)

/-- The number of rows that a conditional at row `i` passes over, if it does.  Past the end of its codes
it reads `0`. -/
def passedOver? (L : Layout) (r : Reading) (i : Nat) : Option Nat :=
  (L.conditional? i).bind fun b => if b.2[r.read i]?.getD false then none else some b.1

/-- How often a loop at row `i` plays its body: the sum of its codes, cut to 32 bits, if there is no
loop around it, else the code that it points at. -/
def passes (L : Layout) (r : Reading) (i : Nat) (codes : List Nat) : Nat :=
  if (L.around? i).isNone then min codes.sum Number.maxCount
  else if r.exhausted i then 0
  else codes[r.pointer i]?.getD 0

/-- The loop at row `outer` starts another pass: the loops directly inside it point at their next code,
and are exhausted when there is none. -/
def nextPass (L : Layout) (outer : Nat) (r : Reading) : Reading :=
  { r with
    pointer := fun i => if L.around? i = some outer then r.pointer i + 1 else r.pointer i
    exhausted := fun i => r.exhausted i || (decide (L.around? i = some outer) &&
      (L.loop? i).any fun l => decide (l.2.length ≤ r.pointer i + 1)) }

/-- Plays a body the given number of times, with something done between the passes. -/
def repeated (body : Reading → List Nat × Reading) (between : Reading → Reading) :
    Nat → Reading → List Nat × Reading
  | 0, r => ([], r)
  | 1, r => body r
  | n + 2, r =>
    let pass := body r
    let more := repeated body between (n + 1) (between pass.2)
    (pass.1 ++ more.1, more.2)

/-- Plays the rows from `i` on, up to but not including `stop`.  Gives the places of the rows that are
visited, and how far codes are used up after that. -/
def play (L : Layout) (i stop : Nat) (r : Reading) : List Nat × Reading :=
  if i < stop then
    match L.passedOver? r i with
    | some size =>
      let rest := L.play (i + 1 + size) stop (r.visit i)
      (i :: rest.1, rest.2)
    | none =>
      match L.loop? i with
      | some (size, codes) =>
        let inside := repeated (fun r => L.play (i + 1) (min (i + 1 + size) stop) r) (L.nextPass i)
          (L.passes r i codes) (r.visit i)
        let rest := L.play (i + 1 + size) stop (inside.2.finish i codes)
        (i :: (inside.1 ++ rest.1), rest.2)
      | none =>
        let rest := L.play (i + 1) stop (r.visit i)
        (i :: rest.1, rest.2)
  else ([], r)
termination_by stop - i

/-- The ids of the rows at some places. -/
def ids (L : Layout) (places : List Nat) : List Int := places.filterMap fun i => L.rows[i]?

/-- The ids of the rows that are visited when the whole chart is played. -/
def playedRows (L : Layout) : List Int := L.ids (L.play 0 L.rows.size .start).1

/-! ### Playing runs -/

variable (L : Layout) {i stop size : Nat} {codes : List Nat} {r : Reading}

theorem ids_append (places places' : List Nat) :
    L.ids (places ++ places') = L.ids places ++ L.ids places' := List.filterMap_append

theorem ids_cons {id : Int} (h : L.rows[i]? = some id) (places : List Nat) :
    L.ids (i :: places) = id :: L.ids places := List.filterMap_cons_some h

theorem play_of_le (h : stop ≤ i) : L.play i stop r = ([], r) := by
  rw [play, if_neg (Nat.not_lt.mpr h)]

theorem play_passedOver (h : i < stop) (hover : L.passedOver? r i = some size) :
    L.play i stop r = (i :: (L.play (i + 1 + size) stop (r.visit i)).1,
      (L.play (i + 1 + size) stop (r.visit i)).2) := by
  rw [play, if_pos h, hover]

theorem play_loop (h : i < stop) (hover : L.passedOver? r i = none)
    (hloop : L.loop? i = some (size, codes)) :
    L.play i stop r =
      let inside := repeated (fun r => L.play (i + 1) (min (i + 1 + size) stop) r) (L.nextPass i)
        (L.passes r i codes) (r.visit i)
      (i :: (inside.1 ++ (L.play (i + 1 + size) stop (inside.2.finish i codes)).1),
        (L.play (i + 1 + size) stop (inside.2.finish i codes)).2) := by
  rw [play, if_pos h, hover]
  dsimp only
  rw [hloop]

theorem play_plain (h : i < stop) (hover : L.passedOver? r i = none) (hloop : L.loop? i = none) :
    L.play i stop r = (i :: (L.play (i + 1) stop (r.visit i)).1,
      (L.play (i + 1) stop (r.visit i)).2) := by
  rw [play, if_pos h, hover]
  dsimp only
  rw [hloop]

/-! ### Loops around a row -/

theorem isAround_iff (j : Nat) :
    L.isAround i j = true ↔ ∃ l, L.loop? j = some l ∧ j < i ∧ i ≤ j + l.1 := by
  unfold isAround
  cases L.loop? j with
  | none => simp
  | some l => simp

theorem around?_eq_none_iff : L.around? i = none ↔ ∀ j, L.isAround i j = false := by
  rw [around?, List.find?_eq_none]
  refine ⟨fun h j => ?_, fun h j _ => by simp [h j]⟩
  by_contra haround
  rw [Bool.not_eq_false] at haround
  obtain ⟨l, -, hlt, -⟩ := (L.isAround_iff j).mp haround
  exact h j (by simpa using hlt) haround

theorem around?_eq_some_iff (a : Nat) :
    L.around? i = some a ↔ L.isAround i a = true ∧ ∀ j, L.isAround i j = true → j ≤ a := by
  have hle : ∀ b, L.around? i = some b → L.isAround i b = true ∧
      ∀ j, L.isAround i j = true → j ≤ b := by
    intro b hb
    obtain ⟨hb, before, after, hsplit, hbefore⟩ := List.find?_eq_some_iff_append.mp hb
    refine ⟨hb, fun j hj => ?_⟩
    obtain ⟨l, -, hlt, -⟩ := (L.isAround_iff j).mp hj
    have hmem : j ∈ before ++ b :: after := by
      rw [← hsplit]
      simpa using hlt
    have horder : (before ++ b :: after).Pairwise fun x y => y < x := by
      rw [← hsplit]
      exact List.pairwise_reverse.mpr List.pairwise_lt_range
    rcases List.mem_append.mp hmem with hin | hin
    · have := hbefore j hin
      rw [hj] at this
      cases this
    · cases hin with
      | head => exact Nat.le_refl _
      | tail _ hin =>
          exact Nat.le_of_lt ((List.pairwise_cons.mp (List.pairwise_append.mp horder).2.1).1 j hin)
  refine ⟨hle a, fun ⟨ha, hmax⟩ => ?_⟩
  cases hb : L.around? i with
  | none =>
      have := L.around?_eq_none_iff.mp hb a
      rw [ha] at this
      cases this
  | some b =>
      obtain ⟨hb, hbmax⟩ := hle b hb
      rw [Nat.le_antisymm (hmax b hb) (hbmax a ha)]

end Layout

end RhythmChart
