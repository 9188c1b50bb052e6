import RhythmChart.Proofs.Queue

/-! # Layers of multi notes

A multi note with layers takes one press for each.  Its layers are judged one after the other, and the last
one gives the note the grade of its worst layer.

Main statements.

* `Judgment.IsWorst`: the first of the judgments with the largest offset;
* `LayerBook`: what is kept about a multi note while its layers are judged;
* `Judge.kept_expire` and `Judge.Kept.press`: what missing notes and a press do to it;
* `Judge.layers_runAll`: what is kept after any calls. -/

namespace RhythmChart

open Binary64

/-! ### The worst layer -/

/-- How far from its time a note was hit. -/
def Judgment.offset (x : Judgment) : Float := x.delta.abs

/-- The worst of some judgments: the first of those with the largest offset. -/
def Judgment.IsWorst (w : Judgment) (judged : List Judgment) : Prop :=
  ∃ before after, judged = before ++ w :: after ∧ (∀ x ∈ before, x.offset < w.offset) ∧
    ∀ x ∈ after, x.offset ≤ w.offset

/-- After one more judgment the worst one is the same, or the new one if its offset is larger. -/
theorem Judgment.IsWorst.concat {w x : Judgment} {judged : List Judgment} (h : w.IsWorst judged)
    (hjudged : ∀ y ∈ judged, IsNumber y.offset) (hx : IsNumber x.offset) :
    ∃ v : Judgment, v.IsWorst (judged ++ [x]) ∧
      Judge.worse (w.offset, w.grade) (x.offset, x.grade) = (v.offset, v.grade) := by
  obtain ⟨before, after, rfl, hbefore, hafter⟩ := h
  have hw : IsNumber w.offset := hjudged w (by simp)
  unfold Judge.worse
  split
  next hlt =>
    refine ⟨x, ⟨before ++ w :: after, [], rfl, fun y hy => ?_, nofun⟩, rfl⟩
    cases List.mem_append.mp hy with
    | inl hy => exact lt_of_lt_of_le (hbefore y hy) (le_of_lt hlt)
    | inr hy =>
        cases List.mem_cons.mp hy with
        | inl hy => exact hy ▸ hlt
        | inr hy => exact lt_of_le_of_lt (hafter y hy) hlt
  next hle =>
    refine ⟨w, ⟨before, after ++ [x], by simp, hbefore, fun y hy => ?_⟩, rfl⟩
    cases List.mem_append.mp hy with
    | inl hy => exact hafter y hy
    | inr hy =>
        rw [List.mem_singleton.mp hy]
        exact le_of_not_lt hw hx hle

/-! ### Books -/

/-- What is kept about a multi note: the judgments of its layers, its worst layer while it is partly judged,
and the live note itself. -/
structure LayerBook (judged : List Judgment) (worst? : Option (Float × Grade)) (layers : Nat)
    (n : LiveNote) : Prop where
  numbered : judged.map Judgment.layer = (List.range n.layersDone).map some
  offsets : ∀ x ∈ judged, IsNumber x.offset
  bounded : n.layersDone ≤ layers
  unjudged : n.result = none → n.layersDone < layers
  result : n.layersDone = layers → ∃ w : Judgment, w.IsWorst judged ∧ n.result = some w.grade
  partly : worst?.isSome ↔ 0 < n.layersDone ∧ n.result = none
  worst : ∀ e, worst? = some e → ∃ w : Judgment, w.IsWorst judged ∧ e = (w.offset, w.grade)

namespace LayerBook

variable {judged : List Judgment} {worst? : Option (Float × Grade)} {layers : Nat} {n : LiveNote}

theorem fresh (hdone : n.layersDone = 0) (hlayers : 0 < layers) :
    LayerBook [] none layers n where
  numbered := by rw [hdone]; rfl
  offsets := nofun
  bounded := by omega
  unjudged := by omega
  result := by omega
  partly := by simp [hdone]
  worst := nofun

/-- A note that is missed keeps its layers and has no worst layer any more. -/
theorem miss (h : LayerBook judged worst? layers n) (hu : n.result = none) (g : Grade) :
    LayerBook judged none layers { n with result := some g } where
  numbered := h.numbered
  offsets := h.offsets
  bounded := h.bounded
  unjudged := nofun
  result hdone := absurd hdone (Nat.ne_of_lt (h.unjudged hu))
  partly := by simp
  worst := nofun

/-- One more layer has the next number, and the worst layer so far takes it into account. -/
theorem worstLayer (h : LayerBook judged worst? layers n) (hu : n.result = none) {x : Judgment}
    (hx : IsNumber x.offset) :
    ∃ w : Judgment, w.IsWorst (judged ++ [x]) ∧
      Judge.worstLayer worst? (x.offset, x.grade) = (w.offset, w.grade) := by
  cases hworst : worst? with
  | none =>
      have hnone : judged = [] := by
        have hdone : n.layersDone = 0 := by
          have := h.partly
          simp [hworst, hu] at this
          exact this
        have hnumbered := h.numbered
        rw [hdone] at hnumbered
        exact List.map_eq_nil_iff.mp hnumbered
      subst hnone
      exact ⟨x, ⟨[], [], rfl, nofun, nofun⟩, rfl⟩
  | some e =>
      obtain ⟨w, hw, rfl⟩ := h.worst e hworst
      exact Judgment.IsWorst.concat hw h.offsets hx

section Layer

variable (h : LayerBook judged worst? layers n) (hu : n.result = none) {x : Judgment}
  (hlayer : x.layer = some n.layersDone) (hx : IsNumber x.offset)

include h hlayer

theorem numbered_concat :
    (judged ++ [x]).map Judgment.layer = (List.range (n.layersDone + 1)).map some := by
  rw [List.map_append, List.range_succ, List.map_append, h.numbered, List.map_singleton,
    List.map_singleton, hlayer]

include hx

omit hlayer in
theorem offsets_concat : ∀ y ∈ judged ++ [x], IsNumber y.offset := by
  intro y hy
  cases List.mem_append.mp hy with
  | inl hy => exact h.offsets y hy
  | inr hy => exact List.mem_singleton.mp hy ▸ hx

include hu

/-- A layer is judged that is not the last one. -/
theorem layer (hlast : n.layersDone + 1 < layers) :
    LayerBook (judged ++ [x]) (some (Judge.worstLayer worst? (x.offset, x.grade))) layers
      { n with layersDone := n.layersDone + 1 } where
  numbered := h.numbered_concat hlayer
  offsets := h.offsets_concat hx
  bounded := hlast.le
  unjudged _ := hlast
  result hdone := absurd hdone (Nat.ne_of_lt hlast)
  partly := by simp [hu]
  worst e he := by
    obtain rfl := Option.some.inj he
    exact h.worstLayer hu hx

/-- The last layer is judged, and the note gets the grade of its worst layer. -/
theorem last (hlast : n.layersDone + 1 = layers) :
    LayerBook (judged ++ [x]) none layers
      { n with
        layersDone := n.layersDone + 1
        result := some (Judge.worstLayer worst? (x.offset, x.grade)).2 } where
  numbered := h.numbered_concat hlayer
  offsets := h.offsets_concat hx
  bounded := hlast.le
  unjudged := nofun
  result _ := by
    obtain ⟨w, hw, heq⟩ := h.worstLayer hu hx
    exact ⟨w, hw, by rw [heq]⟩
  partly := by simp
  worst := nofun

end Layer

end LayerBook

/-! ### Boards -/

namespace Board

/-- The judgments of the layers of a live note, in order. -/
def layersOf (b : Board) (id : Nat) : List Judgment :=
  b.judgments.toList.filter fun x => x.live == id && x.layer.isSome

/-- The times at which layers were judged. -/
def layerTimes (b : Board) : List Float :=
  (b.judgments.toList.filter fun x => x.layer.isSome).map Judgment.time

variable (b : Board) (id i : Nat) (n : LiveNote) (g : Grade) (time : Float)

theorem layersOf_settle : (b.settle id n g time).layersOf i = b.layersOf i := by
  simp [layersOf, settle, announce]

theorem layerTimes_settle : (b.settle id n g time).layerTimes = b.layerTimes := by
  simp [layerTimes, settle, announce]

theorem layersOf_announce (layer : Nat) :
    (b.announce id n g time (some layer)).layersOf i = b.layersOf i ++
      if i = id then [⟨id, n.note, n.row, n.position, g, n.trigger - time, time, some layer⟩] else [] := by
  by_cases hi : i = id
  · simp [layersOf, announce, hi]
  · simp [layersOf, announce, hi, Ne.symm hi]

theorem layerTimes_announce (layer : Nat) :
    (b.announce id n g time (some layer)).layerTimes = b.layerTimes ++ [time] := by
  simp [layerTimes, announce]

theorem getElem?_settle : (b.settle id n g time).live[i]? =
    if id = i then (b.live[i]?).map fun n => { n with result := some g } else b.live[i]? :=
  Array.getElem?_modify

end Board

namespace Judge

/-- A note takes a press for each of its layers, and has some. -/
def TakesLayers (notes : Array Note) (note layers : Nat) : Prop :=
  ∃ own, notes[note]? = some own ∧ own.noteType = .multi ∧ own.layers.length = layers ∧ 0 < layers

/-- The book of a live note, a multi note with a number of layers, on a board with the worst layers so far. -/
structure Kept (worst : List (Nat × Float × Grade)) (b : Board) (id note layers : Nat)
    (n : LiveNote) : Prop where
  live : b.live[id]? = some n
  note : n.note = note
  book : LayerBook (b.layersOf id) (worst.lookup id) layers n

/-- The book of a live note is kept when another one is judged. -/
theorem Kept.other {worst worst' : List (Nat × Float × Grade)} {b b' : Board} {id note layers : Nat}
    {n : LiveNote} (h : Kept worst b id note layers n) (hlive : b'.live[id]? = b.live[id]?)
    (hjudged : b'.layersOf id = b.layersOf id) (hworst : worst'.lookup id = worst.lookup id) :
    Kept worst' b' id note layers n :=
  ⟨hlive.trans h.live, h.note, hjudged ▸ hworst ▸ h.book⟩

/-- Missing the notes at the front of the queue keeps the book. -/
theorem kept_expire {w : Windows} {now : Float} (scans : Nat) (queue : List Nat)
    {worst : List (Nat × Float × Grade)} {b : Board} {id note layers : Nat}
    (h : ∃ n, Kept worst b id note layers n) :
    ∃ n, Kept (expire w now scans queue worst b).2.1 (expire w now scans queue worst b).2.2
      id note layers n := by
  fun_induction expire w now scans queue worst b with
  | case1 => exact h
  | case2 => exact h
  | case3 scans k queue worst b hb ih => exact ih h
  | case4 scans k queue worst b m hb hj ih => exact ih h
  | case5 => exact h
  | case6 scans k queue worst b m hb hj hlate grade ih =>
      obtain ⟨n, h⟩ := h
      apply ih
      have hu : m.result = none := by simpa [LiveNote.isJudged] using hj
      have hlive := (b.mapScore fun s => s.record grade).getElem?_settle k id m grade now
      have hjudged := (b.mapScore fun s => s.record grade).layersOf_settle k id m grade now
      by_cases hk : k = id
      · subst hk
        obtain rfl := Option.some.inj (hb.symm.trans h.live)
        refine ⟨{ m with result := some grade }, ?_, h.note, ?_⟩
        · rw [hlive, if_pos rfl]
          exact congrArg _ hb
        · rw [hjudged, Assoc.lookup_drop, if_pos rfl]
          exact h.book.miss hu grade
      · refine ⟨n, h.other ?_ hjudged ?_⟩
        · rw [hlive, if_neg hk]
          rfl
        · rw [Assoc.lookup_drop, if_neg (Ne.symm hk)]

/-- Missing notes judges no layer. -/
theorem layerTimes_expire (w : Windows) (now : Float) (scans : Nat) (queue : List Nat)
    (worst : List (Nat × Float × Grade)) (b : Board) :
    (expire w now scans queue worst b).2.2.layerTimes = b.layerTimes := by
  fun_induction expire w now scans queue worst b with
  | case1 => rfl
  | case2 => rfl
  | case3 scans k queue worst b hb ih => exact ih
  | case4 scans k queue worst b m hb hj ih => exact ih
  | case5 => rfl
  | case6 scans k queue worst b m hb hj hlate grade ih =>
      exact ih.trans (Board.layerTimes_settle _ k m grade now)

section Press

variable {j : Judge} {time : Float} {b : Board} {id k note layers : Nat} {n m : LiveNote}

/-- A press on another note keeps the book. -/
theorem Kept.pressSingle_other (h : Kept j.worst b id note layers n) (hk : k ≠ id) :
    let r := j.pressSingle time k m b
    Kept r.1.worst r.2 id note layers n ∧ r.2.layersOf id = b.layersOf id := by
  have hlive := (b.mapScore fun s => s.record (j.windows.grade (m.trigger - time))).getElem?_settle k id m
    (j.windows.grade (m.trigger - time)) time
  rw [if_neg hk] at hlive
  have hjudged := (b.mapScore fun s => s.record (j.windows.grade (m.trigger - time))).layersOf_settle k id m
    (j.windows.grade (m.trigger - time)) time
  exact ⟨h.other hlive hjudged rfl, hjudged⟩

theorem layerTimes_pressSingle : (j.pressSingle time k m b).2.layerTimes = b.layerTimes :=
  (b.mapScore _).layerTimes_settle k m _ time

theorem layerTimes_layered : (j.layered time k m b).layerTimes = b.layerTimes ++ [time] :=
  Board.layerTimes_announce _ k m _ time _

theorem layerTimes_pressLayer : (j.pressLayer time layers k m b).2.layerTimes = b.layerTimes ++ [time] := by
  rw [pressLayer_eq]
  split
  · exact (Board.layerTimes_settle _ k m _ time).trans layerTimes_layered
  · exact layerTimes_layered

/-- A layer of another note keeps the book. -/
theorem Kept.pressLayer_other (h : Kept j.worst b id note layers n) (hk : k ≠ id) (others : Nat) :
    let r := j.pressLayer time others k m b
    Kept r.1.worst r.2 id note layers n ∧ r.2.layersOf id = b.layersOf id := by
  have hlive : (j.layered time k m b).live[id]? = b.live[id]? := by
    rw [getElem?_layered, if_neg hk]
  have hjudged : (j.layered time k m b).layersOf id = b.layersOf id := by
    refine (Board.layersOf_announce _ k id m _ time _).trans ?_
    rw [if_neg (Ne.symm hk), List.append_nil]
    rfl
  rw [pressLayer_eq]
  split
  · have hjudged' := fun f g =>
      (((j.layered time k m b).mapScore f).layersOf_settle k id m g time).trans hjudged
    refine ⟨h.other ?_ (hjudged' _ _) ?_, hjudged' _ _⟩
    · rw [Board.getElem?_settle, if_neg hk]
      exact hlive
    · rw [Assoc.lookup_drop, if_neg (Ne.symm hk)]
  · exact ⟨h.other hlive hjudged (Assoc.lookup_put_of_ne (Ne.symm hk) _ _), hjudged⟩

/-- A layer of the note is judged, which finishes the note when it is the last one. -/
theorem Kept.pressLayer_self (h : Kept j.worst b id note layers n) (hr : Reached j time b id n) :
    let r := j.pressLayer time layers id n b
    ∃ x n', Kept r.1.worst r.2 id note layers n' ∧ r.2.layersOf id = b.layersOf id ++ [x] ∧
      x.layer = some n.layersDone ∧ (n'.result.isSome ↔ n.layersDone + 1 = layers) := by
  set x : Judgment := ⟨id, n.note, n.row, n.position, j.windows.grade (n.trigger - time),
    n.trigger - time, time, some n.layersDone⟩ with hx
  have hu := hr.unjudged
  have hoffset : IsNumber x.offset := ((le_iff _ _).mp hr.close).1
  have hlive : (j.layered time id n b).live[id]? = some { n with layersDone := n.layersDone + 1 } := by
    rw [getElem?_layered, if_pos rfl, hr.live]
    rfl
  have hjudged : (j.layered time id n b).layersOf id = b.layersOf id ++ [x] := by
    refine (Board.layersOf_announce _ id id n _ time _).trans ?_
    rw [if_pos rfl]
    rfl
  have hdone := h.book.unjudged hu
  rw [pressLayer_eq]
  split
  next hlast =>
    have hjudged' := fun f g =>
      (((j.layered time id n b).mapScore f).layersOf_settle id id n g time).trans hjudged
    have heq : n.layersDone + 1 = layers := by omega
    refine ⟨x, { n with
      layersDone := n.layersDone + 1
      result := some (worstLayer (j.worst.lookup id) (x.offset, x.grade)).2 }, ⟨?_, h.note, ?_⟩,
      hjudged' _ _, rfl, by simp [heq]⟩
    · rw [Board.getElem?_settle, if_pos rfl]
      exact congrArg _ hlive
    · rw [hjudged', Assoc.lookup_drop, if_pos rfl]
      exact h.book.last hu rfl hoffset heq
  next hlast =>
    refine ⟨x, _, ⟨hlive, h.note, ?_⟩, hjudged, rfl, by simp [hu]; omega⟩
    rw [hjudged, Assoc.lookup_put_self]
    exact h.book.layer hu rfl hoffset (by omega)

/-- What a press does to a multi note: nothing, or it judges its next layer. -/
theorem Kept.press (h : Kept j.worst b id note layers n) {notes : Array Note}
    (hnote : TakesLayers notes note layers) (time : Float) :
    let r := (j.press time notes b).2
    Kept r.1.worst r.2 id note layers n ∧ r.2.layersOf id = b.layersOf id ∨
      ∃ x n', n.result = none ∧ Kept r.1.worst r.2 id note layers n' ∧
        r.2.layersOf id = b.layersOf id ++ [x] ∧ x.layer = some n.layersDone ∧
          (n'.result.isSome ↔ n.layersDone + 1 = layers) := by
  obtain ⟨own, hown, hmulti, hlength, hpositive⟩ := hnote
  have hcases := press_cases j time notes b
  have hself : ∀ {m : LiveNote} {other : Note}, Reached j time b id m → notes[m.note]? = some other →
      m = n ∧ other = own := by
    intro m other hr hother
    obtain rfl := Option.some.inj (hr.live.symm.trans h.live)
    rw [h.note] at hother
    exact ⟨rfl, Option.some.inj (hother.symm.trans hown)⟩
  generalize j.press time notes b = r at hcases
  cases hcases with
  | unmatched => exact .inl ⟨h, rfl⟩
  | hold => exact .inl ⟨h, rfl⟩
  | single k m other hr hother hhold hsingle =>
      refine .inl (h.pressSingle_other ?_)
      rintro rfl
      obtain ⟨rfl, rfl⟩ := hself hr hother
      rw [hsingle hmulti] at hlength
      exact hpositive.ne hlength
  | layer count k m other hr hother hhold hcount =>
      by_cases hk : k = id
      · subst hk
        obtain ⟨rfl, rfl⟩ := hself hr hother
        obtain ⟨x, n', hkept⟩ := h.pressLayer_self hr
        rw [hcount, hlength]
        exact .inr ⟨x, n', hr.unjudged, hkept⟩
      · exact .inl (h.pressLayer_other hk count)

/-- A press finishes a multi note exactly when it judges its last layer. -/
theorem Kept.finishes_iff (h : Kept j.worst b id note layers n) {notes : Array Note}
    (hnote : TakesLayers notes note layers) (time : Float) :
    let r := (j.press time notes b).2
    ∃ n', r.2.live[id]? = some n' ∧
      (n.result = none ∧ n'.result.isSome ↔
        ∃ x : Judgment, r.2.layersOf id = b.layersOf id ++ [x] ∧ x.layer = some (layers - 1)) := by
  intro r
  cases h.press hnote time with
  | inl hsame =>
      refine ⟨n, hsame.1.live, ?_⟩
      constructor
      · rintro ⟨hu, hsome⟩
        rw [hu] at hsome
        cases hsome
      · rintro ⟨x, hx, -⟩
        have hsize := congrArg List.length (hsame.2.symm.trans hx)
        simp at hsize
  | inr hlayer =>
      obtain ⟨x, n', hu, hkept, hjudged, hx, hlast⟩ := hlayer
      refine ⟨n', hkept.live, ?_⟩
      constructor
      · rintro ⟨-, hsome⟩
        have heq := hlast.mp hsome
        exact ⟨x, hjudged, by rw [hx, ← heq, Nat.add_sub_cancel]⟩
      · rintro ⟨y, hy, hyLayer⟩
        obtain rfl : x = y := by simpa using hjudged.symm.trans hy
        have hplace := Option.some.inj (hx.symm.trans hyLayer)
        obtain ⟨-, -, -, -, hpositive⟩ := hnote
        exact ⟨hu, hlast.mpr (by omega)⟩

/-- A press judges one layer at most. -/
theorem layerTimes_press (j : Judge) (time : Float) (notes : Array Note) (b : Board) :
    (j.press time notes b).2.2.layerTimes = b.layerTimes ∨
      (j.press time notes b).2.2.layerTimes = b.layerTimes ++ [time] := by
  have hcases := press_cases j time notes b
  generalize j.press time notes b = r at hcases
  cases hcases with
  | unmatched => exact .inl rfl
  | hold => exact .inl rfl
  | single => exact .inl layerTimes_pressSingle
  | layer => exact .inr layerTimes_pressLayer

end Press

/-! ### Calls -/

/-- A call of the queue: time goes on, or there is a press. -/
inductive Call where
  | maintain (now : Float)
  | press (time : Float)

namespace Call

/-- The time of a press. -/
def pressed? : Call → Option Float
  | .maintain _ => none
  | .press time => some time

/-- What a call does to the queue and to the board. -/
def run (notes : Array Note) (s : Judge × Board) : Call → Judge × Board
  | .maintain now => ((s.1.maintain now notes s.2).1, (s.1.maintain now notes s.2).2.1)
  | .press time => (s.1.press time notes s.2).2

/-- What calls do, one after the other. -/
def runAll (notes : Array Note) (calls : List Call) (s : Judge × Board) : Judge × Board :=
  calls.foldl (run notes) s

end Call

/-- The queue and the board keep the book of a live note. -/
def Books (id note layers : Nat) (s : Judge × Board) : Prop := ∃ n, Kept s.1.worst s.2 id note layers n

theorem books_run {notes : Array Note} {id note layers : Nat} (hnote : TakesLayers notes note layers)
    {s : Judge × Board} (h : Books id note layers s) (call : Call) :
    Books id note layers (call.run notes s) := by
  cases call with
  | maintain now =>
      unfold Call.run maintain
      exact kept_expire maxScan _ h
  | press time =>
      obtain ⟨n, h⟩ := h
      cases h.press hnote time with
      | inl hsame => exact ⟨n, hsame.1⟩
      | inr hlayer =>
          obtain ⟨x, n', -, hkept, -⟩ := hlayer
          exact ⟨n', hkept⟩

theorem books_runAll {notes : Array Note} {id note layers : Nat} (hnote : TakesLayers notes note layers)
    (calls : List Call) {s : Judge × Board} (h : Books id note layers s) :
    Books id note layers (Call.runAll notes calls s) := by
  unfold Call.runAll
  induction calls generalizing s with
  | nil => exact h
  | cons call calls ih => exact ih (books_run hnote h call)

/-- The layers were judged by presses, each by its own, in their order. -/
theorem layerTimes_runAll (notes : Array Note) (calls : List Call) (s : Judge × Board) :
    ∃ times, (Call.runAll notes calls s).2.layerTimes = s.2.layerTimes ++ times ∧
      times.Sublist (calls.filterMap Call.pressed?) := by
  unfold Call.runAll
  induction calls generalizing s with
  | nil => exact ⟨[], (List.append_nil _).symm, .slnil⟩
  | cons call calls ih =>
      obtain ⟨times, heq, hsub⟩ := ih (call.run notes s)
      rw [List.foldl_cons, heq]
      cases call with
      | maintain now => exact ⟨times, congrArg (· ++ times) (layerTimes_expire _ now _ _ _ s.2), hsub⟩
      | press time =>
          cases layerTimes_press s.1 time notes s.2 with
          | inl hsame => exact ⟨times, congrArg (· ++ times) hsame, hsub.cons time⟩
          | inr hone =>
              refine ⟨time :: times, ?_, hsub.cons_cons time⟩
              rw [List.append_cons]
              exact congrArg (· ++ times) hone

/-- A multi note takes one press for each of its layers and the grade of the worst of them, whatever the queue
is called with.  Its layers are judged in order, each by a press of its own, and a press finishes it exactly
when it judges the last one.  Its worst layer is remembered just as long as it is partly judged. -/
theorem layers_runAll (windows : Windows) {notes : Array Note} {live : Array LiveNote}
    (hfresh : ∀ n ∈ live, n.result = none ∧ n.layersDone = 0) (score : Score) (calls : List Call) {id : Nat}
    {first : LiveNote} {note : Note} (hfirst : live[id]? = some first)
    (hnote : notes[first.note]? = some note) (hmulti : note.noteType = .multi) (hlayers : note.layers ≠ []) :
    let s := Call.runAll notes calls (fresh windows, ⟨live, score, #[]⟩)
    s.2.layerTimes.Sublist (calls.filterMap Call.pressed?) ∧
      ∃ n, s.2.live[id]? = some n ∧
        (s.2.layersOf id).map Judgment.layer = (List.range n.layersDone).map some ∧
        n.layersDone ≤ note.layers.length ∧
        ((s.1.worst.lookup id).isSome ↔
          0 < n.layersDone ∧ n.layersDone < note.layers.length ∧ n.result = none) ∧
        (n.layersDone = note.layers.length →
          ∃ w : Judgment, w.IsWorst (s.2.layersOf id) ∧ n.result = some w.grade) ∧
        ∀ time, ∃ n', ((Call.press time).run notes s).2.live[id]? = some n' ∧
          (n.result = none ∧ n'.result.isSome ↔
            ∃ x : Judgment, ((Call.press time).run notes s).2.layersOf id = s.2.layersOf id ++ [x] ∧
              x.layer = some (note.layers.length - 1)) := by
  intro s
  have hpositive := List.length_pos_iff.mpr hlayers
  have htakes : TakesLayers notes first.note note.layers.length := ⟨note, hnote, hmulti, rfl, hpositive⟩
  have hdone := (hfresh first (Array.mem_of_getElem? hfirst)).2
  have hstart : Books id first.note note.layers.length (fresh windows, ⟨live, score, #[]⟩) :=
    ⟨first, hfirst, rfl, LayerBook.fresh hdone hpositive⟩
  obtain ⟨n, hkept⟩ := books_runAll htakes calls hstart
  have hbook := hkept.book
  obtain ⟨times, htimes, hsub⟩ := layerTimes_runAll notes calls (fresh windows, ⟨live, score, #[]⟩)
  refine ⟨?_, n, hkept.live, hbook.numbered, hbook.bounded, ?_, hbook.result,
    hkept.finishes_iff htakes⟩
  · rw [htimes]
    exact hsub
  · rw [hbook.partly]
    have := hbook.unjudged
    constructor
    · exact fun ⟨hsome, hu⟩ => ⟨hsome, this hu, hu⟩
    · exact fun ⟨hsome, _, hu⟩ => ⟨hsome, hu⟩

/-- A multi note with two layers. -/
def twoLayers : Note :=
  { row := -1, position := 1.0, indent := 0, line := 3, noteType := .multi, length := 0.0, trigger := 0.0
    loopCodes := [], branchCodes := [], commands := [], layers := [⟨.tap, 1.0⟩, ⟨.tap, 1.0⟩] }

theorem layers_runAll_twoLayers :
    let live := #[LiveNote.fresh 0 0 (-1) 1.0 1.0]
    let s := Call.runAll #[twoLayers] [.maintain 1.0, .press 0.95, .maintain 1.01, .press 1.02]
      (fresh .standard, ⟨live, .zero, #[]⟩)
    (∀ n ∈ live, n.result = none ∧ n.layersDone = 0) ∧
      s.2.layerTimes.Sublist [0.95, 1.02] ∧
      ∃ n, s.2.live[0]? = some n ∧
        (s.2.layersOf 0).map Judgment.layer = (List.range n.layersDone).map some ∧ n.layersDone ≤ 2 ∧
        ((s.1.worst.lookup 0).isSome ↔ 0 < n.layersDone ∧ n.layersDone < 2 ∧ n.result = none) ∧
        (n.layersDone = 2 → ∃ w : Judgment, w.IsWorst (s.2.layersOf 0) ∧ n.result = some w.grade) := by
  intro live s
  have hfresh : ∀ n ∈ live, n.result = none ∧ n.layersDone = 0 := by simp [live, LiveNote.fresh]
  have hfirst : live[0]? = some (LiveNote.fresh 0 0 (-1) 1.0 1.0) := rfl
  have hnote : #[twoLayers][0]? = some twoLayers := rfl
  obtain ⟨htimes, n, hn, hnumbered, hbounded, hpartly, hresult, -⟩ := layers_runAll .standard hfresh .zero
    [.maintain 1.0, .press 0.95, .maintain 1.01, .press 1.02] hfirst hnote rfl (List.cons_ne_nil _ _)
  exact ⟨hfresh, htimes, n, hn, hnumbered, hbounded, hpartly, hresult⟩

example : (Call.runAll #[twoLayers] [.maintain 1.0, .press 0.95, .maintain 1.01, .press 1.02]
    (fresh .standard, ⟨#[LiveNote.fresh 0 0 (-1) 1.0 1.0], .zero, #[]⟩)).2.judgments.toList.map
      (fun x => (x.layer, x.grade)) =
        [(some 0, .patchedFast), (some 1, .critical), (none, .patchedFast)] := by decide +kernel

end Judge

end RhythmChart
