import Mathlib
import RhythmChart.Live

/-! # The tally of a board

A board is tallied when its score and its judgments agree with the grades of its live notes.  Judging
touches the board in few ways; each keeps the tally.

Main statements.

* `Board.Tallied` is the agreement of score, judgments and live notes;
* `Board.Judges` says that a board comes from another one by judging some live notes, each for the
  first time;
* `Board.judges_finish`, `Board.judges_layer` and `Board.judges_close` are the ways to judge. -/

namespace RhythmChart

/-! ### Grades of live notes -/

theorem Grade.ne_tooFast {g : Grade} (h : g.isMiss = false) : g ≠ .tooFast := by
  rintro rfl
  cases h

theorem Grade.ne_tooLate {g : Grade} (h : g.isMiss = false) : g ≠ .tooLate := by
  rintro rfl
  cases h

namespace LiveNote

/-- The note as it was stamped, before any judging. -/
def stamp (n : LiveNote) : LiveNote := .fresh n.note n.visit n.row n.position n.trigger

/-- Whether a note has a given grade. -/
def hasGrade (g : Grade) (n : LiveNote) : Bool := n.result == some g

@[simp] theorem note_stamp (n : LiveNote) : n.stamp.note = n.note := rfl

@[simp] theorem trigger_stamp (n : LiveNote) : n.stamp.trigger = n.trigger := rfl

theorem note_of_stamp {m n : LiveNote} (h : m.stamp = n.stamp) : m.note = n.note := by
  rw [← m.note_stamp, h, note_stamp]

theorem trigger_of_stamp {m n : LiveNote} (h : m.stamp = n.stamp) : m.trigger = n.trigger := by
  rw [← m.trigger_stamp, h, trigger_stamp]

/-- The stamp of a live note does not change. -/
theorem exists_of_stamps {live live' : Array LiveNote} (h : live'.map stamp = live.map stamp) {id : Nat}
    {n' : LiveNote} (hn' : live'[id]? = some n') : ∃ n, live[id]? = some n ∧ n.stamp = n'.stamp := by
  have hid := congrArg (fun live => live[id]?) h
  simp only [Array.getElem?_map, hn', Option.map_some] at hid
  obtain ⟨n, hn, hstamp⟩ := Option.map_eq_some_iff.mp hid.symm
  exact ⟨n, hn, hstamp⟩

end LiveNote

namespace Board

/-- The grades of a live note in the stream of judgments; grades of layers do not count. -/
def finals (judgments : Array Judgment) (id : Nat) : List Grade :=
  (judgments.toList.filter fun j => j.live == id && j.layer.isNone).map Judgment.grade

/-- Score and judgments agree with the live notes. -/
structure Tallied (b : Board) : Prop where
  grades : ∀ g, b.score.grades.get g = b.live.countP (LiveNote.hasGrade g)
  judged : b.score.judged = b.score.grades.toList.sum
  early : b.score.grades.tooFast = 0
  errors : b.score.errors = b.score.grades.tooLate + b.score.emptyPresses
  combo : b.score.combo ≤ b.score.maxCombo
  stream : ∀ (id : Nat) (n : LiveNote), b.live[id]? = some n →
    finals b.judgments id = n.result.toList
  known : ∀ j ∈ b.judgments, j.live < b.live.size

/-- The grade of a live note. -/
def result? (b : Board) (id : Nat) : Option Grade := (b.live[id]?).bind LiveNote.result

/-- The second board comes from the first by judging some of the given live notes.  A note that has
its grade keeps it. -/
structure Judges (ids : Nat → Prop) (b b' : Board) : Prop where
  stamp : b'.live.map LiveNote.stamp = b.live.map LiveNote.stamp
  frame : ∀ id, ¬ ids id → b'.live[id]? = b.live[id]?
  final : ∀ id g, b.result? id = some g → b'.result? id = some g
  tallied : b.Tallied → b'.Tallied

theorem Judges.refl (ids : Nat → Prop) (b : Board) : Judges ids b b :=
  ⟨rfl, fun _ _ => rfl, fun _ _ h => h, fun h => h⟩

theorem Judges.trans {ids : Nat → Prop} {b b' b'' : Board} (h : Judges ids b b')
    (h' : Judges ids b' b'') : Judges ids b b'' :=
  ⟨h'.stamp.trans h.stamp, fun id hid => (h'.frame id hid).trans (h.frame id hid),
    fun id g hg => h'.final id g (h.final id g hg), fun ht => h'.tallied (h.tallied ht)⟩

theorem Judges.mono {ids ids' : Nat → Prop} {b b' : Board} (h : Judges ids b b')
    (hids : ∀ id, ids id → ids' id) : Judges ids' b b' :=
  ⟨h.stamp, fun id hid => h.frame id fun hid' => hid (hids id hid'), h.final, h.tallied⟩

theorem Judges.size {ids : Nat → Prop} {b b' : Board} (h : Judges ids b b') :
    b'.live.size = b.live.size := by
  have := congrArg Array.size h.stamp
  rwa [Array.size_map, Array.size_map] at this

theorem Judges.trigger {ids : Nat → Prop} {b b' : Board} (h : Judges ids b b') {id : Nat}
    {n n' : LiveNote} (hn : b.live[id]? = some n) (hn' : b'.live[id]? = some n') :
    n'.trigger = n.trigger := by
  obtain ⟨m, hm, hstamp⟩ := LiveNote.exists_of_stamps h.stamp hn'
  obtain rfl := Option.some.inj (hn.symm.trans hm)
  exact (LiveNote.trigger_of_stamp hstamp).symm

/-! ### Judging one live note -/

theorem countP_modify {α : Type} (p : α → Bool) (f : α → α) {xs : Array α} {i : Nat} {a : α}
    (h : xs[i]? = some a) :
    (xs.modify i f).countP p + (p a).toNat = xs.countP p + (p (f a)).toNat := by
  have hlist : ∀ (l : List α) (i : Nat), l[i]? = some a →
      (l.modify i f).countP p + (p a).toNat = l.countP p + (p (f a)).toNat := by
    intro l
    induction l with
    | nil => intro i hi; cases hi
    | cons x l ih =>
        intro i hi
        cases i with
        | zero =>
            obtain rfl : x = a := by simpa using hi
            rw [List.modify_zero_cons, List.countP_cons, List.countP_cons]
            cases p x <;> cases p (f x) <;> simp
        | succ i =>
            have := ih i (by simpa using hi)
            rw [List.modify_succ_cons, List.countP_cons, List.countP_cons]
            omega
  rw [← Array.countP_toList, ← Array.countP_toList, Array.toList_modify]
  exact hlist xs.toList i (by rwa [Array.getElem?_toList])

/-- A change that does not touch how a note was stamped. -/
theorem map_stamp_modify (live : Array LiveNote) (id : Nat) (f : LiveNote → LiveNote)
    (hf : ∀ n, (f n).stamp = n.stamp) :
    (live.modify id f).map LiveNote.stamp = live.map LiveNote.stamp := by
  refine Array.ext_getElem? fun i => ?_
  rw [Array.getElem?_map, Array.getElem?_map, Array.getElem?_modify]
  split_ifs
  · rw [Option.map_map]
    exact congrArg (Option.map · live[i]?) (funext hf)
  · rfl

theorem getElem?_modify_of_ne {f : LiveNote → LiveNote} {live : Array LiveNote} {id i : Nat}
    (hi : i ≠ id) : (live.modify id f)[i]? = live[i]? := by
  rw [Array.getElem?_modify, if_neg (Ne.symm hi)]

/-- One more note with the grade that a note is given. -/
theorem countP_hasGrade_settle {live : Array LiveNote} {id : Nat} {n : LiveNote}
    (hn : live[id]? = some n) (hu : n.result = none) (g g' : Grade) :
    (live.modify id fun n => { n with result := some g }).countP (LiveNote.hasGrade g') =
      live.countP (LiveNote.hasGrade g') + if g = g' then 1 else 0 := by
  have hcount := countP_modify (LiveNote.hasGrade g') (fun n => { n with result := some g }) hn
  have hold : LiveNote.hasGrade g' n = false := by simp [LiveNote.hasGrade, hu]
  have hnew : LiveNote.hasGrade g' { n with result := some g } = (g == g') := by
    simp [LiveNote.hasGrade]
  rw [hold, hnew, Bool.toNat_false, Nat.add_zero] at hcount
  rw [hcount]
  split_ifs with hgg
  · rw [beq_iff_eq.mpr hgg, Bool.toNat_true]
  · rw [beq_false_of_ne hgg, Bool.toNat_false]

theorem finals_push (judgments : Array Judgment) (j : Judgment) (id : Nat) :
    finals (judgments.push j) id =
      finals judgments id ++ if j.live = id ∧ j.layer = none then [j.grade] else [] := by
  unfold finals
  rw [Array.toList_push, List.filter_append, List.map_append]
  congr 1
  by_cases h : j.live = id ∧ j.layer = none
  · simp [h]
  · rw [if_neg h]
    have : (j.live == id && j.layer.isNone) = false := by
      rw [← Bool.not_eq_true]
      simpa using h
    simp [this]

theorem finals_eq_nil {b : Board} (h : b.Tallied) {id : Nat} (hid : b.live.size ≤ id) :
    finals b.judgments id = [] := by
  unfold finals
  rw [List.map_eq_nil_iff, List.filter_eq_nil_iff]
  intro j hj
  have := h.known j (Array.mem_def.mpr hj)
  have : j.live ≠ id := by omega
  simp [this]

/-- A change of the score that keeps the tally. -/
theorem judges_mapScore (ids : Nat → Prop) (b : Board) {f : Score → Score}
    (h : b.Tallied → (b.mapScore f).Tallied) : Judges ids b (b.mapScore f) :=
  ⟨rfl, fun _ _ => rfl, fun _ _ h => h, h⟩

theorem judges_markError (ids : Nat → Prop) (b : Board) (k : Key) (time : Float) :
    Judges ids b (b.mapScore fun s => s.markError k time) :=
  judges_mapScore ids b fun h => ⟨h.grades, h.judged, h.early, h.errors, h.combo, h.stream, h.known⟩

theorem judges_emptyPress (ids : Nat → Prop) (b : Board) (k : Key) (time cooldown : Float) :
    Judges ids b (b.mapScore fun s => s.emptyPress k time cooldown) := by
  refine judges_mapScore ids b fun h => ?_
  unfold Score.emptyPress mapScore
  dsimp only
  split_ifs
  · exact ⟨h.grades, h.judged, h.early, by have := h.errors; simp only [Score.markError]; omega,
      Nat.zero_le _, h.stream, h.known⟩
  · exact h

/-- A hit that finishes no note. -/
theorem judges_applyGrade (ids : Nat → Prop) (b : Board) {g : Grade} (hg : g.isMiss = false) :
    Judges ids b (b.mapScore fun s => s.applyGrade g) := by
  refine judges_mapScore ids b fun h => ?_
  unfold Score.applyGrade mapScore
  dsimp only
  rw [if_neg (by simp [hg])]
  exact ⟨h.grades, h.judged, h.early, h.errors, Nat.le_max_right _ _, h.stream, h.known⟩

/-- A score that counts one more finished note, of grade `g`. -/
structure Finishes (g : Grade) (s s' : Score) : Prop where
  grades : s'.grades = s.grades.add g
  judged : s'.judged = s.judged + 1
  errors : s'.errors = s.errors + if g = .tooLate then 1 else 0
  emptyPresses : s'.emptyPresses = s.emptyPresses
  combo : s.combo ≤ s.maxCombo → s'.combo ≤ s'.maxCombo

theorem finishes_record {g : Grade} (hg : g ≠ .tooFast) (s : Score) :
    Finishes g s (s.record g) := by
  by_cases hmiss : g.isMiss = true
  · have hlate : g = .tooLate := by cases g <;> simp [Grade.isMiss] at hmiss hg ⊢
    subst hlate
    exact ⟨rfl, rfl, rfl, rfl, fun _ => Nat.zero_le _⟩
  · have hlate : g ≠ .tooLate := fun h => hmiss (by rw [h]; rfl)
    unfold Score.record Score.applyGrade
    rw [if_neg hmiss]
    exact ⟨rfl, rfl, by rw [if_neg hlate]; rfl, rfl, fun _ => Nat.le_max_right _ _⟩

theorem finishes_tally {g : Grade} (hg : g.isMiss = false) (s : Score) : Finishes g s (s.tally g) := by
  exact ⟨rfl, rfl, by rw [if_neg (Grade.ne_tooLate hg)]; rfl, rfl, fun h => h⟩

theorem sum_add (c : GradeCounts) (g : Grade) : (c.add g).toList.sum = c.toList.sum + 1 := by
  cases g <;> simp [GradeCounts.toList, GradeCounts.add, Grade.all, GradeCounts.get] <;> omega

/-- The tally counts a note that gets its grade. -/
theorem Tallied.settle {b : Board} (h : b.Tallied) {id : Nat} {n : LiveNote}
    (hn : b.live[id]? = some n) (hu : n.result = none) {g : Grade} (hg : g ≠ .tooFast)
    {f : Score → Score} (hf : Finishes g b.score (f b.score)) (n' : LiveNote) (time : Float) :
    ((b.mapScore f).settle id n' g time).Tallied := by
  have hscore : ((b.mapScore f).settle id n' g time).score = f b.score := rfl
  have hlive : ((b.mapScore f).settle id n' g time).live =
    b.live.modify id fun n => { n with result := some g } := rfl
  refine ⟨fun g' => ?_, ?_, ?_, ?_, hf.combo h.combo, fun i m hm => ?_, fun j hj => ?_⟩
  · rw [hlive, hscore, hf.grades, GradeCounts.get_add, h.grades, countP_hasGrade_settle hn hu]
    split_ifs <;> rfl
  · rw [hscore, hf.grades, hf.judged, h.judged, sum_add]
  · have hearly := GradeCounts.get_add b.score.grades g .tooFast
    rw [if_neg hg] at hearly
    rw [hscore, hf.grades]
    exact hearly.trans h.early
  · have hlate := GradeCounts.get_add b.score.grades g .tooLate
    have herr := h.errors
    simp only [GradeCounts.get] at hlate
    rw [hscore, hf.grades, hf.errors, hf.emptyPresses, hlate, herr]
    split_ifs <;> omega
  · have hstream : finals ((b.mapScore f).settle id n' g time).judgments i =
      finals b.judgments i ++ if id = i ∧ (none : Option Nat) = none then [g] else [] :=
      finals_push _ _ i
    rw [hlive, Array.getElem?_modify] at hm
    rw [hstream]
    split_ifs at hm with hi
    · subst hi
      rw [hn] at hm
      obtain rfl := Option.some.inj hm
      rw [if_pos ⟨rfl, rfl⟩, h.stream id n hn, hu]
      rfl
    · rw [if_neg fun h => hi h.1, List.append_nil]
      exact h.stream i m hm
  · rw [hlive, Array.size_modify]
    rcases Array.mem_push.mp hj with hj | rfl
    · exact h.known j hj
    · exact (Array.getElem?_eq_some_iff.mp hn).1

/-- A note without a grade gets one: it is counted, and announced once. -/
theorem judges_settle (b : Board) {id : Nat} {n : LiveNote} (hn : b.live[id]? = some n)
    (hu : n.result = none) {g : Grade} (hg : g ≠ .tooFast) {f : Score → Score}
    (hf : Finishes g b.score (f b.score)) (n' : LiveNote) (time : Float) :
    Judges (· = id) b ((b.mapScore f).settle id n' g time) where
  stamp := map_stamp_modify b.live id (fun n => { n with result := some g }) fun _ => rfl
  frame _ hi := getElem?_modify_of_ne hi
  final i g' hg' := by
    change ((b.live.modify id _)[i]?).bind LiveNote.result = some g'
    rw [Array.getElem?_modify]
    split_ifs with hi
    · subst hi
      rw [result?, hn, Option.bind_some, hu] at hg'
      cases hg'
    · exact hg'
  tallied h := h.settle hn hu hg hf n' time

theorem result?_settle {b : Board} {id : Nat} {n : LiveNote} (hn : b.live[id]? = some n)
    (f : Score → Score) (n' : LiveNote) (g : Grade) (time : Float) :
    ((b.mapScore f).settle id n' g time).result? id = some g := by
  change (((b.live.modify id _)[id]?).bind LiveNote.result) = some g
  rw [Array.getElem?_modify, if_pos rfl, hn]
  rfl

/-- A judged layer is announced as such; it does not give the note a grade. -/
theorem judges_layer (b : Board) {id : Nat} {n : LiveNote} (hn : b.live[id]? = some n) {g : Grade}
    (hg : g.isMiss = false) (time : Float) (layer : Nat) :
    let live := b.live.modify id fun n => { n with layersDone := n.layersDone + 1 }
    Judges (· = id) b
      ((({ b with live } : Board).mapScore fun s => s.applyGrade g).announce id n g time
        (some layer)) := by
  intro live
  have hmodify : ∀ i : Nat, live[i]? =
      if id = i then (b.live[i]?).map fun n => { n with layersDone := n.layersDone + 1 }
      else b.live[i]? := fun i => Array.getElem?_modify
  have hresult : ∀ i : Nat, (live[i]?).bind LiveNote.result = (b.live[i]?).bind LiveNote.result := by
    intro i
    rw [hmodify]
    split_ifs
    · cases b.live[i]? <;> rfl
    · rfl
  refine ⟨map_stamp_modify b.live id (fun n => { n with layersDone := n.layersDone + 1 }) fun _ => rfl,
    fun i hi => getElem?_modify_of_ne hi, ?_, fun h => ?_⟩
  · intro i g' hg'
    exact (hresult i).trans hg'
  · have hsize : live.size = b.live.size := Array.size_modify
    have hgrades : ∀ g', live.countP (LiveNote.hasGrade g') = b.live.countP (LiveNote.hasGrade g') :=
      fun g' => by
        have := countP_modify (LiveNote.hasGrade g')
          (fun n => { n with layersDone := n.layersDone + 1 }) hn
        exact Nat.add_right_cancel this
    have hscored := (judges_applyGrade (· = id) b hg).tallied h
    refine ⟨fun g' => ?_, hscored.judged, hscored.early, hscored.errors, hscored.combo,
      fun i m hm => ?_, fun j hj => ?_⟩
    · exact (hscored.grades g').trans (hgrades g').symm
    · have hfinals : finals (b.judgments.push
          ⟨id, n.note, n.row, n.position, g, n.trigger - time, time, some layer⟩) i =
            finals b.judgments i := by
        rw [finals_push, if_neg (by simp), List.append_nil]
      obtain ⟨m', hm', heq⟩ : ∃ m', b.live[i]? = some m' ∧ m'.result = m.result := by
        have hr := hresult i
        change live[i]? = some m at hm
        cases hb : b.live[i]? with
        | none =>
            rw [hmodify, hb, Option.map_none, ite_self] at hm
            cases hm
        | some m' =>
            rw [hm, hb] at hr
            exact ⟨m', rfl, hr.symm⟩
      exact hfinals.trans ((h.stream i m' hm').trans (by rw [heq]))
    · change j.live < live.size
      rw [hsize]
      rcases Array.mem_push.mp hj with hj | rfl
      · exact h.known j hj
      · exact (Array.getElem?_eq_some_iff.mp hn).1

/-- Stamping more notes keeps the tally. -/
theorem Tallied.append {b : Board} (h : b.Tallied) {more : Array LiveNote}
    (hmore : ∀ n ∈ more, n.result = none) :
    Tallied { b with live := b.live ++ more } := by
  refine ⟨fun g => ?_, h.judged, h.early, h.errors, h.combo, fun id n hn => ?_, fun j hj => ?_⟩
  · have hzero : more.countP (LiveNote.hasGrade g) = 0 := by
      rw [Array.countP_eq_zero]
      intro n hn
      simp [LiveNote.hasGrade, hmore n hn]
    change _ = (b.live ++ more).countP (LiveNote.hasGrade g)
    rw [Array.countP_append, hzero, Nat.add_zero]
    exact h.grades g
  · change (b.live ++ more)[id]? = some n at hn
    rw [Array.getElem?_append] at hn
    split_ifs at hn with hid
    · exact h.stream id n hn
    · rw [hmore n (Array.mem_of_getElem? hn)]
      exact finals_eq_nil h (Nat.le_of_not_lt hid)
  · change j.live < (b.live ++ more).size
    have := h.known j hj
    rw [Array.size_append]
    omega

end Board

end RhythmChart
