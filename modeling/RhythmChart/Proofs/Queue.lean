import RhythmChart.Judge
import RhythmChart.Proofs.Tally
import RhythmChart.Proofs.Windows

/-! # What the queue does

Main statements.

* `Judge.arrivals_eq`: the notes that are let in are those up to the first one that is not near;
* `Judge.judges_expire` and `Judge.mem_expire_or_judged`: notes leave the front of the queue by being
  missed;
* `Judge.expire_front`: the note that is then at the front is not late;
* `Judge.press_cases`: what a press may do. -/

namespace RhythmChart.Judge

/-! ### Letting notes in -/

/-- The first index from `i` on whose note is not near yet. -/
def frontier (enter now : Float) (live : Array LiveNote) (i : Nat) : Nat :=
  if h : i < live.size then
    if enter < live[i].trigger - now then i else frontier enter now live (i + 1)
  else i
termination_by live.size - i

/-- Whether a live note waits to be judged. -/
def isOpen (notes : Array Note) (live : Array LiveNote) (id : Nat) : Bool :=
  (live[id]?).any fun n => Board.isJudgable notes n && !n.isJudged

/-- The open notes with an index from `i` up to `j`. -/
def openBetween (notes : Array Note) (live : Array LiveNote) (i j : Nat) : List Nat :=
  (List.range' i (j - i)).filter (isOpen notes live)

theorem le_frontier (enter now : Float) (live : Array LiveNote) (i : Nat) :
    i ≤ frontier enter now live i := by
  fun_induction frontier enter now live i with
  | case1 i h hfar => exact le_rfl
  | case2 i h hnear ih => omega
  | case3 i h => exact le_rfl

theorem frontier_le_size (enter now : Float) {live : Array LiveNote} {i : Nat}
    (hi : i ≤ live.size) : frontier enter now live i ≤ live.size := by
  fun_induction frontier enter now live i with
  | case1 i h hfar => exact hi
  | case2 i h hnear ih => exact ih h
  | case3 i h => exact hi

theorem openBetween_succ (notes : Array Note) (live : Array LiveNote) {i j : Nat} (h : i < j) :
    openBetween notes live i j =
      (if isOpen notes live i then [i] else []) ++ openBetween notes live (i + 1) j := by
  unfold openBetween
  rw [show j - i = (j - (i + 1)) + 1 by omega, List.range'_succ, List.filter_cons]
  split_ifs <;> rfl

theorem openBetween_self (notes : Array Note) (live : Array LiveNote) (i : Nat) :
    openBetween notes live i i = [] := by
  simp [openBetween]

theorem mem_openBetween {notes : Array Note} {live : Array LiveNote} {i j id : Nat} :
    id ∈ openBetween notes live i j ↔ i ≤ id ∧ id < j ∧ isOpen notes live id = true := by
  rw [openBetween, List.mem_filter, List.mem_range'_1, and_assoc]
  constructor
  · rintro ⟨h1, h2, h3⟩
    exact ⟨h1, by omega, h3⟩
  · rintro ⟨h1, h2, h3⟩
    exact ⟨h1, by omega, h3⟩

/-- The notes that are let in are the open ones up to the first that is not near. -/
theorem arrivals_eq (enter now : Float) (live : Array LiveNote) (notes : Array Note) (i : Nat)
    (entered : Array Nat) :
    arrivals enter now live notes i entered =
      (entered ++ (openBetween notes live i (frontier enter now live i)).toArray,
        frontier enter now live i) := by
  fun_induction frontier enter now live i generalizing entered with
  | case1 i h hfar =>
      unfold arrivals
      rw [dif_pos h]
      dsimp only
      rw [if_pos hfar, openBetween_self, Array.append_empty]
  | case2 i h hnear ih =>
      have hlt : i < frontier enter now live (i + 1) := le_frontier enter now live (i + 1)
      have hopen : isOpen notes live i = (Board.isJudgable notes live[i] && !live[i].isJudged) := by
        rw [isOpen, Array.getElem?_eq_getElem h, Option.any_some]
      unfold arrivals
      rw [dif_pos h]
      dsimp only
      rw [if_neg hnear, ih, openBetween_succ notes live hlt, hopen]
      split_ifs with hkeep
      · congr 1
        exact Array.ext' (by simp)
      · rw [List.nil_append]
  | case3 i h =>
      unfold arrivals
      rw [dif_neg h, openBetween_self, Array.append_empty]

/-! ### Missing notes -/

section Expire

variable {w : Windows} {now : Float}

/-- What leaves the queue stood at its front. -/
theorem expire_suffix (scans : Nat) (queue : List Nat) (worst : List (Nat × Float × Grade))
    (b : Board) : (expire w now scans queue worst b).1 <:+ queue := by
  fun_induction expire w now scans queue worst b with
  | case1 => exact List.suffix_refl _
  | case2 => exact List.suffix_refl _
  | case3 scans id queue worst b hb ih => exact ih.trans (List.suffix_cons _ _)
  | case4 scans id queue worst b n hb hj ih => exact ih.trans (List.suffix_cons _ _)
  | case5 => exact List.suffix_refl _
  | case6 scans id queue worst b n hb hj hlate grade ih => exact ih.trans (List.suffix_cons _ _)

theorem mem_of_mem_expire_worst {scans : Nat} {queue : List Nat}
    {worst : List (Nat × Float × Grade)} {b : Board} {e : Nat × Float × Grade}
    (he : e ∈ (expire w now scans queue worst b).2.1) : e ∈ worst := by
  fun_induction expire w now scans queue worst b with
  | case1 => exact he
  | case2 => exact he
  | case3 scans id queue worst b hb ih => exact ih he
  | case4 scans id queue worst b n hb hj ih => exact ih he
  | case5 => exact he
  | case6 scans id queue worst b n hb hj hlate grade ih => exact (List.mem_filter.mp (ih he)).1

/-- A note that leaves the queue without its grade gets that of a late miss. -/
theorem judges_lapse (hw : w.Ordered) {b : Board} {id : Nat} {n : LiveNote}
    (hb : b.live[id]? = some n) (hj : ¬ n.isJudged = true) (hlate : ¬ now - n.trigger ≤ w.exit) :
    Board.Judges (· = id) b ((b.mapScore fun s => s.record (w.grade (n.trigger - now))).settle id n
      (w.grade (n.trigger - now)) now) := by
  have hu : n.result = none := by simpa [LiveNote.isJudged] using hj
  rw [Windows.grade_eq_tooLate hw hlate]
  exact Board.judges_settle b hb hu (by decide) (Board.finishes_record (by decide) _) n now

/-- Only queued notes are missed. -/
theorem judges_expire (hw : w.Ordered) (now : Float) (scans : Nat) (queue : List Nat)
    (worst : List (Nat × Float × Grade)) (b : Board) :
    Board.Judges (· ∈ queue) b (expire w now scans queue worst b).2.2 := by
  fun_induction expire w now scans queue worst b with
  | case1 => exact .refl _ _
  | case2 => exact .refl _ _
  | case3 scans id queue worst b hb ih => exact ih.mono fun _ h => List.mem_cons_of_mem _ h
  | case4 scans id queue worst b n hb hj ih => exact ih.mono fun _ h => List.mem_cons_of_mem _ h
  | case5 => exact .refl _ _
  | case6 scans id queue worst b n hb hj hlate grade ih =>
      have hlapse := judges_lapse hw hb hj hlate
      exact (hlapse.mono fun _ h => h ▸ List.mem_cons_self).trans
        (ih.mono fun _ h => List.mem_cons_of_mem _ h)

/-- A note that leaves the queue has its grade. -/
theorem mem_expire_or_judged (hw : w.Ordered) {scans : Nat} {queue : List Nat}
    {worst : List (Nat × Float × Grade)} {b : Board} {id : Nat} (hid : id ∈ queue)
    (hlive : id < b.live.size) :
    id ∈ (expire w now scans queue worst b).1 ∨
      ((expire w now scans queue worst b).2.2.result? id).isSome := by
  fun_induction expire w now scans queue worst b with
  | case1 => exact .inl hid
  | case2 => exact .inl hid
  | case3 scans first queue worst b hb ih =>
      rcases List.mem_cons.mp hid with rfl | hmem
      · rw [Array.getElem?_eq_getElem hlive] at hb
        cases hb
      · exact ih hmem hlive
  | case4 scans first queue worst b n hb hj ih =>
      rcases List.mem_cons.mp hid with rfl | hmem
      · right
        obtain ⟨g, hg⟩ := Option.isSome_iff_exists.mp hj
        have hfirst : b.result? id = some g := by rw [Board.result?, hb, Option.bind_some, hg]
        rw [(judges_expire hw now scans queue worst b).final id g hfirst]
        rfl
      · exact ih hmem hlive
  | case5 => exact .inl hid
  | case6 scans first queue worst b n hb hj hlate grade ih =>
      have hlapse := judges_lapse hw hb hj hlate
      rcases List.mem_cons.mp hid with rfl | hmem
      · right
        have hfirst : ((b.mapScore fun s => s.record grade).settle id n grade now).result? id =
            some grade := by
          change (((b.live.modify id _)[id]?).bind LiveNote.result) = some grade
          rw [Array.getElem?_modify, if_pos rfl, hb]
          rfl
        rw [(judges_expire hw now scans queue _ _).final id grade hfirst]
        rfl
      · exact ih hmem (by rw [hlapse.size]; exact hlive)

/-- A note that stays in the queue is left alone. -/
theorem live_of_mem_expire (hw : w.Ordered) {scans : Nat} {queue : List Nat}
    {worst : List (Nat × Float × Grade)} {b : Board} (hnodup : queue.Nodup) {id : Nat}
    (hid : id ∈ (expire w now scans queue worst b).1) :
    (expire w now scans queue worst b).2.2.live[id]? = b.live[id]? := by
  fun_induction expire w now scans queue worst b with
  | case1 => rfl
  | case2 => rfl
  | case3 scans first queue worst b hb ih => exact ih (List.nodup_cons.mp hnodup).2 hid
  | case4 scans first queue worst b n hb hj ih => exact ih (List.nodup_cons.mp hnodup).2 hid
  | case5 => rfl
  | case6 scans first queue worst b n hb hj hlate grade ih =>
      obtain ⟨hnot, hrest⟩ := List.nodup_cons.mp hnodup
      have hne : id ≠ first := fun heq => hnot (heq ▸ (expire_suffix _ _ _ _).subset hid)
      exact (ih hrest hid).trans ((judges_lapse hw hb hj hlate).frame id hne)

/-- The first note that stays in the queue is not late, unless the number of notes to look at was used
up. -/
theorem expire_front {scans : Nat} {queue : List Nat} {worst : List (Nat × Float × Grade)}
    {b : Board} {id : Nat} {rest : List Nat}
    (hleft : (expire w now scans queue worst b).1 = id :: rest) :
    (id :: rest).length + scans = queue.length ∨
      ∃ n, (expire w now scans queue worst b).2.2.live[id]? = some n ∧ now - n.trigger ≤ w.exit := by
  fun_induction expire w now scans queue worst b with
  | case1 => cases hleft
  | case2 queue worst b hne =>
      dsimp only at hleft
      exact .inl (by rw [hleft]; rfl)
  | case3 scans first queue worst b hb ih =>
      exact (ih hleft).imp_left fun hlength => congrArg Nat.succ hlength
  | case4 scans first queue worst b n hb hj ih =>
      exact (ih hleft).imp_left fun hlength => congrArg Nat.succ hlength
  | case5 scans first queue worst b n hb hj hlate =>
      obtain ⟨rfl, -⟩ := List.cons.inj hleft
      exact .inr ⟨n, hb, hlate⟩
  | case6 scans first queue worst b n hb hj hlate grade ih =>
      exact (ih hleft).imp_left fun hlength => congrArg Nat.succ hlength

end Expire

/-! ### Presses -/

/-- A queued note that a press at `time` can go to. -/
structure Reached (j : Judge) (time : Float) (b : Board) (id : Nat) (n : LiveNote) : Prop where
  queued : id ∈ j.queue
  live : b.live[id]? = some n
  unjudged : n.result = none
  close : (n.trigger - time).abs ≤ j.windows.exit

theorem reached_of_target {j : Judge} {time : Float} {b : Board} {id : Nat}
    (h : j.target? time b = some id) : ∃ n, Reached j time b id n := by
  unfold target? at h
  have hmem := List.mem_of_mem_take (List.mem_of_find?_eq_some h)
  obtain ⟨n, hn, hreach⟩ := (Option.any_eq_true _ _).mp (by simpa using List.find?_some h)
  obtain ⟨hopen, hclose⟩ : n.result = none ∧ (n.trigger - time).abs ≤ j.windows.exit := by
    simpa [reaches, LiveNote.isJudged] using hreach
  exact ⟨n, hmem, hn, hopen, hclose⟩

/-- What a press may do: nothing, name a hold, judge a note, or judge a layer. -/
inductive Pressed (j : Judge) (time : Float) (notes : Array Note) (b : Board) :
    Press × Judge × Board → Prop where
  | unmatched : Pressed j time notes b (.unmatched, j, b)
  | hold (id : Nat) (n : LiveNote) (note : Note) (h : Reached j time b id n)
      (hnote : notes[n.note]? = some note) (hhold : note.noteType = .hold) :
      Pressed j time notes b (.hold id, j, b)
  | single (id : Nat) (n : LiveNote) (note : Note) (h : Reached j time b id n)
      (hnote : notes[n.note]? = some note) (hhold : note.noteType ≠ .hold)
      (hsingle : note.noteType = .multi → note.layers = []) :
      Pressed j time notes b (.judged, j.pressSingle time id n b)
  | layer (layers id : Nat) (n : LiveNote) (note : Note) (h : Reached j time b id n)
      (hnote : notes[n.note]? = some note) (hhold : note.noteType ≠ .hold)
      (hlayers : layers = note.layers.length) :
      Pressed j time notes b (.judged, j.pressLayer time layers id n b)

theorem press_cases (j : Judge) (time : Float) (notes : Array Note) (b : Board) :
    Pressed j time notes b (j.press time notes b) := by
  unfold press
  cases htarget : j.target? time b with
  | none => exact .unmatched
  | some id =>
      obtain ⟨n, h⟩ := reached_of_target htarget
      simp only [h.live]
      cases hnote : notes[n.note]? with
      | none => exact .unmatched
      | some note =>
          dsimp only
          split_ifs with hhold hlayers
          · exact .hold id n note h hnote hhold
          · exact .layer _ id n note h hnote hhold rfl
          · refine .single id n note h hnote hhold fun hmulti => ?_
            simpa [hmulti] using hlayers

/-- The layers that are remembered were hit. -/
def CleanWorst (j : Judge) : Prop := ∀ e ∈ j.worst, e.2.2.isMiss = false

/-- A press judges the queued note `id`, or a layer of it. -/
structure Hits (j : Judge) (b : Board) (id : Nat) (j' : Judge) (b' : Board) : Prop where
  windows : j'.windows = j.windows
  nextLive : j'.nextLive = j.nextLive
  queue : j'.queue = j.queue ∧ b'.result? id = none ∨
    j'.queue = j.queue.erase id ∧ (b'.result? id).isSome
  worst : j'.CleanWorst
  judges : Board.Judges (· = id) b b'

theorem hits_pressSingle {j : Judge} {time : Float} {b : Board} {id : Nat} {n : LiveNote}
    (h : Reached j time b id n) (hw : j.CleanWorst) :
    Hits j b id (j.pressSingle time id n b).1 (j.pressSingle time id n b).2 := by
  have hhit := Windows.isMiss_grade h.close
  have hearly := Grade.ne_tooFast hhit
  refine ⟨rfl, rfl, .inr ⟨rfl, ?_⟩, hw, ?_⟩
  · exact Option.isSome_of_eq_some (Board.result?_settle h.live _ n _ time)
  · exact Board.judges_settle b h.live h.unjudged hearly (Board.finishes_record hearly _) n time

theorem mem_put {κ α : Type} [BEq κ] {key : κ} {value : α} {entries : List (κ × α)} {e : κ × α}
    (h : e ∈ Assoc.put key value entries) : e = (key, value) ∨ e ∈ entries := by
  induction entries with
  | nil => exact .inl (List.mem_singleton.mp h)
  | cons first rest ih =>
      unfold Assoc.put at h
      split_ifs at h
      · rcases List.mem_cons.mp h with h | h
        · exact .inl h
        · exact .inr (List.mem_cons_of_mem _ h)
      · rcases List.mem_cons.mp h with rfl | h
        · exact .inr List.mem_cons_self
        · exact (ih h).imp id (List.mem_cons_of_mem _)

/-- The worst layer so far, after one more. -/
def worstLayer (old : Option (Float × Grade)) (new : Float × Grade) : Float × Grade :=
  match old with
  | some old => worse old new
  | none => new

/-- The worst layer so far was hit. -/
theorem isMiss_worst {j : Judge} (hw : j.CleanWorst) (id : Nat) {new : Float × Grade}
    (hnew : new.2.isMiss = false) : (worstLayer (j.worst.lookup id) new).2.isMiss = false := by
  unfold worstLayer
  cases hlookup : j.worst.lookup id with
  | none => exact hnew
  | some old =>
      have hold : old.2.isMiss = false := by
        obtain ⟨l, r, hlr, -⟩ := List.lookup_eq_some_iff.mp hlookup
        exact hw (id, old) (by rw [hlr]; simp)
      dsimp only
      unfold worse
      split_ifs
      · exact hnew
      · exact hold

/-- The board with one more judged layer. -/
def layered (j : Judge) (time : Float) (id : Nat) (n : LiveNote) (b : Board) : Board :=
  ((({ b with live := b.live.modify id fun n => { n with layersDone := n.layersDone + 1 } } : Board).mapScore
    fun s => s.applyGrade (j.windows.grade (n.trigger - time))).announce id n
      (j.windows.grade (n.trigger - time)) time (some n.layersDone))

theorem pressLayer_eq (j : Judge) (time : Float) (layers id : Nat) (n : LiveNote) (b : Board) :
    let worst := worstLayer (j.worst.lookup id) ((n.trigger - time).abs, j.windows.grade (n.trigger - time))
    j.pressLayer time layers id n b =
      if layers ≤ n.layersDone + 1 then
        ({ j with queue := j.queue.erase id, worst := Assoc.drop id j.worst },
          ((j.layered time id n b).mapScore fun s => s.tally worst.2).settle id n worst.2 time)
      else ({ j with worst := Assoc.put id worst j.worst }, j.layered time id n b) := rfl

theorem getElem?_layered (j : Judge) (time : Float) (id : Nat) (n : LiveNote) (b : Board) (i : Nat) :
    (j.layered time id n b).live[i]? =
      if id = i then (b.live[i]?).map fun n => { n with layersDone := n.layersDone + 1 } else b.live[i]? :=
  Array.getElem?_modify

theorem hits_pressLayer {j : Judge} {time : Float} {b : Board} {id : Nat} {n : LiveNote}
    (h : Reached j time b id n) (hw : j.CleanWorst) (layers : Nat) :
    Hits j b id (j.pressLayer time layers id n b).1 (j.pressLayer time layers id n b).2 := by
  have hhit := Windows.isMiss_grade h.close
  have hlayer : Board.Judges (· = id) b (j.layered time id n b) :=
    Board.judges_layer b h.live hhit time n.layersDone
  have hworst := isMiss_worst hw id (show ((n.trigger - time).abs,
    j.windows.grade (n.trigger - time)).2.isMiss = false from hhit)
  have hlive : (j.layered time id n b).live[id]? = some { n with layersDone := n.layersDone + 1 } := by
    rw [getElem?_layered, if_pos rfl, h.live]
    rfl
  rw [pressLayer_eq]
  split_ifs with hlast
  · refine ⟨rfl, rfl, .inr ⟨rfl, Option.isSome_of_eq_some (Board.result?_settle hlive _ n _ time)⟩,
      fun e he => hw e (List.mem_filter.mp he).1, hlayer.trans ?_⟩
    exact Board.judges_settle (j.layered time id n b) hlive h.unjudged (Grade.ne_tooFast hworst)
      (Board.finishes_tally hworst _) n time
  · have hopen : (j.layered time id n b).result? id = none := by
      rw [Board.result?, hlive, Option.bind_some]
      exact h.unjudged
    refine ⟨rfl, rfl, .inl ⟨rfl, hopen⟩, fun e he => ?_, hlayer⟩
    rcases mem_put he with rfl | he
    · exact hworst
    · exact hw e he

end RhythmChart.Judge
