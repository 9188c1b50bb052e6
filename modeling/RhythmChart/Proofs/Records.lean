import RhythmChart.Proofs.Desk

/-! # Records

The record of a live note is all that a board keeps about it and a player can see: its grade, its judged
layers, and the times of its final judgments.

Main statements.

* `Board.record_settle` and `Board.record_layer`: judging a note changes the record of that note only;
* `Judge.expired`: what missing the late notes of the queue does to the records;
* `Holds.swept_record`: what a change of the holds does to them. -/

namespace RhythmChart

open Judge Holds

/-- What a board keeps about a live note. -/
@[ext]
structure Record where
  grade : Option Grade
  layers : Nat
  times : List Float

namespace Board

/-- The times of the final judgments of a live note. -/
def finalTimes (judgments : Array Judgment) (id : Nat) : List Float :=
  (judgments.toList.filter fun j => j.live == id && j.layer.isNone).map Judgment.time

/-- The record of a live note. -/
def record (b : Board) (id : Nat) : Record :=
  ⟨b.result? id, ((b.live[id]?).map LiveNote.layersDone).getD 0, finalTimes b.judgments id⟩

@[simp] theorem record_mapScore (b : Board) (f : Score → Score) (id : Nat) :
    (b.mapScore f).record id = b.record id := rfl

theorem finalTimes_push (judgments : Array Judgment) (j : Judgment) (id : Nat) :
    finalTimes (judgments.push j) id =
      finalTimes judgments id ++ if j.live = id ∧ j.layer = none then [j.time] else [] := by
  unfold finalTimes
  rw [Array.toList_push, List.filter_append, List.map_append]
  congr 1
  by_cases h : j.live = id ∧ j.layer = none
  · simp [h]
  · rw [if_neg h]
    have : (j.live == id && j.layer.isNone) = false := by
      rw [← Bool.not_eq_true]
      simpa using h
    simp [this]

theorem finalTimes_eq_nil {b : Board} (h : b.Tallied) {id : Nat} (hid : b.result? id = none) :
    finalTimes b.judgments id = [] := by
  have hfinals : finals b.judgments id = [] := by
    by_cases hlt : id < b.live.size
    · have hn := Array.getElem?_eq_getElem hlt
      rw [h.stream id _ hn]
      rw [result?, hn, Option.bind_some] at hid
      rw [hid]
      rfl
    · exact finals_eq_nil h (Nat.le_of_not_lt hlt)
  unfold finals at hfinals
  unfold finalTimes
  rw [List.map_eq_nil_iff] at hfinals ⊢
  exact hfinals

/-- The record of a note that gets its grade, and those of the others. -/
theorem record_settle (b : Board) {id : Nat} {n : LiveNote} (hn : b.live[id]? = some n)
    (n' : LiveNote) (g : Grade) (time : Float) (i : Nat) :
    (b.settle id n' g time).record i =
      if i = id then ⟨some g, (b.record id).layers, (b.record id).times ++ [time]⟩
      else b.record i := by
  have hlive : (b.settle id n' g time).live[i]? =
      if id = i then (b.live[i]?).map fun n => { n with result := some g } else b.live[i]? :=
    Array.getElem?_modify
  have htimes : finalTimes (b.settle id n' g time).judgments i =
      finalTimes b.judgments i ++ if id = i ∧ (none : Option Nat) = none then [time] else [] :=
    finalTimes_push _ _ i
  split_ifs with hi
  · subst hi
    rw [if_pos rfl, hn] at hlive
    rw [if_pos ⟨rfl, rfl⟩] at htimes
    simp only [record, result?, hlive, htimes, hn]
    rfl
  · rw [if_neg (Ne.symm hi)] at hlive
    rw [if_neg fun h => hi h.1.symm, List.append_nil] at htimes
    simp only [record, result?, hlive, htimes]

/-- The record of a note of which one more layer is judged, and those of the others. -/
theorem record_layer (b : Board) {id : Nat} {n : LiveNote} (hn : b.live[id]? = some n)
    (n' : LiveNote) (g : Grade) (time : Float) (layer i : Nat) :
    (({ b with live := b.live.modify id fun n =>
        { n with layersDone := n.layersDone + 1 } } : Board).announce id n' g time
          (some layer)).record i =
      if i = id then { b.record id with layers := n.layersDone + 1 } else b.record i := by
  set b' := ({ b with live := b.live.modify id fun n =>
    { n with layersDone := n.layersDone + 1 } } : Board).announce id n' g time (some layer) with hb'
  have hlive : b'.live[i]? = if id = i then
      (b.live[i]?).map fun n => { n with layersDone := n.layersDone + 1 } else b.live[i]? :=
    Array.getElem?_modify
  have htimes : finalTimes b'.judgments i = finalTimes b.judgments i := by
    have hpush : finalTimes b'.judgments i = finalTimes b.judgments i ++
        if id = i ∧ some layer = none then [time] else [] := finalTimes_push _ _ i
    rw [hpush, if_neg (by simp), List.append_nil]
  split_ifs with hi
  · subst hi
    rw [if_pos rfl, hn] at hlive
    simp only [record, result?, hlive, htimes, hn]
    rfl
  · rw [if_neg (Ne.symm hi)] at hlive
    simp only [record, result?, hlive, htimes]

end Board

/-! ### Missing notes -/

/-- The notes `gone` lapse: they are missed, and nothing else happens. -/
structure Judge.Expired (gone : List Nat) (worst : List (Nat × Float × Grade)) (b : Board)
    (worst' : List (Nat × Float × Grade)) (b' : Board) : Prop where
  worst : ∀ id, worst'.lookup id = if id ∈ gone then none else worst.lookup id
  grade : ∀ id, (b'.record id).grade = if id ∈ gone then some .tooLate else (b.record id).grade
  layers : ∀ id, (b'.record id).layers = (b.record id).layers
  times : ∀ id, id ∉ gone → (b'.record id).times = (b.record id).times

/-- A live note waits at a time that the sheet knows. -/
structure Sheet.Waits (S : Sheet) (b : Board) (id : Nat) : Prop where
  unjudged : ∃ n, b.live[id]? = some n ∧ n.result = none ∧ n.trigger = S.trigger id

theorem Judge.expired {S : Sheet} (hw : S.windows.Ordered) {now : Float} {scans : Nat}
    {queue : List Nat} {worst : List (Nat × Float × Grade)} {b : Board}
    (hscans : queue.length ≤ scans) (hnodup : queue.Nodup) (hwaits : ∀ id ∈ queue, S.Waits b id) :
    let r := expire S.windows now scans queue worst b
    r.1 = queue.dropWhile (S.isGone now) ∧
      Expired (queue.takeWhile (S.isGone now)) worst b r.2.1 r.2.2 := by
  intro r
  induction queue generalizing scans worst b with
  | nil =>
      have hr : r = ([], worst, b) := by unfold r expire; rfl
      rw [hr]
      exact ⟨rfl, fun _ => rfl, fun _ => rfl, fun _ => rfl, fun _ _ => rfl⟩
  | cons id queue ih =>
      obtain ⟨hnot, hrest⟩ := List.nodup_cons.mp hnodup
      obtain ⟨n, hn, hu, htrigger⟩ := (hwaits id List.mem_cons_self).unjudged
      obtain ⟨scans, rfl⟩ : ∃ k, scans = k + 1 := Nat.exists_eq_succ_of_ne_zero (by
        rw [List.length_cons] at hscans
        omega)
      have hopen : ¬ n.isJudged = true := by simp [LiveNote.isJudged, hu]
      have hgone : S.isGone now id = !decide (now - n.trigger ≤ S.windows.exit) := by
        rw [Sheet.isGone, htrigger]
      by_cases hlate : now - n.trigger ≤ S.windows.exit
      · have hr : r = (id :: queue, worst, b) := by
          unfold r expire
          simp only [hn]
          rw [if_neg hopen, if_pos hlate]
        have hstays : S.isGone now id = false := by simp [hgone, hlate]
        rw [hr, List.dropWhile_cons_of_neg (by simp [hstays]),
          List.takeWhile_cons_of_neg (by simp [hstays])]
        exact ⟨rfl, fun _ => rfl, fun _ => rfl, fun _ => rfl, fun _ _ => rfl⟩
      · set b' := (b.mapScore fun s => s.record (S.windows.grade (n.trigger - now))).settle id n
          (S.windows.grade (n.trigger - now)) now with hb'
        have hr : r = expire S.windows now scans queue (Assoc.drop id worst) b' := by
          unfold r
          conv_lhs => unfold expire
          simp only [hn]
          rw [if_neg hopen, if_neg hlate]
        have hleaves : S.isGone now id = true := by simp [hgone, hlate]
        have hrecord : ∀ i, b'.record i = if i = id then
            ⟨some .tooLate, (b.record id).layers, (b.record id).times ++ [now]⟩ else b.record i := by
          intro i
          rw [hb', Windows.grade_eq_tooLate hw hlate]
          exact Board.record_settle (b.mapScore fun s => s.record .tooLate) hn n .tooLate now i
        have hwaits' : ∀ i ∈ queue, S.Waits b' i := by
          intro i hi
          have hne : i ≠ id := fun heq => hnot (heq ▸ hi)
          obtain ⟨m, hm, hmu, hmt⟩ := (hwaits i (List.mem_cons_of_mem _ hi)).unjudged
          refine ⟨m, ?_, hmu, hmt⟩
          exact ((judges_lapse hw hn hopen hlate).frame i hne).trans hm
        obtain ⟨hqueue, e⟩ := @ih scans (Assoc.drop id worst) b'
          (by rw [List.length_cons] at hscans; omega) hrest hwaits'
        rw [hr, List.dropWhile_cons_of_pos hleaves, List.takeWhile_cons_of_pos hleaves]
        refine ⟨hqueue, fun i => ?_, fun i => ?_, fun i => ?_, fun i hi => ?_⟩
        · rw [e.worst, Assoc.lookup_drop]
          by_cases h1 : i = id <;> simp [h1]
        · rw [e.grade, hrecord]
          by_cases h1 : i = id <;> simp [h1]
        · rw [e.layers, hrecord]
          split_ifs with h1
          · rw [h1]
          · rfl
        · rw [List.mem_cons, not_or] at hi
          rw [e.times i hi.2, hrecord, if_neg hi.1]

/-! ### Changing holds -/

/-- The record of a note with a given ending, if there is one. -/
def Record.close (r : Record) : Option Ending → Record
  | none => r
  | some e => ⟨some e.grade, r.layers, r.times ++ e.time.toList⟩

namespace Holds

/-- A change that looks at the board for idle holds only. -/
def Blind (fate : Board → Hold → HoldFate) : Prop :=
  ∀ b h, h.phase.isEngaged = true → fate b h = fate .blank h

theorem blind_timeFate (w : Windows) (now : Float) : Blind (timeFate w now) := by
  intro b h he
  unfold timeFate
  cases hp : h.phase with
  | idle => rw [hp] at he; cases he
  | holding k g => rfl
  | guarded k g released => rfl

theorem blind_crossFate (key : Key) (time : Float) : Blind (crossFate key time) := fun _ _ _ => rfl

theorem blind_releaseFate (w : Windows) (key : Key) (time : Float) :
    Blind (releaseFate w key time) := fun _ _ _ => rfl

theorem record_finishHold {h : Hold} {b : Board} {n : LiveNote} (hn : b.live[h.live]? = some n)
    (g : Grade) (time : Float) (i : Nat) :
    (finishHold h g time b).record i =
      if i = h.live then (b.record h.live).close (some ⟨g, some time⟩) else b.record i := by
  have hplain : (b.mapScore fun s => s.record g).live[h.live]? = some n := hn
  have hmarked : ∀ k, ((b.mapScore fun s => s.record g).mapScore fun s =>
      s.markError k time).live[h.live]? = some n := fun _ => hn
  unfold finishHold
  cases g.isMiss with
  | false =>
      simp only [hplain]
      exact Board.record_settle _ hplain n g time i
  | true =>
      cases h.phase.key? with
      | none =>
          simp only [hplain]
          exact Board.record_settle _ hplain n g time i
      | some k =>
          simp only [hmarked]
          exact Board.record_settle _ (hmarked k) n g time i

/-- What a change does to the holds `hs` and to the records. -/
structure Recorded (fate : Board → Hold → HoldFate) (hs : List Hold) (b : Board) (hs' : List Hold)
    (b' : Board) : Prop where
  origin : ∀ h' ∈ hs', ∃ h ∈ hs, h' = { h with phase := (fate .blank h).phase }
  kept : ∀ h ∈ hs, h.live ∈ hs'.map Hold.live ∨ (fate .blank h).phase.isEngaged = false
  frame : ∀ id, id ∉ hs.map Hold.live → b'.record id = b.record id
  record : ∀ h ∈ hs, b'.record h.live = (b.record h.live).close (fate .blank h).ending?

/-- A hold that goes on does so as the change says. -/
theorem goOn_eq {fate : Board → Hold → HoldFate} (hf : Lawful fate) (hblind : Blind fate) {b : Board}
    {h h' : Hold} (hfate : fate b h = .goOn h') :
    h' = { h with phase := (fate .blank h).phase } ∧ (fate .blank h).ending? = none := by
  have hc := hf.continues hfate
  have hphase : h'.phase = (fate .blank h).phase ∧ (fate .blank h).ending? = none := by
    by_cases he : h.phase.isEngaged = true
    · rw [← hblind b h he, hfate]
      exact ⟨rfl, rfl⟩
    · rw [Bool.not_eq_true] at he
      obtain ⟨hidle, hnone⟩ := Desk.isEngaged_phase hf .blank h he
      exact ⟨(eq_idle (hc.engaged.trans he)).trans hidle.symm, hnone⟩
  refine ⟨?_, hphase.2⟩
  rw [← hphase.1]
  obtain ⟨hlive, htrigger, hfinish, -⟩ := hc
  cases h'
  subst hlive htrigger hfinish
  rfl

section Cons

variable {fate : Board → Hold → HoldFate} {h : Hold} {rest hs : List Hold} {b b' b'' : Board}

/-- A first hold that goes on stands before the others. -/
theorem Recorded.goOn {h' : Hold} (heq : h' = { h with phase := (fate .blank h).phase })
    (hnone : (fate .blank h).ending? = none) (hnot : h.live ∉ rest.map Hold.live)
    (r : Recorded fate rest b hs b') : Recorded fate (h :: rest) b (h' :: hs) b' := by
  refine ⟨fun k hk => ?_, fun k hk => ?_, fun id hid => ?_, fun k hk => ?_⟩
  · rcases List.mem_cons.mp hk with rfl | hk
    · exact ⟨h, List.mem_cons_self, heq⟩
    · obtain ⟨k', hk', hk''⟩ := r.origin k hk
      exact ⟨k', List.mem_cons_of_mem _ hk', hk''⟩
  · rcases List.mem_cons.mp hk with rfl | hk
    · left
      rw [heq]
      exact List.mem_cons_self
    · exact (r.kept k hk).imp (List.mem_cons_of_mem _) fun h => h
  · rw [List.map_cons, List.mem_cons, not_or] at hid
    exact r.frame id hid.2
  · rcases List.mem_cons.mp hk with rfl | hk
    · rw [hnone]
      exact r.frame _ hnot
    · exact r.record k hk

/-- A first hold that is graded or dropped changes the record of its own note alone. -/
theorem Recorded.gone (hidle : (fate .blank h).phase.isEngaged = false)
    (hrecord : ∀ id, b'.record id =
      if id = h.live then (b.record h.live).close (fate .blank h).ending? else b.record id)
    (hnot : h.live ∉ rest.map Hold.live) (r : Recorded fate rest b' hs b'') :
    Recorded fate (h :: rest) b hs b'' := by
  refine ⟨fun k hk => ?_, fun k hk => ?_, fun id hid => ?_, fun k hk => ?_⟩
  · obtain ⟨k', hk', hk''⟩ := r.origin k hk
    exact ⟨k', List.mem_cons_of_mem _ hk', hk''⟩
  · rcases List.mem_cons.mp hk with rfl | hk
    · exact .inr hidle
    · exact r.kept k hk
  · rw [List.map_cons, List.mem_cons, not_or] at hid
    exact (r.frame id hid.2).trans ((hrecord id).trans (if_neg hid.1))
  · rcases List.mem_cons.mp hk with rfl | hk
    · exact (r.frame _ hnot).trans ((hrecord _).trans (if_pos rfl))
    · have hne : k.live ≠ h.live := fun heq => hnot (heq ▸ List.mem_map_of_mem hk)
      have := r.record k hk
      rwa [hrecord, if_neg hne] at this

end Cons

theorem swept_record {fate : Board → Hold → HoldFate} (hf : Lawful fate) (hblind : Blind fate)
    {hs : List Hold} {b : Board} (hnodup : (hs.map Hold.live).Nodup) (hopen : OpenNotes hs b) :
    Recorded fate hs b (sweep fate hs b).1 (sweep fate hs b).2 := by
  refine sweep_induction hf (P := Recorded fate) (fun b => ?_) ?_ ?_ ?_ hnodup hopen
  · exact ⟨fun _ h => (nomatch h), fun _ h => (nomatch h), fun _ _ => rfl, fun _ h => (nomatch h)⟩
  · intro h h' rest b hfate _ _ hnot r
    obtain ⟨heq, hnone⟩ := goOn_eq hf hblind hfate
    exact r.goOn heq hnone hnot
  · intro h g time n rest b hfate he _ hn _ hnot graded r
    have hblank : fate .blank h = .grade g time := by rw [← hblind b h he, hfate]
    refine r.gone ?_ ?_ hnot
    · rw [hblank]
      rfl
    · rw [hblank]
      exact record_finishHold hn g time
  · intro h rest b _ he hnot r
    obtain ⟨hidle, hnone⟩ := Desk.isEngaged_phase hf .blank h he
    refine r.gone ?_ (fun id => ?_) hnot
    · rw [hidle]
      rfl
    · rw [hnone]
      split_ifs with hid
      · rw [hid]
        rfl
      · rfl

end Holds

end RhythmChart
