import RhythmChart.Proofs.Edges
import RhythmChart.Proofs.Triggers

/-! # No note is lost

Every live note that judging has come to is judged, queued or held, and it is so only once.  The queue
looks at live notes in order, and at its own front: that is enough, because live notes come in the order
of their times.

Main statements.

* `Stage.Queued`: the queue is in order, and knows the holds of its notes;
* `Stage.Queued.edge` and `Stage.Queued.settleTime`: what keys and time do keeps that;
* `Stage.idle_settleTime`: when time has been settled, the idle holds are those of the queued notes;
* `Stage.not_late_maintain` and `Stage.lt_nextLive_maintain`: what the queue holds after it was brought
  to a time;
* `Playback.complete_after`: all of this holds after any inputs. -/

namespace RhythmChart

open Judge Holds Binary64

namespace Stage

variable {notes : Array Note}

/-! ### Queued notes -/

theorem isHold_of_stamp {live live' : Array LiveNote}
    (h : live'.map LiveNote.stamp = live.map LiveNote.stamp) (id : Nat) :
    isHold notes live' id = isHold notes live id := by
  have hstamp : ∀ live : Array LiveNote, isHold notes live id =
      ((live.map LiveNote.stamp)[id]?).any fun n =>
        (notes[n.note]?).any fun note => note.noteType == .hold := by
    intro live
    rw [isHold, Array.getElem?_map, Option.any_map]
    rfl
  rw [hstamp, hstamp, h]

/-- The queue is in order and its notes wait for their grades.  The tracked holds are holds, those of
the queued notes among them. -/
structure Queued (notes : Array Note) (s : Stage) : Prop where
  sorted : s.judge.queue.Pairwise (· < ·)
  waiting : ∀ id ∈ s.judge.queue, s.board.result? id = none
  tracked : ∀ id ∈ s.judge.queue, isHold notes s.board.live id = true →
    id ∈ s.holds.holds.map Hold.live
  holds : ∀ id ∈ s.holds.holds.map Hold.live, isHold notes s.board.live id = true

theorem Queued.nodup {s : Stage} (h : s.Queued notes) : s.judge.queue.Nodup :=
  h.sorted.imp fun hlt => hlt.ne

/-- A step that queues nothing, judges no note that stays queued, and tracks the same holds of those. -/
theorem Queued.step {s s' : Stage} (h : s.Queued notes)
    (hstamp : s'.board.live.map LiveNote.stamp = s.board.live.map LiveNote.stamp)
    (hqueue : s'.judge.queue.Sublist s.judge.queue)
    (hwaiting : ∀ id ∈ s'.judge.queue, s'.board.result? id = none)
    (htracked : ∀ id ∈ s'.judge.queue, id ∈ s.holds.holds.map Hold.live →
      id ∈ s'.holds.holds.map Hold.live)
    (hholds : s'.holds.holds.map Hold.live ⊆ s.holds.holds.map Hold.live) : s'.Queued notes where
  sorted := h.sorted.sublist hqueue
  waiting := hwaiting
  tracked id hid hhold := by
    rw [isHold_of_stamp hstamp] at hhold
    exact htracked id hid (h.tracked id (hqueue.subset hid) hhold)
  holds id hid := by
    rw [isHold_of_stamp hstamp]
    exact h.holds id (hholds hid)

/-- Registering holds. -/
theorem Queued.grows {s : Stage} (h : s.Queued notes) {ids : List Nat} {t : Holds}
    (hg : Grows ids s.holds t) (hids : ∀ id ∈ ids, isHold notes s.board.live id = true) :
    ({ s with holds := t } : Stage).Queued notes where
  sorted := h.sorted
  waiting := h.waiting
  tracked id hid hhold := List.map_subset _ hg.subset (h.tracked id hid hhold)
  holds id hid := by
    obtain ⟨k, hk, rfl⟩ := List.mem_map.mp hid
    rcases hg.mem_or_idle hk with hk | ⟨-, hnew⟩
    · exact h.holds _ (List.mem_map_of_mem hk)
    · exact hids _ hnew

/-! ### Time -/

theorem pairwise_openBetween (live : Array LiveNote) (i j : Nat) :
    (openBetween notes live i j).Pairwise (· < ·) :=
  (List.pairwise_lt_range' 1).sublist List.filter_sublist

/-- Letting notes in keeps the queue in order: they come after all that were let in before. -/
theorem Queued.pairwise_append {s : Stage} (hs : s.Sound notes) (h : s.Queued notes) (next : Nat) :
    (s.judge.queue ++ openBetween notes s.board.live s.judge.nextLive next).Pairwise (· < ·) := by
  refine List.pairwise_append.mpr ⟨h.sorted, pairwise_openBetween _ _ _, fun i hi j hj => ?_⟩
  exact (hs.queued i hi).trans_le (mem_openBetween.mp hj).1

theorem Queued.maintain {s : Stage} {scene : Scene} (hs : s.Sound scene.notes)
    (h : s.Queued scene.notes) (now : Float) : (s.maintain scene now).Queued scene.notes := by
  obtain ⟨-, hregistered, -⟩ := hs.queue now
  unfold Stage.maintain
  rw [maintain_eq] at hregistered ⊢
  dsimp only at hregistered ⊢
  set next := frontier s.judge.windows.enter now s.board.live s.judge.nextLive
  set entered := openBetween scene.notes s.board.live s.judge.nextLive next with hentered
  set left := expire s.judge.windows now maxScan (s.judge.queue ++ entered) s.judge.worst s.board
    with hleft
  have hsorted : (s.judge.queue ++ entered).Pairwise (· < ·) := h.pairwise_append hs next
  have hnodup : (s.judge.queue ++ entered).Nodup := hsorted.imp fun hlt => hlt.ne
  have hsuffix : left.1 <:+ s.judge.queue ++ entered := expire_suffix _ _ _ _
  have hstamp := (judges_expire hs.ordered now maxScan (s.judge.queue ++ entered) s.judge.worst
    s.board).stamp
  have hgrows := (grows_foldl_track (entered.filter (isHold scene.notes left.2.2.live)) s.holds
    left.2.2.live scene.notes scene.speed hregistered).1
  refine
    { sorted := hsorted.sublist hsuffix.sublist
      waiting := fun id hid => ?_
      tracked := fun id hid hhold => ?_
      holds := fun id hid => ?_ }
  · have hlive : left.2.2.live[id]? = s.board.live[id]? := live_of_mem_expire hs.ordered hnodup hid
    change (left.2.2.live[id]?).bind LiveNote.result = none
    rw [hlive]
    rcases List.mem_append.mp (hsuffix.subset hid) with hid | hid
    · exact h.waiting id hid
    · exact result?_of_isOpen (mem_openBetween.mp hid).2.2
  · rcases List.mem_append.mp (hsuffix.subset hid) with hold | hnew
    · rw [isHold_of_stamp hstamp] at hhold
      exact List.map_subset _ hgrows.subset (h.tracked id hold hhold)
    · obtain ⟨n, hn, -⟩ := (Option.any_eq_true _ _).mp hhold
      exact mem_map_foldl_track scene.notes scene.speed hregistered
        (List.mem_filter.mpr ⟨hnew, hhold⟩) hn
  · obtain ⟨k, hk, rfl⟩ := List.mem_map.mp hid
    rcases hgrows.mem_or_idle hk with hk | ⟨-, hnew⟩
    · rw [isHold_of_stamp hstamp]
      exact h.holds _ (List.mem_map_of_mem hk)
    · exact (List.mem_filter.mp hnew).2

/-- The hold of a queued note is idle. -/
theorem isEngaged_of_queued {s : Stage} (hs : s.Sound notes) {k : Hold} (hk : k ∈ s.holds.holds)
    (hid : k.live ∈ s.judge.queue) : k.phase.isEngaged = false := by
  rw [← Bool.not_eq_true]
  exact fun he => (hs.engaged k hk he).1 hid

/-- A change of the holds judges no queued note. -/
theorem live_change {s : Stage} (hs : s.Sound notes) {fate : Board → Hold → HoldFate}
    (hf : Lawful fate) {id : Nat} (hid : id ∈ s.judge.queue) :
    (s.change fate).board.live[id]? = s.board.live[id]? := by
  refine (swept hf hs.registered.once hs.openNotes).judges.frame id ?_
  rintro ⟨k, hk, he, rfl⟩
  exact (hs.engaged k hk he).1 hid

theorem Queued.change {s : Stage} (hs : s.Sound notes) (h : s.Queued notes)
    {fate : Board → Hold → HoldFate} (hf : Lawful fate) (hp : Patient fate) :
    (s.change fate).Queued notes := by
  have r := swept hf hs.registered.once hs.openNotes
  refine h.step r.judges.stamp (List.Sublist.refl _) (fun id hid => ?_) (fun id hid hmem => ?_)
    r.order.subset
  · rw [Board.result?, live_change hs hf hid]
    exact h.waiting id hid
  · obtain ⟨k, hk, rfl⟩ := List.mem_map.mp hmem
    obtain ⟨b, hlive, hiff⟩ := mem_sweep hf hs.registered.once hs.openNotes hk
    refine List.mem_map_of_mem ((hiff k rfl).mpr (hp b k (isEngaged_of_queued hs hk hid) ?_))
    rw [Board.result?, hlive]
    exact h.waiting _ hid

theorem Queued.settleTime {s : Stage} {scene : Scene} (hs : s.Sound scene.notes)
    (h : s.Queued scene.notes) (now : Float) : (s.settleTime scene now).Queued scene.notes :=
  (h.maintain hs now).change (hs.maintain now) (lawful_timeFate _ now) (patient_timeFate _ now)

/-! ### Keys -/

theorem Queued.release {s : Stage} (hs : s.Sound notes) (h : s.Queued notes) (key : Key)
    (time : Float) : (s.release key time).Queued notes :=
  (h.change hs (lawful_timeFate _ time) (patient_timeFate _ time)).change
    (hs.change (lawful_timeFate _ time)) (lawful_releaseFate _ key time)
    (patient_releaseFate _ key time)

theorem Queued.resume {s : Stage} (h : s.Queued notes) (key : Key) (time : Float) :
    ({ s with holds := (s.holds.resume key time).2 } : Stage).Queued notes := by
  have hlive : (modifyFirst (canResume s.holds.windows key time) resumed s.holds.holds).map Hold.live =
      s.holds.holds.map Hold.live := map_live_modifyFirst (fun k => (continues_resumed k).live) _
  exact h.step rfl (List.Sublist.refl _) h.waiting (fun id _ hid => hlive ▸ hid) fun _ hid => hlive ▸ hid

theorem Queued.chargeEmpty {s : Stage} (h : s.Queued notes) (scene : Scene) (key : Key)
    (time : Float) : (s.chargeEmpty scene key time).Queued notes := by
  unfold Stage.chargeEmpty
  split_ifs
  · exact h
  · exact h.step rfl (List.Sublist.refl _) h.waiting (fun _ _ hid => hid) fun _ hid => hid

/-- A press that judges a queued note or one of its layers. -/
theorem Queued.hits {s : Stage} (h : s.Queued notes) {id : Nat} {j' : Judge} {b' : Board}
    (hits : Hits s.judge s.board id j' b') :
    ({ s with judge := j', board := b' } : Stage).Queued notes := by
  have hother : ∀ i ∈ s.judge.queue, i ≠ id → b'.result? i = none := by
    intro i hi hne
    rw [Board.result?, hits.judges.frame i hne]
    exact h.waiting i hi
  have hqueue : j'.queue.Sublist s.judge.queue := by
    rcases hits.queue with ⟨heq, -⟩ | ⟨heq, -⟩
    · exact heq ▸ List.Sublist.refl _
    · exact heq ▸ List.erase_sublist
  refine h.step hits.judges.stamp hqueue (fun i hi => ?_) (fun _ _ hid => hid) fun _ hid => hid
  rcases hits.queue with ⟨-, hnone⟩ | ⟨heq, -⟩
  · by_cases hne : i = id
    · exact hne ▸ hnone
    · exact hother i (hqueue.subset hi) hne
  · have hi' : i ∈ s.judge.queue.erase id := heq ▸ hi
    exact hother i (hqueue.subset hi) (h.nodup.mem_erase_iff.mp hi').1

/-- A press that begins the hold of a queued note. -/
theorem Queued.begun {s : Stage} (h : s.Queued notes) (id : Nat) (key : Key) (g : Grade) :
    (⟨s.judge.remove id, s.holds.begun id key g, s.board.mapScore fun s => s.applyGrade g⟩ :
      Stage).Queued notes := by
  have hlive : (s.holds.begun id key g).holds.map Hold.live = s.holds.holds.map Hold.live :=
    map_live_modifyFirst (f := hold key g) (fun _ => rfl) _
  exact h.step rfl List.filter_sublist (fun i hi => h.waiting i (List.mem_filter.mp hi).1)
    (fun i _ hid => hlive ▸ hid) fun _ hid => hlive ▸ hid

theorem Queued.hit {s : Stage} {scene : Scene} (hs : s.Sound scene.notes) (h : s.Queued scene.notes)
    (key : Key) (time : Float) : (s.hit scene key time).Queued scene.notes := by
  have hisHold : ∀ {id : Nat} {n : LiveNote} {note : Note}, Reached s.judge time s.board id n →
      scene.notes[n.note]? = some note → note.noteType = .hold →
      ∀ i ∈ [id], isHold scene.notes s.board.live i = true := by
    intro id n note hr hnote hhold i hi
    rw [List.mem_singleton.mp hi, isHold, hr.live, Option.any_some, hnote, Option.any_some]
    simpa using hhold
  have hlanded := hit_cases hs.registered scene key time
  generalize s.hit scene key time = s' at hlanded ⊢
  cases hlanded with
  | empty => exact h.chargeEmpty scene key time
  | single id n hr => exact h.hits (hits_pressSingle hr hs.worst)
  | layer layers id n hr => exact h.hits (hits_pressLayer hr hs.worst layers)
  | refused id n note hr hnote hhold _ t hg =>
      exact (h.grows hg (hisHold hr hnote hhold)).chargeEmpty scene key time
  | begun id n note hr hnote hhold t hg _ k _ _ g =>
      exact (h.grows hg (hisHold hr hnote hhold)).begun id key g

theorem Queued.press {s : Stage} {scene : Scene} (hs : s.Sound scene.notes)
    (h : s.Queued scene.notes) (key : Key) (time : Float) :
    (s.press scene key time).Queued scene.notes := by
  have hresumed := (hs.settleTime time).resume key time
  have hready := ((h.settleTime hs time).resume key time).change hresumed
    (lawful_crossFate key time) (patient_crossFate key time)
  unfold Stage.press
  dsimp only
  split_ifs
  · exact hready
  · exact hready.hit (hresumed.change (lawful_crossFate key time)) key time

theorem Queued.edge {s : Stage} {scene : Scene} (hs : s.Sound scene.notes)
    (h : s.Queued scene.notes) (e : Edge) : (s.edge scene e).Queued scene.notes := by
  unfold Stage.edge
  split_ifs
  · exact h.press hs e.key e.time
  · exact h.release hs e.key e.time

/-- A run of edges keeps all invariants of judging. -/
theorem Queued.edges (scene : Scene) (es : List Edge) {s : Stage} (hs : s.Sound scene.notes)
    (h : s.Queued scene.notes) :
    let s' := es.foldl (fun s e => s.edge scene e) s
    s'.Sound scene.notes ∧ s'.Queued scene.notes ∧ s.Frame s' := by
  induction es generalizing s with
  | nil => exact ⟨hs, h, .refl s⟩
  | cons e es ih =>
      obtain ⟨hs', h', hframe⟩ := ih (hs.edge e) (h.edge hs e)
      exact ⟨hs', h', (frame_edge hs e).trans hframe⟩

/-! ### Classes of live notes -/

/-- Whether a key drives the hold of a live note. -/
def isHeld (s : Stage) (id : Nat) : Bool :=
  s.holds.holds.any fun h => h.live == id && h.phase.isEngaged

/-- Where the live notes are. -/
structure Complete (notes : Array Note) (s : Stage) : Prop where
  /-- The queue is strictly rising. -/
  sorted : s.judge.queue.Pairwise (· < ·)
  /-- Judging has come to the queued notes, and they wait for their grades. -/
  waiting : ∀ id ∈ s.judge.queue, id < s.judge.nextLive ∧
    ∃ n, s.board.live[id]? = some n ∧ n.isJudged = false
  /-- A judgable note that judging has come to is judged, or queued, or held, and only one of these. -/
  once : ∀ id n, id < s.judge.nextLive → s.board.live[id]? = some n →
    Board.isJudgable notes n = true →
    [n.isJudged, s.judge.queue.contains id, s.isHeld id].count true = 1
  /-- No later note is judged. -/
  ahead : ∀ id n, s.judge.nextLive ≤ id → s.board.live[id]? = some n → n.isJudged = false

theorem isJudged_eq {b : Board} {id : Nat} {n : LiveNote} (hn : b.live[id]? = some n) :
    n.isJudged = (b.result? id).isSome := by
  rw [Board.result?, hn, Option.bind_some]
  rfl

theorem isHeld_eq_false {s : Stage} {id : Nat}
    (h : ∀ k ∈ s.holds.holds, k.phase.isEngaged = true → k.live ≠ id) : s.isHeld id = false := by
  rw [isHeld, List.any_eq_false]
  intro k hk
  rw [Bool.and_eq_true, beq_iff_eq]
  exact fun hheld => h k hk hheld.2 hheld.1

theorem Queued.complete {s : Stage} (hs : s.Sound notes) (h : s.Queued notes) : s.Complete notes where
  sorted := h.sorted
  waiting id hid := by
    have hn := Array.getElem?_eq_getElem ((hs.queued id hid).trans_le hs.near)
    refine ⟨hs.queued id hid, _, hn, ?_⟩
    rw [isJudged_eq hn, h.waiting id hid]
    rfl
  once id n hlt hn hjudgable := by
    cases hjudged : n.isJudged with
    | true =>
        have hsome : (s.board.result? id).isSome = true := by rw [← isJudged_eq hn, hjudged]
        have hqueue : s.judge.queue.contains id = false := by
          rw [← Bool.not_eq_true, List.contains_iff_mem]
          intro hid
          rw [h.waiting id hid] at hsome
          cases hsome
        have hheld : s.isHeld id = false := isHeld_eq_false fun k hk he hlive => by
          obtain ⟨m, hm, hu⟩ := hs.openNotes k hk he
          rw [hlive, hn] at hm
          obtain rfl := Option.some.inj hm
          rw [LiveNote.isJudged, hu] at hjudged
          cases hjudged
        rw [hqueue, hheld]
        rfl
    | false =>
        have hopen : isOpen notes s.board.live id = true := by
          rw [isOpen, hn, Option.any_some, hjudgable, hjudged]
          rfl
        rcases hs.attended id hlt hopen with hqueued | ⟨k, hk, hlive, he⟩
        · have hqueue : s.judge.queue.contains id = true := List.contains_iff_mem.mpr hqueued
          have hheld : s.isHeld id = false := isHeld_eq_false fun k hk he hlive =>
            (hs.engaged k hk he).1 (hlive ▸ hqueued)
          rw [hqueue, hheld]
          rfl
        · have hqueue : s.judge.queue.contains id = false := by
            rw [← Bool.not_eq_true, List.contains_iff_mem]
            exact hlive ▸ (hs.engaged k hk he).1
          have hheld : s.isHeld id = true := List.any_eq_true.mpr ⟨k, hk, by simp [hlive, he]⟩
          rw [hqueue, hheld]
          rfl
  ahead id n hle hn := by
    rw [isJudged_eq hn, ← Bool.not_eq_true]
    exact fun hjudged => absurd (hs.admitted id (.inl hjudged)).1 (not_lt.mpr hle)

/-! ### Idle holds -/

/-- The live notes of the idle holds. -/
def idle (s : Stage) : List Nat :=
  (s.holds.holds.filter fun h => !h.phase.isEngaged).map Hold.live

/-- The queued live notes that are holds. -/
def queuedHolds (s : Stage) (notes : Array Note) : List Nat :=
  s.judge.queue.filter (isHold notes s.board.live)

theorem mem_idle {s : Stage} {id : Nat} :
    id ∈ s.idle ↔ ∃ k ∈ s.holds.holds, k.phase.isEngaged = false ∧ k.live = id := by
  simp [idle, List.mem_map, List.mem_filter, and_assoc]

/-- The note of an idle hold that time leaves alone is queued. -/
theorem mem_queue_of_idle {s : Stage} (hs : s.Sound notes) {w : Windows} {now : Float} {k : Hold}
    (hk : k ∈ (s.change (timeFate w now)).holds.holds) (hidle : k.phase.isEngaged = false) :
    k.live ∈ s.judge.queue := by
  obtain ⟨k₀, hk₀, hc⟩ := (swept (lawful_timeFate w now) hs.registered.once hs.openNotes).origin k hk
  have hidle₀ : k₀.phase.isEngaged = false := hc.engaged ▸ hidle
  obtain ⟨b, hsame, hiff⟩ :=
    mem_sweep (lawful_timeFate w now) hs.registered.once hs.openNotes hk₀
  have hfate := (hiff k hc.live).mp hk
  obtain ⟨n, hn, -⟩ := hs.registered.noted k₀ hk₀
  -- Time drops the hold of a judged note.
  have hunjudged : n.isJudged = false := by
    rw [timeFate, eq_idle hidle₀] at hfate
    dsimp only at hfate
    rw [hsame, hn, Option.any_some] at hfate
    rw [← Bool.not_eq_true]
    intro hjudged
    rw [if_pos hjudged] at hfate
    cases hfate
  have hadmitted := hs.admitted_hold hk₀
  have hopen : isOpen notes s.board.live k₀.live = true := by
    rw [isOpen, hn, Option.any_some, hadmitted.2 n hn, hunjudged]
    rfl
  rw [hc.live]
  rcases hs.attended k₀.live hadmitted.1 hopen with hqueued | ⟨k', hk', hlive, he⟩
  · exact hqueued
  · obtain rfl := List.inj_on_of_nodup_map hs.registered.once hk' hk₀ hlive
    rw [he] at hidle₀
    cases hidle₀

/-- When queue and holds have been brought to one time, the idle holds are those of the queued notes. -/
theorem idle_settleTime {s : Stage} {scene : Scene} (hs : s.Sound scene.notes)
    (h : s.Queued scene.notes) (now : Float) :
    (s.settleTime scene now).idle.Perm ((s.settleTime scene now).queuedHolds scene.notes) := by
  have hsettled := hs.settleTime now
  have hqueued := h.settleTime hs now
  have hnodup : (s.settleTime scene now).idle.Nodup :=
    hsettled.registered.once.sublist (List.filter_sublist.map _)
  refine (List.perm_ext_iff_of_nodup hnodup (hqueued.nodup.sublist List.filter_sublist)).mpr fun id => ?_
  rw [mem_idle, List.mem_filter]
  constructor
  · rintro ⟨k, hk, hidle, rfl⟩
    exact ⟨mem_queue_of_idle (hs.maintain now) hk hidle, hqueued.holds _ (List.mem_map_of_mem hk)⟩
  · rintro ⟨hid, hhold⟩
    obtain ⟨k, hk, rfl⟩ := List.mem_map.mp (hqueued.tracked id hid hhold)
    exact ⟨k, hk, isEngaged_of_queued hsettled hk hid, rfl⟩

/-! ### The ends of the queue -/

/-- The live notes come in the order of their times. -/
def Rising (s : Stage) : Prop := (s.board.live.toList.map LiveNote.trigger).Pairwise Precedes

theorem Rising.precedes {s : Stage} (h : s.Rising) {i j : Nat} (hij : i < j) {n m : LiveNote}
    (hn : s.board.live[i]? = some n) (hm : s.board.live[j]? = some m) :
    Precedes n.trigger m.trigger := by
  obtain ⟨hi, rfl⟩ := Array.getElem?_eq_some_iff.mp hn
  obtain ⟨hj, rfl⟩ := Array.getElem?_eq_some_iff.mp hm
  rw [Rising, List.pairwise_map] at h
  have hle := List.pairwise_iff_getElem.mp h i j (by simpa using hi) (by simpa using hj) hij
  rwa [Array.getElem_toList, Array.getElem_toList] at hle

theorem Rising.of_frame {s s' : Stage} (h : s.Rising) (hf : Frame s s') : s'.Rising := by
  rw [Rising, map_trigger_of_stamp hf.stamp]
  exact h

/-- Bringing the queue to a time is cut short: as many notes have left the queue as are looked at in
one go, and some are left. -/
def CutShort (s : Stage) (scene : Scene) (now : Float) : Prop :=
  let (judge, _, entered) := s.judge.maintain now scene.notes s.board
  judge.queue ≠ [] ∧ s.judge.queue.length + entered.length = judge.queue.length + maxScan

/-- When the queue has been brought to a time, no queued note is late. -/
theorem not_late_maintain {s : Stage} {scene : Scene} (hs : s.Sound scene.notes)
    (h : s.Queued scene.notes) (hr : s.Rising) {now : Float} (hcut : ¬ s.CutShort scene now) :
    ∀ id ∈ (s.maintain scene now).judge.queue, ∀ n,
      (s.maintain scene now).board.live[id]? = some n →
        ¬ s.judge.windows.exit < now - n.trigger := by
  have hrising := hr.of_frame (frame_maintain hs now)
  have hsorted := (h.maintain hs now).sorted
  unfold CutShort at hcut
  unfold Stage.maintain at hrising hsorted ⊢
  rw [maintain_eq] at hrising hsorted hcut ⊢
  dsimp only at hrising hsorted hcut ⊢
  set entered := openBetween scene.notes s.board.live s.judge.nextLive
    (frontier s.judge.windows.enter now s.board.live s.judge.nextLive)
  set left := expire s.judge.windows now maxScan (s.judge.queue ++ entered) s.judge.worst s.board
    with hleft
  intro id hid n hn hlate
  cases hqueue : left.1 with
  | nil =>
      rw [hqueue] at hid
      cases hid
  | cons first rest =>
      rw [hqueue] at hid hsorted hcut
      rcases expire_front hqueue with hlength | ⟨n₀, hn₀, hearly⟩
      · rw [List.length_append] at hlength
        exact hcut ⟨List.cons_ne_nil _ _, hlength.symm⟩
      · -- The first note is not late, and the others come after it.
        have hfirst : ¬ s.judge.windows.exit < now - n₀.trigger := not_lt_of_le hearly
        rcases List.mem_cons.mp hid with rfl | hid
        · obtain rfl := Option.some.inj (hn.symm.trans hn₀)
          exact hfirst hlate
        · have hprecedes := hrising.precedes ((List.pairwise_cons.mp hsorted).1 id hid) hn₀ hn
          have hnumber : IsNumber n.trigger :=
            ((isNumber_sub_iff _ _).mp ((lt_iff _ _).mp hlate).2.1).2.1
          exact hfirst (lt_sub_of_le (hprecedes hnumber) hlate)

/-- When the queue has been brought to a time, judging has come to all notes that are near. -/
theorem lt_nextLive_maintain {s : Stage} {scene : Scene} (hs : s.Sound scene.notes) (hr : s.Rising)
    {now : Float} {id : Nat} {n : LiveNote} (hn : (s.maintain scene now).board.live[id]? = some n)
    (hnear : n.trigger - now ≤ s.judge.windows.enter) : id < (s.maintain scene now).judge.nextLive := by
  obtain ⟨n', hn', htrigger⟩ := trigger_of_stamp (frame_maintain hs now).stamp hn
  rw [← htrigger] at hnear
  unfold Stage.maintain
  rw [maintain_eq]
  dsimp only
  by_contra hge
  have hle := Nat.le_of_not_lt hge
  -- The first note that is not near does not come after this one.
  obtain ⟨m, hm⟩ : ∃ m, s.board.live[frontier s.judge.windows.enter now s.board.live
      s.judge.nextLive]? = some m :=
    ⟨_, Array.getElem?_eq_getElem (hle.trans_lt (Array.getElem?_eq_some_iff.mp hn').1)⟩
  have hfar := far_frontier hm
  rcases hle.eq_or_lt with heq | hlt
  · rw [heq, hn'] at hm
    obtain rfl := Option.some.inj hm
    exact not_lt_of_le hnear hfar
  · have hnumber : IsNumber n'.trigger :=
      ((isNumber_sub_iff _ _).mp ((le_iff _ _).mp hnear).1).1
    have hprecedes := hr.precedes hlt hm hn' hnumber
    exact not_lt_of_le (sub_le_of_le (not_bot_of_lt_sub hfar) hprecedes hnear) hfar

end Stage

/-! ### Playbacks -/

namespace Playback

/-- The queue of a playback and its holds fit together. -/
def Queued (p : Playback) : Prop := p.stage.Queued p.chart.notes

/-- Stamping more live notes keeps the queue and the holds as they are. -/
theorem Moves.queued {p q : Playback} (hm : p.Moves q) (hs : p.Sound) (h : p.Queued) : q.Queued := by
  obtain ⟨more, -, -, hstage⟩ := hm.exists_more
  have hsame : ∀ id < p.stage.judge.nextLive,
      (p.stage.board.live ++ more)[id]? = p.stage.board.live[id]? := fun id hid => by
    rw [Array.getElem?_append, if_pos (hid.trans_le hs.near)]
  have hisHold : ∀ id < p.stage.judge.nextLive,
      Stage.isHold p.chart.notes (p.stage.board.live ++ more) id =
        Stage.isHold p.chart.notes p.stage.board.live id := fun id hid => by
    rw [Stage.isHold, Stage.isHold, hsame id hid]
  rw [Queued, hstage, hm.chart]
  refine
    { sorted := h.sorted
      waiting := fun id hid => ?_
      tracked := fun id hid hhold => h.tracked id hid (hisHold id (hs.queued id hid) ▸ hhold)
      holds := fun id hid => ?_ }
  · change ((p.stage.board.live ++ more)[id]?).bind LiveNote.result = none
    rw [hsame id (hs.queued id hid)]
    exact h.waiting id hid
  · obtain ⟨k, hk, rfl⟩ := List.mem_map.mp hid
    exact (hisHold _ (hs.admitted_hold hk).1).trans (h.holds _ (List.mem_map_of_mem hk))

theorem queued_ofChart (c : Chart) (settings : Settings) : (ofChart c settings).Queued :=
  ⟨List.Pairwise.nil, fun _ h => (nomatch h), fun _ h => (nomatch h), fun _ h => (nomatch h)⟩

theorem queued_planAhead {p : Playback} (hs : p.Sound) (h : p.Queued) : p.planAhead.Queued :=
  p.moves_planAhead.queued hs h

/-- Every input keeps queue and holds together. -/
theorem queued_feed {p : Playback} (hs : p.Sound) (h : p.Queued) (input : Input) :
    (p.feed input).Queued := by
  cases input with
  | edge e =>
      unfold feed queueEdge
      dsimp only
      split_ifs <;> exact h
  | update dt =>
      have hplanned := sound_planAhead hs
      obtain ⟨hsound, hqueued, -⟩ := Stage.Queued.edges p.planAhead.scene
        p.planAhead.judged hplanned (queued_planAhead hs h)
      have hjudged : p.planAhead.judgeTick.Queued := by
        rw [judgeTick_eq]
        exact hqueued.settleTime hsound p.planAhead.playhead.time
      exact (moves_moveTick _ dt).queued (sound_judgeTick hplanned) hjudged

theorem queued_after (c : Chart) (settings : Settings) (inputs : List Input) :
    (after c settings inputs).Queued :=
  (after_induction (P := fun p => p.Sound ∧ p.Queued)
    ⟨sound_ofChart c settings, queued_ofChart c settings⟩
    (fun _ input h => ⟨sound_feed h.1 input, queued_feed h.1 h.2 input⟩) inputs).2

/-- The next tick of `p` brings queue and holds of the stage `s` to the time `t`: before each press, and
when all edges are handled. -/
inductive Settles (p : Playback) : Stage → Float → Prop where
  | press (s : Stage) (e : Edge) (rest : List Edge) (h : p.Meets s (e :: rest))
      (hpressed : e.pressed = true) : Settles p s e.time
  | tick (s : Stage) (h : p.Meets s []) : Settles p s p.planAhead.playhead.time

/-- No live note is lost and none is queued twice, now and throughout the next tick. -/
structure Complete (p : Playback) : Prop where
  now : p.stage.Complete p.chart.notes
  met : ∀ s rest, p.Meets s rest → s.Complete p.chart.notes
  /-- Once queue and holds are brought to a time, the idle holds are those of the queued notes. -/
  idle : ∀ s t, p.Settles s t → (s.settleTime p.planAhead.scene t).idle.Perm
    ((s.settleTime p.planAhead.scene t).queuedHolds p.chart.notes)
  /-- Once the queue is brought to a time, no queued note is late. -/
  late : ∀ s t, p.Settles s t → ¬ s.CutShort p.planAhead.scene t →
    ∀ id ∈ (s.maintain p.planAhead.scene t).judge.queue, ∀ n,
      (s.maintain p.planAhead.scene t).board.live[id]? = some n →
        ¬ p.judge.windows.exit < t - n.trigger
  /-- Once the queue is brought to a time, judging has come to all notes that are near. -/
  near : ∀ s t, p.Settles s t → ∀ id n,
    (s.maintain p.planAhead.scene t).board.live[id]? = some n →
      n.trigger - t ≤ p.judge.windows.enter → id < (s.maintain p.planAhead.scene t).judge.nextLive

/-- What holds of every stage that the next tick meets. -/
theorem Meets.invariants {p : Playback} (hs : p.Sound) (h : p.Queued) (hr : p.Rises) {s : Stage}
    {rest : List Edge} (hmeets : p.Meets s rest) :
    s.Sound p.chart.notes ∧ s.Queued p.chart.notes ∧ s.Rising ∧ s.judge.windows = p.judge.windows := by
  obtain ⟨before, -, rfl⟩ := hmeets
  obtain ⟨hsound, hqueued, hframe⟩ := Stage.Queued.edges p.planAhead.scene before
    (sound_planAhead hs) (queued_planAhead hs h)
  have hrising : p.planAhead.stage.Rising :=
    ((Playhead.unmarked_rises hr.laid).plan _ _ hr.playhead).sorted
  exact ⟨hsound, hqueued, hrising.of_frame hframe, hframe.windows⟩

/-- After any inputs to the chart of a text, every live note that judging has come to is judged, queued
or held. -/
theorem complete_after (text : String) (settings : Settings) (inputs : List Input) :
    (after (Chart.ofText text) settings inputs).Complete := by
  have hs := sound_after (Chart.ofText text) settings inputs
  have h := queued_after (Chart.ofText text) settings inputs
  have hr := rises_after text settings inputs
  generalize after (Chart.ofText text) settings inputs = p at hs h hr ⊢
  have hsettled : ∀ s t, p.Settles s t → ∃ rest, p.Meets s rest := by
    intro s t ht
    cases ht with
    | press e rest hmeets => exact ⟨_, hmeets⟩
    | tick hmeets => exact ⟨_, hmeets⟩
  refine
    { now := h.complete hs
      met := fun s rest hmeets => ?_
      idle := fun s t ht => ?_
      late := fun s t ht hcut => ?_
      near := fun s t ht id n hn hnear => ?_ }
  · obtain ⟨hsound, hqueued, -, -⟩ := hmeets.invariants hs h hr
    exact hqueued.complete hsound
  · obtain ⟨rest, hmeets⟩ := hsettled s t ht
    obtain ⟨hsound, hqueued, -, -⟩ := hmeets.invariants hs h hr
    exact @Stage.idle_settleTime s p.planAhead.scene hsound hqueued t
  · obtain ⟨rest, hmeets⟩ := hsettled s t ht
    obtain ⟨hsound, hqueued, hrising, hwindows⟩ := hmeets.invariants hs h hr
    rw [← hwindows]
    exact @Stage.not_late_maintain s p.planAhead.scene hsound hqueued hrising t hcut
  · obtain ⟨rest, hmeets⟩ := hsettled s t ht
    obtain ⟨hsound, hqueued, hrising, hwindows⟩ := hmeets.invariants hs h hr
    rw [← hwindows] at hnear
    exact @Stage.lt_nextLive_maintain s p.planAhead.scene hsound hrising t id n hn hnear

/-- While the one hold of a chart is queued, nothing is lost, and the next tick does bring queue and holds
to a time. -/
theorem complete_queuedHold :
    let p := after (Chart.ofText "# Main\n-1:\n2:[8;h]\n") .standard [.update 0.4, .update 0.1]
    p.Complete ∧ p.judge.queue = [0] ∧ p.stage.idle = [0] ∧
      p.Settles p.planAhead.stage p.planAhead.playhead.time ∧
      ¬ p.planAhead.stage.CutShort p.planAhead.scene p.planAhead.playhead.time := by
  refine ⟨complete_after _ .standard [.update 0.4, .update 0.1], by decide +kernel,
    by decide +kernel, .tick _ ⟨[], ?_, rfl⟩, ?_⟩
  · exact List.isEmpty_iff.mp (by decide +kernel)
  · rintro ⟨-, hlength⟩
    revert hlength
    decide +kernel

end Playback

end RhythmChart
