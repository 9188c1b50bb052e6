import RhythmChart.Proofs.Arrival
import RhythmChart.Proofs.Records

/-! # Stages and desks

A stage knows only the live notes that are stamped so far, and looks at its queue and its holds one by
one.  As long as the next live note that it does not know is far, it does what a desk does.

Main statements.

* `Stage.Shows`: what a stage has in common with a desk;
* `Stage.Shows.maintain`, `Stage.Shows.change`, `Stage.Shows.resume` and `Stage.Shows.hit`: the steps of
  judging keep that;
* `Stage.Shows.edge` and `Stage.Shows.settleTime`: so do edges and time. -/

namespace RhythmChart

open Judge Holds

/-- What a desk keeps about a live note. -/
def Desk.record (x : Desk) (id : Nat) : Record :=
  ⟨(x.ended id).map Ending.grade, x.layers id, ((x.ended id).bind Ending.time).toList⟩

/-- What judging looks at, for a sheet and a current visit. -/
def Sheet.scene (S : Sheet) (visit : Option Nat) : Scene := ⟨S.notes, S.speed, visit⟩

/-- The first live note that is not stamped yet is far at the time `now`. -/
def Sheet.Covers (S : Sheet) (live : Array LiveNote) (now : Float) : Prop :=
  ∀ n : LiveNote, S.all[live.size]? = some n → S.windows.enter < n.trigger - now

namespace Stage

/-- A live note that the queue misses when it is brought to the time `now`. -/
def Lapses (s : Stage) (scene : Scene) (now : Float) (id : Nat) : Prop :=
  s.board.result? id = none ∧ ((s.maintain scene now).board.result? id).isSome

/-- The stage is like the desk, and the notes `L` are those that lapsed in the queue. -/
structure Shows (S : Sheet) (L : Nat → Prop) (s : Stage) (x : Desk) : Prop where
  sound : s.Sound S.notes
  steady : x.Steady
  windows : s.judge.windows = S.windows
  stamps : ∀ (id : Nat) (n : LiveNote), s.board.live[id]? = some n → S.all[id]? = some n.stamp
  queue : s.judge.queue = x.queue
  next : s.judge.nextLive = x.next
  worst : ∀ id, s.judge.worst.lookup id = x.worst id
  grade : ∀ id, (s.board.record id).grade = (x.record id).grade
  layers : ∀ id, (s.board.record id).layers = (x.record id).layers
  times : ∀ id, ¬ L id → (s.board.record id).times = (x.record id).times
  lapsed : ∀ id, L id ↔ ∃ g, x.ended id = some ⟨g, none⟩
  waiting : ∀ id ∈ x.queue, x.ended id = none
  nodup : x.queue.Nodup
  holds : ∀ h ∈ s.holds.holds, h = x.hold S h.live
  tracked : ∀ id, (x.phase id).isEngaged = true → id ∈ s.holds.holds.map Hold.live

variable {S : Sheet} {L : Nat → Prop} {s : Stage} {x : Desk}

/-! ### Live notes -/

theorem Shows.trigger (h : s.Shows S L x) {id : Nat} {n : LiveNote}
    (hn : s.board.live[id]? = some n) : S.trigger id = n.trigger :=
  Sheet.trigger_of_stamp (h.stamps id n hn)

theorem Shows.note? (h : s.Shows S L x) {id : Nat} {n : LiveNote}
    (hn : s.board.live[id]? = some n) : S.note? id = S.notes[n.note]? :=
  Sheet.note?_of_stamp (h.stamps id n hn)

theorem Shows.stamps_of_judges (h : s.Shows S L x) {ids : Nat → Prop} {b : Board}
    (hj : Board.Judges ids s.board b) (id : Nat) (n : LiveNote) (hn : b.live[id]? = some n) :
    S.all[id]? = some n.stamp := by
  obtain ⟨m, hm, hstamp⟩ := LiveNote.exists_of_stamps hj.stamp hn
  rw [h.stamps id m hm, hstamp]

theorem Shows.size_le (h : s.Shows S L x) : s.board.live.size ≤ S.all.size := by
  by_contra hlt
  have hn := Array.getElem?_eq_getElem (Nat.lt_of_not_le hlt)
  have := h.stamps _ _ hn
  rw [Array.getElem?_eq_none le_rfl] at this
  cases this

/-- A note that has no ending at the desk is not judged on the stage. -/
theorem Shows.result_eq_none (h : s.Shows S L x) {id : Nat} (hid : x.ended id = none) {n : LiveNote}
    (hn : s.board.live[id]? = some n) : n.result = none := by
  have hgrade := h.grade id
  change s.board.result? id = (x.ended id).map Ending.grade at hgrade
  rw [Board.result?, hn, hid] at hgrade
  exact hgrade

theorem Shows.ended_eq_none (h : s.Shows S L x) {id : Nat} (hid : s.board.result? id = none) :
    x.ended id = none := by
  have hgrade := h.grade id
  change s.board.result? id = (x.ended id).map Ending.grade at hgrade
  rw [hid] at hgrade
  exact Option.map_eq_none_iff.mp hgrade.symm

/-- A note of an engaged hold has no ending yet. -/
theorem Shows.ended_of_engaged (h : s.Shows S L x) {id : Nat}
    (he : (x.phase id).isEngaged = true) : x.ended id = none := by
  obtain ⟨k, hk, rfl⟩ := List.mem_map.mp (h.tracked id he)
  have hphase : k.phase = x.phase k.live := congrArg Hold.phase (h.holds k hk)
  obtain ⟨n, hn, hu⟩ := h.sound.openNotes k hk (hphase ▸ he)
  apply h.ended_eq_none
  rw [Board.result?, hn, Option.bind_some, hu]

/-- A queued note is stamped and not judged. -/
theorem Shows.waits_queue (h : s.Shows S L x) {id : Nat} (hid : id ∈ x.queue) :
    ∃ n, s.board.live[id]? = some n ∧ n.result = none ∧ n.trigger = S.trigger id := by
  have hlt : id < s.board.live.size :=
    (h.sound.queued id (h.queue ▸ hid)).trans_le h.sound.near
  have hn := Array.getElem?_eq_getElem hlt
  exact ⟨_, hn, h.result_eq_none (h.waiting id hid) hn, (h.trigger hn).symm⟩

/-- Stamping more live notes changes nothing that a desk knows. -/
theorem Shows.stamp (h : s.Shows S L x) {more : Array LiveNote}
    (hmore : ∀ n ∈ more, n.stamp = n)
    (hstamps : ∀ (id : Nat) (n : LiveNote), (s.board.live ++ more)[id]? = some n →
      S.all[id]? = some n.stamp) :
    ({ s with board := { s.board with live := s.board.live ++ more } } : Stage).Shows S L x := by
  have hsound := h.sound.stamp fun n hn => (LiveNote.unjudged_of_stamp (hmore n hn)).1
  have hrecord : ∀ id, ({ s.board with live := s.board.live ++ more } : Board).record id =
      s.board.record id := by
    intro id
    by_cases hid : id < s.board.live.size
    · simp [Board.record, Board.result?, Array.getElem?_append, hid]
    · have hold : s.board.live[id]? = none := Array.getElem?_eq_none (Nat.le_of_not_lt hid)
      cases hn : more[id - s.board.live.size]? with
      | none => simp [Board.record, Board.result?, Array.getElem?_append, hid, hn]
      | some n =>
          have hfresh := LiveNote.unjudged_of_stamp (hmore n (Array.mem_of_getElem? hn))
          simp [Board.record, Board.result?, Array.getElem?_append, hid, hn, hfresh]
  exact
    { sound := hsound
      steady := h.steady
      windows := h.windows
      stamps := hstamps
      queue := h.queue
      next := h.next
      worst := h.worst
      grade := fun id => hrecord id ▸ h.grade id
      layers := fun id => hrecord id ▸ h.layers id
      times := fun id hid => hrecord id ▸ h.times id hid
      lapsed := h.lapsed
      waiting := h.waiting
      nodup := h.nodup
      holds := h.holds
      tracked := h.tracked }

/-! ### The queue -/

theorem frontier_eq {enter now : Float} {live all : Array LiveNote} {i : Nat} (hi : i ≤ live.size)
    (hsame : ∀ (id : Nat) (n : LiveNote), live[id]? = some n →
      ∃ m : LiveNote, all[id]? = some m ∧ m.trigger = n.trigger)
    (hfar : ∀ m : LiveNote, all[live.size]? = some m → enter < m.trigger - now) :
    frontier enter now live i = frontier enter now all i := by
  fun_induction frontier enter now live i with
  | case1 i h hstop =>
      obtain ⟨m, hm, htrigger⟩ := hsame i _ (Array.getElem?_eq_getElem h)
      obtain ⟨hlt, rfl⟩ := Array.getElem?_eq_some_iff.mp hm
      rw [Judge.frontier, dif_pos hlt, htrigger, if_pos hstop]
  | case2 i h hnear ih =>
      obtain ⟨m, hm, htrigger⟩ := hsame i _ (Array.getElem?_eq_getElem h)
      obtain ⟨hlt, rfl⟩ := Array.getElem?_eq_some_iff.mp hm
      rw [ih h]
      conv_rhs => unfold Judge.frontier
      rw [dif_pos hlt, htrigger, if_neg hnear]
  | case3 i h =>
      obtain rfl : i = live.size := by omega
      unfold Judge.frontier
      split_ifs with hlt hstop
      · rfl
      · exact absurd (hfar _ (Array.getElem?_eq_getElem hlt)) hstop
      · rfl

theorem Shows.frontier (h : s.Shows S L x) {now : Float} (hcovers : S.Covers s.board.live now) :
    Judge.frontier s.judge.windows.enter now s.board.live s.judge.nextLive = x.frontier S now := by
  rw [Desk.frontier, ← h.windows, ← h.next]
  apply frontier_eq h.sound.near
  · intro id n hn
    exact ⟨n.stamp, h.stamps id n hn, rfl⟩
  · rw [h.windows]
    exact hcovers

theorem Shows.openBetween (h : s.Shows S L x) {j : Nat} (hj : j ≤ s.board.live.size) :
    Judge.openBetween S.notes s.board.live s.judge.nextLive j =
      Judge.openBetween S.notes S.all x.next j := by
  rw [← h.next]
  apply List.filter_congr
  intro id hid
  obtain ⟨hle, hlt⟩ := List.mem_range'_1.mp hid
  have hn := Array.getElem?_eq_getElem (show id < s.board.live.size by omega)
  have hlive : id < s.board.live.size := by omega
  have hopen : s.board.live[id].result = none := by
    by_contra hsome
    -- Only notes that were considered have a grade.
    have := (h.sound.admitted id (.inl (by
      rw [Board.result?, hn, Option.bind_some]
      exact Option.isSome_iff_ne_none.mpr hsome))).1
    omega
  rw [isOpen, isOpen, hn, h.stamps id _ hn, Option.any_some, Option.any_some, LiveNote.isJudged,
    hopen]
  rfl

theorem Shows.lined (h : s.Shows S L x) {now : Float} (hcovers : S.Covers s.board.live now) :
    s.judge.queue ++ Judge.openBetween S.notes s.board.live s.judge.nextLive
      (Judge.frontier s.judge.windows.enter now s.board.live s.judge.nextLive) = x.lined S now := by
  rw [h.openBetween (frontier_le_size _ _ h.sound.near), h.frontier hcovers, h.queue]
  rfl

/-- What stands in line is stamped and not judged. -/
theorem Shows.waits (h : s.Shows S L x) {now : Float} (hcovers : S.Covers s.board.live now) {id : Nat}
    (hid : id ∈ x.lined S now) : S.Waits s.board id := by
  rcases List.mem_append.mp hid with hid | hid
  · exact ⟨h.waits_queue hid⟩
  · have hfrontier := frontier_le_size s.judge.windows.enter now h.sound.near
    rw [← h.frontier hcovers, ← h.openBetween hfrontier] at hid
    obtain ⟨n, hn, hopen⟩ := (Option.any_eq_true _ _).mp (mem_openBetween.mp hid).2.2
    rw [Bool.and_eq_true, Bool.not_eq_true'] at hopen
    exact ⟨n, hn, by simpa [LiveNote.isJudged] using hopen.2, (h.trigger hn).symm⟩

theorem nodup_openBetween (notes : Array Note) (live : Array LiveNote) (i j : Nat) :
    (Judge.openBetween notes live i j).Nodup := List.Nodup.filter _ List.nodup_range'

theorem Shows.nodup_lined (h : s.Shows S L x) (now : Float) : (x.lined S now).Nodup := by
  refine List.nodup_append.mpr ⟨h.nodup, nodup_openBetween _ _ _ _, ?_⟩
  rintro id hq _ ho rfl
  have hlt := (h.steady.queued id hq).1
  have hle := (mem_openBetween.mp ho).1
  omega

theorem length_le_of_nodup {l : List Nat} {n : Nat} (h : l.Nodup) (hl : ∀ i ∈ l, i < n) :
    l.length ≤ n := by
  have hsub : l ⊆ List.range n := fun i hi => List.mem_range.mpr (hl i hi)
  simpa using (h.subperm hsub).length_le

theorem Shows.length_lined (h : s.Shows S L x) {now : Float}
    (hcovers : S.Covers s.board.live now) : (x.lined S now).length ≤ S.all.size := by
  refine length_le_of_nodup (h.nodup_lined now) fun id hid => ?_
  obtain ⟨n, hn, -, -⟩ := (h.waits hcovers hid).unjudged
  exact (Array.getElem?_eq_some_iff.mp hn).1.trans_le h.size_le

/-- A hold that was registered with the others. -/
theorem mem_foldl_track {ids : List Nat} {t : Holds} {live : Array LiveNote} {notes : Array Note}
    {speed : Float} {k : Hold}
    (hk : k ∈ (ids.foldl (fun (t : Holds) id => t.track id live notes speed) t).holds) :
    k ∈ t.holds ∨ ∃ id n, id ∈ ids ∧ live[id]? = some n ∧ k = ⟨id, .idle, n.trigger,
      n.trigger + ((notes[n.note]?).map Note.length).getD 0.0 / speed⟩ := by
  induction ids generalizing t with
  | nil => exact .inl hk
  | cons id ids ih =>
      rcases ih hk with hk | ⟨i, n, hi, hn, heq⟩
      · change k ∈ (t.track id live notes speed).holds at hk
        unfold track at hk
        split at hk
        next n _ hn =>
          rcases List.mem_append.mp hk with hk | hk
          · exact .inl hk
          · exact .inr ⟨id, n, List.mem_cons_self, hn, List.mem_singleton.mp hk⟩
        · exact .inl hk
      · exact .inr ⟨i, n, List.mem_cons_of_mem _ hi, hn, heq⟩

theorem not_mem_takeWhile {α : Type} {p : α → Bool} {l : List α} (h : l.Nodup) {a : α}
    (ha : a ∈ l.dropWhile p) : a ∉ l.takeWhile p := by
  intro hmem
  rw [← List.takeWhile_append_dropWhile (p := p) (l := l)] at h
  exact (List.nodup_append.mp h).2.2 a hmem a ha rfl

/-- What the queue of a stage leaves of the line at a desk, with the worst layers and the board after
that. -/
def left (S : Sheet) (s : Stage) (x : Desk) (now : Float) :
    List Nat × List (Nat × Float × Grade) × Board :=
  expire S.windows now maxScan (x.lined S now) s.judge.worst s.board

theorem Shows.judges_left (h : s.Shows S L x) (now : Float) :
    Board.Judges (· ∈ x.lined S now) s.board (s.left S x now).2.2 :=
  judges_expire (h.windows ▸ h.sound.ordered) _ _ _ _ _

theorem Shows.left_spec (h : s.Shows S L x) (hfew : S.all.size ≤ maxScan) {now : Float}
    (hcovers : S.Covers s.board.live now) :
    (s.left S x now).1 = (x.lined S now).dropWhile (S.isGone now) ∧
      Expired (x.lapsed S now) s.judge.worst s.board (s.left S x now).2.1 (s.left S x now).2.2 :=
  expired (h.windows ▸ h.sound.ordered) ((h.length_lined hcovers).trans hfew) (h.nodup_lined now)
    fun _ hid => h.waits hcovers hid

/-- The stage whose queue is brought to a time, by way of the line at the desk. -/
theorem Shows.maintain_eq (h : s.Shows S L x) {now : Float} (hcovers : S.Covers s.board.live now)
    (visit : Option Nat) :
    s.maintain (S.scene visit) now =
      ⟨{ s.judge with
          queue := (s.left S x now).1
          worst := (s.left S x now).2.1
          nextLive := x.frontier S now },
        ((Judge.openBetween S.notes s.board.live s.judge.nextLive (x.frontier S now)).filter
          (isHold S.notes (s.left S x now).2.2.live)).foldl
            (fun (t : Holds) id => t.track id (s.left S x now).2.2.live S.notes S.speed) s.holds,
        (s.left S x now).2.2⟩ := by
  unfold Stage.maintain
  rw [Stage.maintain_eq]
  dsimp only [Sheet.scene]
  rw [h.lined hcovers, h.frontier hcovers, h.windows]
  rfl

/-- The notes that lapse on the stage are those that lapse at the desk. -/
theorem Shows.lapses_iff (h : s.Shows S L x) (hfew : S.all.size ≤ maxScan) {now : Float}
    (hcovers : S.Covers s.board.live now) (visit : Option Nat) (id : Nat) :
    s.Lapses (S.scene visit) now id ↔ id ∈ x.lapsed S now := by
  have hgrade : (s.left S x now).2.2.result? id =
      if id ∈ x.lapsed S now then some .tooLate else s.board.result? id :=
    (h.left_spec hfew hcovers).2.grade id
  rw [Lapses, h.maintain_eq hcovers, hgrade]
  split_ifs with hid
  · obtain ⟨n, hn, hu, -⟩ := (h.waits hcovers ((List.takeWhile_sublist _).subset hid)).unjudged
    simp [hid, Board.result?, hn, hu]
  · simp only [hid, iff_false, not_and]
    intro hnone
    simp [hnone]

/-- A hold that is registered when its note comes near is as at the desk. -/
theorem Shows.hold_of_near (h : s.Shows S L x) {now : Float} {id : Nat}
    (hid : id ∈ x.lined S now) {n : LiveNote} (hn : (s.left S x now).2.2.live[id]? = some n) :
    (⟨id, .idle, n.trigger, n.trigger + ((S.notes[n.note]?).map Note.length).getD 0.0 / S.speed⟩ :
      Hold) = x.hold S id := by
  have hidle : x.phase id = .idle := eq_idle (h.steady.lined hid).2
  have hall := h.stamps_of_judges (h.judges_left now) id n hn
  rw [Desk.hold, hidle, Sheet.finish_of_stamp hall, Sheet.trigger_of_stamp hall]

/-- The queue lets notes in and misses those that are too late, like that of the desk. -/
theorem Shows.maintain (h : s.Shows S L x) (hfew : S.all.size ≤ maxScan) {now : Float}
    (hcovers : S.Covers s.board.live now) (visit : Option Nat) :
    (s.maintain (S.scene visit) now).Shows S
      (fun id => L id ∨ s.Lapses (S.scene visit) now id) (x.maintain S now) := by
  obtain ⟨hqueue, e⟩ := h.left_spec hfew hcovers
  have hjudges := h.judges_left now
  have hlapses := h.lapses_iff hfew hcovers visit
  have hsound := @Sound.maintain s (S.scene visit) h.sound now
  rw [h.maintain_eq hcovers] at hsound ⊢
  refine
    { sound := hsound
      steady := h.steady.maintain now
      windows := h.windows
      stamps := h.stamps_of_judges hjudges
      queue := hqueue
      next := rfl
      worst := fun id => ?_
      grade := fun id => ?_
      layers := fun id => (e.layers id).trans (h.layers id)
      times := fun id hid => ?_
      lapsed := fun id => ?_
      waiting := fun id hid => ?_
      nodup := (h.nodup_lined now).sublist (List.dropWhile_sublist _)
      holds := fun k hk => ?_
      tracked := fun id he => ?_ }
  · refine (e.worst id).trans ?_
    rw [h.worst]
    rfl
  · refine (e.grade id).trans ?_
    change _ = (if id ∈ x.lapsed S now then some ⟨.tooLate, none⟩ else x.ended id).map Ending.grade
    split_ifs
    · rfl
    · exact h.grade id
  · rw [not_or, hlapses] at hid
    refine (e.times id hid.2).trans ((h.times id hid.1).trans ?_)
    change _ = ((if id ∈ x.lapsed S now then some ⟨.tooLate, none⟩ else x.ended id).bind
      Ending.time).toList
    rw [if_neg hid.2]
    rfl
  · rw [hlapses, h.lapsed]
    change _ ↔ ∃ g, (if id ∈ x.lapsed S now then some ⟨.tooLate, none⟩ else x.ended id) =
      some ⟨g, none⟩
    split_ifs with hid
    · exact ⟨fun _ => ⟨_, rfl⟩, fun _ => .inr hid⟩
    · simp [hid]
  · change (if id ∈ x.lapsed S now then some ⟨.tooLate, none⟩ else x.ended id) = none
    have hstays : id ∉ x.lapsed S now := not_mem_takeWhile (h.nodup_lined now) hid
    rw [if_neg hstays]
    obtain ⟨n, hn, hu, -⟩ := (h.waits hcovers ((List.dropWhile_sublist _).subset hid)).unjudged
    apply h.ended_eq_none
    rw [Board.result?, hn, Option.bind_some, hu]
  · rcases mem_foldl_track hk with hk | ⟨id, n, hid, hn, rfl⟩
    · exact h.holds k hk
    · have hin : id ∈ x.lined S now := by
        rw [← h.lined hcovers, h.frontier hcovers]
        exact List.mem_append_right _ (List.mem_filter.mp hid).1
      exact h.hold_of_near hin hn
  · obtain ⟨more, hmore, -⟩ := (grows_foldl_track _ s.holds _ S.notes S.speed
      (registered_of_judges h.sound.registered hjudges)).1.holds
    rw [hmore, List.map_append]
    exact List.mem_append_left _ (h.tracked id he)

/-! ### The holds -/

/-- An ending that a change gives has a time. -/
theorem time_of_ending? {f : HoldFate} {e : Ending} (h : f.ending? = some e) :
    ∃ time, e.time = some time := by
  cases f with
  | goOn k => cases h
  | grade g time => exact ⟨time, by rw [← Option.some.inj h]⟩
  | drop => cases h

section Change

variable {fate : Board → Hold → HoldFate}

/-- Only a driven hold gets an ending, and its note has none yet. -/
theorem Shows.ended_of_ending? (h : s.Shows S L x) (hf : Lawful fate) {id : Nat} {e : Ending}
    (he : (fate .blank (x.hold S id)).ending? = some e) : x.ended id = none := by
  by_cases hengaged : (x.phase id).isEngaged = true
  · exact h.ended_of_engaged hengaged
  · rw [(Desk.isEngaged_phase hf .blank (x.hold S id) (Bool.eq_false_iff.mpr hengaged)).2] at he
    cases he

/-- A change closes the record of each note as it ends the note at the desk. -/
theorem Shows.record_change (h : s.Shows S L x) (hf : Lawful fate) (hblind : Blind fate) (id : Nat) :
    (s.change fate).board.record id =
      (s.board.record id).close (fate .blank (x.hold S id)).ending? := by
  have r := swept_record hf hblind h.sound.registered.once h.sound.openNotes
  by_cases hid : id ∈ s.holds.holds.map Hold.live
  · obtain ⟨k, hk, rfl⟩ := List.mem_map.mp hid
    have hrecord := r.record k hk
    rw [h.holds k hk] at hrecord
    exact hrecord
  · have hidle : (x.phase id).isEngaged = false :=
      Bool.eq_false_iff.mpr fun he => hid (h.tracked id he)
    rw [(Desk.isEngaged_phase hf .blank (x.hold S id) hidle).2]
    exact r.frame id hid

/-- The holds that a change leaves on the stage are as it leaves them at the desk. -/
theorem Shows.holds_change (h : s.Shows S L x) (hf : Lawful fate) (hblind : Blind fate) :
    ∀ k ∈ (s.change fate).holds.holds, k = (x.change S fate).hold S k.live := by
  have r := swept_record hf hblind h.sound.registered.once h.sound.openNotes
  intro k hk
  obtain ⟨k', hk', rfl⟩ := r.origin k hk
  rw [h.holds k' hk']
  rfl

/-- A hold that is still driven after a change stays on the stage. -/
theorem Shows.tracked_change (h : s.Shows S L x) (hf : Lawful fate) (hblind : Blind fate) {id : Nat}
    (he : ((x.change S fate).phase id).isEngaged = true) :
    id ∈ (s.change fate).holds.holds.map Hold.live := by
  have r := swept_record hf hblind h.sound.registered.once h.sound.openNotes
  obtain ⟨k, hk, rfl⟩ := List.mem_map.mp (h.tracked id (Desk.isEngaged_of_change hf he).1)
  rcases r.kept k hk with hmem | hidle
  · exact hmem
  · rw [h.holds k hk] at hidle
    exact absurd he (Bool.eq_false_iff.mp hidle)

/-- A change does to the holds what it does at the desk. -/
theorem Shows.change (h : s.Shows S L x) (hf : Lawful fate) (hblind : Blind fate) :
    (s.change fate).Shows S L (x.change S fate) := by
  have hswept := swept hf h.sound.registered.once h.sound.openNotes
  have hrecord := h.record_change hf hblind
  refine
    { sound := h.sound.change hf
      steady := h.steady.change hf
      windows := h.windows
      stamps := h.stamps_of_judges hswept.judges
      queue := h.queue
      next := h.next
      worst := h.worst
      grade := fun id => ?_
      layers := fun id => ?_
      times := fun id hid => ?_
      lapsed := fun id => ?_
      waiting := fun id hid =>
        (Desk.ended_change_of_idle hf (h.steady.queued id hid).2).trans (h.waiting id hid)
      nodup := h.nodup
      holds := h.holds_change hf hblind
      tracked := fun _ he => h.tracked_change hf hblind he }
  · rw [hrecord, Desk.record, Desk.ended_change]
    cases (fate .blank (x.hold S id)).ending? with
    | none => exact h.grade id
    | some e => rfl
  · rw [hrecord]
    cases (fate .blank (x.hold S id)).ending? with
    | none => exact h.layers id
    | some e => exact h.layers id
  · rw [hrecord, Desk.record, Desk.ended_change]
    cases he : (fate .blank (x.hold S id)).ending? with
    | none => exact h.times id hid
    | some e =>
        have htimes := h.times id hid
        rw [Desk.record, h.ended_of_ending? hf he] at htimes
        change (s.board.record id).times ++ e.time.toList = e.time.toList
        rw [htimes]
        rfl
  · rw [h.lapsed, Desk.ended_change]
    cases he : (fate .blank (x.hold S id)).ending? with
    | none => rfl
    | some e =>
        obtain ⟨time, htime⟩ := time_of_ending? he
        rw [h.ended_of_ending? hf he]
        refine ⟨fun ⟨g, hg⟩ => (nomatch hg), fun ⟨g, hg⟩ => ?_⟩
        rw [Option.some_or, Option.some.injEq] at hg
        rw [hg] at htime
        cases htime

end Change

/-! ### Keys -/

theorem modifyFirst_eq_map {test : Hold → Bool} {f : Hold → Hold} {hs : List Hold}
    (hnodup : (hs.map Hold.live).Nodup)
    (hone : ∀ h ∈ hs, ∀ k ∈ hs, test h = true → test k = true → h.live = k.live) :
    modifyFirst test f hs = hs.map fun h => if test h then f h else h := by
  induction hs with
  | nil => rfl
  | cons h rest ih =>
      obtain ⟨hnot, hrest⟩ := List.nodup_cons.mp hnodup
      unfold modifyFirst
      rw [List.map_cons]
      split_ifs with htest
      · congr 1
        -- The first hold that passes the test is the only one.
        have hsame : ∀ k ∈ rest, (if test k = true then f k else k) = k := by
          intro k hk
          refine if_neg fun hkt => hnot ?_
          have := hone h List.mem_cons_self k (List.mem_cons_of_mem _ hk) htest hkt
          exact this ▸ List.mem_map_of_mem hk
        exact ((List.map_congr_left hsame).trans (List.map_id' rest)).symm
      · congr 1
        exact ih hrest fun k hk k' hk' =>
          hone k (List.mem_cons_of_mem _ hk) k' (List.mem_cons_of_mem _ hk')

theorem key_of_canResume {w : Windows} {key : Key} {time : Float} {h : Hold}
    (hr : canResume w key time h = true) : h.phase.key? = some key := by
  unfold canResume at hr
  split at hr
  next k g released hp =>
    rw [Bool.and_eq_true, beq_iff_eq] at hr
    rw [hp, ← hr.1]
    rfl
  · cases hr

theorem hold_resume (x : Desk) (key : Key) (time : Float) (id : Nat) :
    (x.resume S key time).hold S id =
      if canResume S.windows key time (x.hold S id) then resumed (x.hold S id)
      else x.hold S id := by
  have hresumed : ∀ k : Hold, { k with phase := (resumed k).phase } = resumed k := by
    intro k
    unfold resumed
    cases k.phase <;> rfl
  have hphase : (x.resume S key time).hold S id = { x.hold S id with
      phase := if canResume S.windows key time (x.hold S id) then (resumed (x.hold S id)).phase
        else x.phase id } := rfl
  rw [hphase]
  split_ifs
  · exact hresumed (x.hold S id)
  · rfl

/-- A stage and a desk where the holds alone have changed. -/
theorem Shows.of_holds (h : s.Shows S L x) {t : Holds} {phase : Nat → HoldPhase}
    (hsound : ({ s with holds := t } : Stage).Sound S.notes)
    (hsteady : ({ x with phase } : Desk).Steady)
    (hholds : ∀ k ∈ t.holds, k = ({ x with phase } : Desk).hold S k.live)
    (htracked : ∀ id, (phase id).isEngaged = true → id ∈ t.holds.map Hold.live) :
    ({ s with holds := t } : Stage).Shows S L { x with phase } :=
  { sound := hsound
    steady := hsteady
    windows := h.windows
    stamps := h.stamps
    queue := h.queue
    next := h.next
    worst := h.worst
    grade := h.grade
    layers := h.layers
    times := h.times
    lapsed := h.lapsed
    waiting := h.waiting
    nodup := h.nodup
    holds := hholds
    tracked := htracked }

/-- A hold that can be resumed by a key is driven by it. -/
theorem Shows.key_of_canResume (h : s.Shows S L x) {w : Windows} {key : Key} {time : Float} {k : Hold}
    (hk : k ∈ s.holds.holds) (hr : canResume w key time k = true) : (x.phase k.live).key? = some key := by
  have hphase : k.phase = x.phase k.live := congrArg Hold.phase (h.holds k hk)
  exact hphase ▸ Stage.key_of_canResume hr

/-- A key that comes back finds a hold when it does at the desk. -/
theorem Shows.isAwaited (h : s.Shows S L x) (key : Key) (time : Float) :
    (s.holds.resume key time).1 = x.isAwaited S key time := by
  have hagree : s.holds.windows = S.windows := h.sound.agree.trans h.windows
  unfold Holds.resume Desk.isAwaited
  dsimp only
  rw [hagree, Bool.eq_iff_iff, List.any_eq_true, List.any_eq_true]
  constructor
  · rintro ⟨k, hk, hr⟩
    have hlt := h.steady.known k.live (Desk.isEngaged_of_key (h.key_of_canResume hk hr))
    exact ⟨k.live, List.mem_range.mpr hlt, h.holds k hk ▸ hr⟩
  · rintro ⟨id, -, hr⟩
    have he : (x.phase id).isEngaged = true :=
      Desk.isEngaged_of_key (Stage.key_of_canResume (h := x.hold S id) hr)
    obtain ⟨k, hk, rfl⟩ := List.mem_map.mp (h.tracked id he)
    exact ⟨k, hk, (h.holds k hk).symm ▸ hr⟩

/-- A key that comes back resumes the same hold as at the desk. -/
theorem Shows.resume (h : s.Shows S L x) (key : Key) (time : Float) :
    ({ s with holds := (s.holds.resume key time).2 } : Stage).Shows S L (x.resume S key time) := by
  have hagree : s.holds.windows = S.windows := h.sound.agree.trans h.windows
  have hmap : (s.holds.resume key time).2.holds = s.holds.holds.map fun k =>
      if canResume S.windows key time k then resumed k else k := by
    unfold Holds.resume
    dsimp only
    rw [hagree]
    refine modifyFirst_eq_map h.sound.registered.once fun k hk k' hk' hr hr' => ?_
    exact h.steady.alone k.live k'.live key (h.key_of_canResume hk hr) (h.key_of_canResume hk' hr')
  have hlives : ((s.holds.resume key time).2.holds).map Hold.live = s.holds.holds.map Hold.live :=
    map_live_modifyFirst (fun k => (continues_resumed k).live) _
  refine h.of_holds (h.sound.resume key time) (h.steady.resume key time) (fun k hk => ?_) fun id he => ?_
  · rw [hmap] at hk
    obtain ⟨k', hk', rfl⟩ := List.mem_map.mp hk
    obtain ⟨id, rfl⟩ : ∃ id, k' = x.hold S id := ⟨_, h.holds k' hk'⟩
    have hlive : (if canResume S.windows key time (x.hold S id) then resumed (x.hold S id)
        else x.hold S id).live = id := by
      split_ifs
      · exact (continues_resumed _).live
      · rfl
    rw [hlive]
    exact (hold_resume x key time id).symm
  · rw [hlives]
    apply h.tracked id
    exact (congrArg Option.isSome (Desk.key_resume (S := S) x key time id)).symm.trans he

end Stage

end RhythmChart
