import RhythmChart.Proofs.Refinement
import RhythmChart.Proofs.Settling

/-! # Presses on stages and desks

Main statements.

* `Stage.Shows.target`: a press finds the same note on a stage as at the desk;
* `Stage.Shows.hit`: and does the same to it;
* `Stage.Shows.settleTime`, `Stage.Shows.press` and `Stage.Shows.release`: time and keys keep stage and
  desk alike. -/

namespace RhythmChart

open Judge Holds

/-- What a layer does at a desk, by the worst layer of the note. -/
theorem Desk.hitLayer_eq (S : Sheet) (x : Desk) (time : Float) (layers id : Nat) :
    let worst := worstLayer (x.worst id)
      ((S.trigger id - time).abs, S.windows.grade (S.trigger id - time))
    x.hitLayer S time layers id =
      if layers ≤ x.layers id + 1 then
        { x with
          layers := Function.update x.layers id (x.layers id + 1)
          queue := x.queue.erase id
          worst := Function.update x.worst id none
          ended := Function.update x.ended id (some ⟨worst.2, some time⟩) }
      else
        { x with
          layers := Function.update x.layers id (x.layers id + 1)
          worst := Function.update x.worst id (some worst) } := by
  unfold Desk.hitLayer
  exact if_congr (iff_of_eq (congrArg (layers ≤ ·) (Function.update_self _ _ _))) rfl rfl

namespace Stage

variable {S : Sheet} {L : Nat → Prop} {s : Stage} {x : Desk}

/-! ### The target of a press -/

theorem Shows.length_queue (h : s.Shows S L x) : x.queue.length ≤ S.all.size := by
  refine length_le_of_nodup h.nodup fun id hid => ?_
  obtain ⟨n, hn, -, -⟩ := h.waits_queue hid
  exact (Array.getElem?_eq_some_iff.mp hn).1.trans_le h.size_le

/-- A press finds the same note as at the desk. -/
theorem Shows.target (h : s.Shows S L x) (hfew : S.all.size ≤ maxScan) (time : Float) :
    s.judge.target? time s.board = x.target? S time := by
  unfold Judge.target? Desk.target?
  rw [h.queue, List.take_of_length_le (h.length_queue.trans hfew)]
  apply List.find?_congr
  intro id hid
  obtain ⟨n, hn, hu, htrigger⟩ := h.waits_queue hid
  rw [hn, Option.any_some, reaches, LiveNote.isJudged, hu, htrigger, h.windows]
  rfl

/-- The note that a press finds at the desk waits within reach. -/
theorem Shows.reached (h : s.Shows S L x) {time : Float} {id : Nat} (hfind : x.target? S time = some id) :
    id ∈ x.queue ∧ ∃ n, s.board.live[id]? = some n ∧ n.result = none ∧ n.trigger = S.trigger id ∧
      (n.trigger - time).abs ≤ s.judge.windows.exit := by
  have hid : id ∈ x.queue := List.mem_of_find?_eq_some hfind
  obtain ⟨n, hn, hu, htrigger⟩ := h.waits_queue hid
  refine ⟨hid, n, hn, hu, htrigger, ?_⟩
  rw [htrigger, h.windows]
  simpa using List.find?_some hfind

/-- The record of a note that waits in the queue. -/
theorem Shows.record_waiting (h : s.Shows S L x) {id : Nat} (hid : x.ended id = none) :
    s.board.record id = ⟨none, x.layers id, []⟩ := by
  have hnot : ¬ L id := by
    rw [h.lapsed, hid]
    rintro ⟨g, hg⟩
    cases hg
  refine Record.ext ((h.grade id).trans ?_) (h.layers id) ((h.times id hnot).trans ?_)
  · rw [Desk.record, hid]
    rfl
  · rw [Desk.record, hid]
    rfl

theorem Shows.layersDone (h : s.Shows S L x) {id : Nat} {n : LiveNote}
    (hn : s.board.live[id]? = some n) : n.layersDone = x.layers id := by
  have := h.layers id
  simpa [Board.record, Desk.record, hn] using this

/-- A stage and a desk where a waiting note has got the same ending. -/
theorem Shows.finish (h : s.Shows S L x) {id : Nat} (hid : id ∈ x.queue) {j : Judge} {b : Board}
    {y : Desk} {g : Grade} {time : Float} {layers : Nat}
    (hsound : ({ s with judge := j, board := b } : Stage).Sound S.notes)
    (hstamp : b.live.map LiveNote.stamp = s.board.live.map LiveNote.stamp)
    (hrecord : ∀ i, b.record i = if i = id then ⟨some g, layers, [time]⟩ else s.board.record i)
    (hwindows : j.windows = s.judge.windows) (hnext : j.nextLive = s.judge.nextLive)
    (hqueue : j.queue = s.judge.queue.erase id) (hworst : ∀ i, j.worst.lookup i = y.worst i)
    (hy : y.queue = x.queue.erase id ∧ y.next = x.next ∧ y.phase = x.phase ∧
      y.layers = Function.update x.layers id layers ∧
      y.ended = Function.update x.ended id (some ⟨g, some time⟩)) :
    ({ s with judge := j, board := b } : Stage).Shows S L y := by
  obtain ⟨hyqueue, hynext, hyphase, hylayers, hyended⟩ := hy
  have hsub : ∀ i ∈ y.queue, i ∈ x.queue ∧ i ≠ id := by
    intro i hi
    rw [hyqueue] at hi
    exact ⟨List.mem_of_mem_erase hi, fun heq => h.nodup.not_mem_erase (heq ▸ hi)⟩
  have hwaiting := h.waiting id hid
  refine
    { sound := hsound
      steady := h.steady.of_subset (fun i hi => (hsub i hi).1) hynext hyphase
      windows := hwindows.trans h.windows
      stamps := fun i n hn => ?_
      queue := by
        rw [hyqueue, ← h.queue]
        exact hqueue
      next := hnext.trans (h.next.trans hynext.symm)
      worst := hworst
      grade := fun i => ?_
      layers := fun i => ?_
      times := fun i hi => ?_
      lapsed := fun i => ?_
      waiting := fun i hi => ?_
      nodup := hyqueue ▸ h.nodup.erase id
      holds := fun k hk => ?_
      tracked := fun i he => h.tracked i (hyphase ▸ he) }
  · obtain ⟨m, hm, heq⟩ := LiveNote.exists_of_stamps hstamp hn
    exact heq ▸ h.stamps i m hm
  · change (b.record i).grade = (y.ended i).map Ending.grade
    rw [hrecord, hyended, Function.update_apply]
    split_ifs
    · rfl
    · exact h.grade i
  · change (b.record i).layers = y.layers i
    rw [hrecord, hylayers, Function.update_apply]
    split_ifs
    · rfl
    · exact h.layers i
  · change (b.record i).times = ((y.ended i).bind Ending.time).toList
    rw [hrecord, hyended, Function.update_apply]
    split_ifs
    · rfl
    · exact h.times i hi
  · rw [h.lapsed, hyended, Function.update_apply]
    split_ifs with heq
    · subst heq
      rw [hwaiting]
      simp
    · rfl
  · rw [hyended, Function.update_of_ne (hsub i hi).2]
    exact h.waiting i (hsub i hi).1
  · rw [Desk.hold, hyphase]
    exact h.holds k hk

theorem Shows.single (h : s.Shows S L x) {id : Nat} (hid : id ∈ x.queue) {n : LiveNote}
    (hn : s.board.live[id]? = some n) (hu : n.result = none) (time : Float)
    (hclose : (n.trigger - time).abs ≤ s.judge.windows.exit)
    (hsound : ({ s with
      judge := (s.judge.pressSingle time id n s.board).1
      board := (s.judge.pressSingle time id n s.board).2 } : Stage).Sound S.notes) :
    ({ s with
      judge := (s.judge.pressSingle time id n s.board).1
      board := (s.judge.pressSingle time id n s.board).2 } : Stage).Shows S L
        (x.hitSingle S time id) := by
  have hreached : Reached s.judge time s.board id n := ⟨h.queue ▸ hid, hn, hu, hclose⟩
  have hits := hits_pressSingle hreached h.sound.worst
  refine @Shows.finish S L s x h id hid _ _ _ _ _ (x.layers id) hsound hits.judges.stamp (fun i => ?_)
    rfl rfl rfl
    h.worst ⟨rfl, rfl, rfl, (Function.update_eq_self id x.layers).symm, rfl⟩
  have hrecord := Board.record_settle (b := s.board.mapScore fun score =>
    score.record (s.judge.windows.grade (n.trigger - time))) hn n
      (s.judge.windows.grade (n.trigger - time)) time i
  refine hrecord.trans ?_
  rw [Board.record_mapScore, Board.record_mapScore, h.record_waiting (h.waiting id hid), h.windows,
    h.trigger hn]
  rfl

/-- The board after a layer of a waiting note: it has one more layer, and no grade yet. -/
theorem Shows.record_layered (h : s.Shows S L x) {id : Nat} (hid : id ∈ x.queue) {n : LiveNote}
    (hn : s.board.live[id]? = some n) (time : Float) (i : Nat) :
    (s.judge.layered time id n s.board).record i =
      if i = id then ⟨none, x.layers id + 1, []⟩ else s.board.record i := by
  refine (Board.record_layer s.board hn n _ time n.layersDone i).trans ?_
  rw [h.record_waiting (h.waiting id hid), h.layersDone hn]

/-- A stage and a desk where a waiting note has got one layer more, but not its last. -/
theorem Shows.layered (h : s.Shows S L x) {id : Nat} (hid : id ∈ x.queue) {n : LiveNote}
    (hn : s.board.live[id]? = some n) (time : Float) (worst : Float × Grade)
    (hstamp : (s.judge.layered time id n s.board).live.map LiveNote.stamp =
      s.board.live.map LiveNote.stamp)
    (hsound : ({ s with
      judge := { s.judge with worst := Assoc.put id worst s.judge.worst }
      board := s.judge.layered time id n s.board } : Stage).Sound S.notes) :
    ({ s with
      judge := { s.judge with worst := Assoc.put id worst s.judge.worst }
      board := s.judge.layered time id n s.board } : Stage).Shows S L
        { x with
          layers := Function.update x.layers id (x.layers id + 1)
          worst := Function.update x.worst id (some worst) } := by
  have hrecord := h.record_layered hid hn time
  have hwaiting := h.waiting id hid
  refine
    { sound := hsound
      steady := h.steady.of_subset (fun _ hi => hi) rfl rfl
      windows := h.windows
      stamps := fun i m hm => ?_
      queue := h.queue
      next := h.next
      worst := fun i => ?_
      grade := fun i => ?_
      layers := fun i => ?_
      times := fun i hi => ?_
      lapsed := h.lapsed
      waiting := h.waiting
      nodup := h.nodup
      holds := h.holds
      tracked := h.tracked }
  · obtain ⟨m', hm', heq⟩ := LiveNote.exists_of_stamps hstamp hm
    exact heq ▸ h.stamps i m' hm'
  · change (Assoc.put id worst s.judge.worst).lookup i = Function.update x.worst id _ i
    rw [Function.update_apply]
    split_ifs with heq
    · rw [heq, Assoc.lookup_put_self]
    · rw [Assoc.lookup_put_of_ne heq, h.worst]
  · rw [hrecord]
    split_ifs with heq
    · change none = (x.ended i).map Ending.grade
      rw [heq, hwaiting]
      rfl
    · exact h.grade i
  · change ((s.judge.layered time id n s.board).record i).layers = Function.update x.layers id _ i
    rw [hrecord, Function.update_apply]
    split_ifs
    · rfl
    · exact h.layers i
  · rw [hrecord]
    split_ifs with heq
    · change [] = ((x.ended i).bind Ending.time).toList
      rw [heq, hwaiting]
      rfl
    · exact h.times i hi

theorem Shows.layer (h : s.Shows S L x) {id : Nat} (hid : id ∈ x.queue) {n : LiveNote}
    (hn : s.board.live[id]? = some n) (hu : n.result = none) (time : Float)
    (hclose : (n.trigger - time).abs ≤ s.judge.windows.exit) (layers : Nat)
    (hsound : ({ s with
      judge := (s.judge.pressLayer time layers id n s.board).1
      board := (s.judge.pressLayer time layers id n s.board).2 } : Stage).Sound S.notes) :
    ({ s with
      judge := (s.judge.pressLayer time layers id n s.board).1
      board := (s.judge.pressLayer time layers id n s.board).2 } : Stage).Shows S L
        (x.hitLayer S time layers id) := by
  have hits := hits_pressLayer ⟨h.queue ▸ hid, hn, hu, hclose⟩ h.sound.worst layers
  have hrecord := h.record_layered hid hn time
  have hlive : (s.judge.layered time id n s.board).live[id]? =
      some { n with layersDone := n.layersDone + 1 } := by
    rw [getElem?_layered, if_pos rfl, hn]
    rfl
  have hworst : worstLayer (s.judge.worst.lookup id)
      ((n.trigger - time).abs, s.judge.windows.grade (n.trigger - time)) =
        worstLayer (x.worst id) ((S.trigger id - time).abs, S.windows.grade (S.trigger id - time)) := by
    rw [h.worst, h.windows, h.trigger hn]
  rw [pressLayer_eq, h.layersDone hn, hworst] at hsound hits ⊢
  rw [Desk.hitLayer_eq]
  split_ifs at hsound hits ⊢ with hlast
  · refine @Shows.finish S L s x h id hid _ _ _ _ _ (x.layers id + 1) hsound hits.judges.stamp
      (fun i => ?_) rfl rfl rfl (fun i => ?_) ⟨rfl, rfl, rfl, rfl, rfl⟩
    · refine (Board.record_settle (b := (s.judge.layered time id n s.board).mapScore _) hlive n _
        time i).trans ?_
      rw [Board.record_mapScore, Board.record_mapScore, hrecord, hrecord, if_pos rfl]
      split_ifs <;> rfl
    · change (Assoc.drop id s.judge.worst).lookup i = Function.update x.worst id none i
      rw [Assoc.lookup_drop, Function.update_apply, h.worst]
  · exact h.layered hid hn time _ hits.judges.stamp hsound

/-! ### Holds -/

/-- A change of the score alone. -/
theorem Shows.mapScore (h : s.Shows S L x) {f : Score → Score}
    (hsound : ({ s with board := s.board.mapScore f } : Stage).Sound S.notes) :
    ({ s with board := s.board.mapScore f } : Stage).Shows S L x :=
  { sound := hsound
    steady := h.steady
    windows := h.windows
    stamps := h.stamps
    queue := h.queue
    next := h.next
    worst := h.worst
    grade := h.grade
    layers := h.layers
    times := h.times
    lapsed := h.lapsed
    waiting := h.waiting
    nodup := h.nodup
    holds := h.holds
    tracked := h.tracked }

theorem Shows.chargeEmpty (h : s.Shows S L x) (visit : Option Nat) (key : Key) (time : Float) :
    (s.chargeEmpty (S.scene visit) key time).Shows S L x := by
  have hsound := h.sound.chargeEmpty (S.scene visit) key time
  unfold Stage.chargeEmpty at hsound ⊢
  split_ifs at hsound ⊢
  · exact h
  · exact h.mapScore hsound

/-- Registering the hold of a queued note changes nothing that a desk knows. -/
theorem Shows.track (h : s.Shows S L x) {id : Nat} (hid : id ∈ x.queue) :
    ({ s with holds := s.holds.track id s.board.live S.notes S.speed } : Stage).Shows S L x := by
  obtain ⟨hgrows, hregistered⟩ := grows_track s.holds id s.board.live S.notes S.speed
    h.sound.registered
  have hsound := h.sound.grows hgrows hregistered fun i hi =>
    .inr (.inl (List.mem_singleton.mp hi ▸ h.queue ▸ hid))
  refine h.of_holds hsound h.steady (fun k hk => ?_) fun i he =>
    List.map_subset _ hgrows.subset (h.tracked i he)
  rcases @mem_foldl_track [id] _ _ _ _ _ hk with hk | ⟨i, n, hi, hn, rfl⟩
  · exact h.holds k hk
  · obtain rfl := List.mem_singleton.mp hi
    have hidle := eq_idle (h.steady.queued i hid).2
    change _ = (⟨i, x.phase i, S.trigger i, S.finish i⟩ : Hold)
    rw [hidle, Sheet.finish, h.trigger hn, h.note? hn]

theorem Shows.isBusy (h : s.Shows S L x) (key : Key) : s.holds.isBusy key = x.isBusy key := by
  unfold Holds.isBusy Desk.isBusy
  rw [Bool.eq_iff_iff, List.any_eq_true, List.any_eq_true]
  constructor
  · rintro ⟨k, hk, hkey⟩
    rw [beq_iff_eq] at hkey
    have hphase : k.phase = x.phase k.live := congrArg Hold.phase (h.holds k hk)
    rw [hphase] at hkey
    have hlt := h.steady.known k.live (Desk.isEngaged_of_key hkey)
    exact ⟨k.live, List.mem_range.mpr hlt, beq_iff_eq.mpr hkey⟩
  · rintro ⟨id, -, hkey⟩
    rw [beq_iff_eq] at hkey
    obtain ⟨k, hk, rfl⟩ := List.mem_map.mp (h.tracked id (Desk.isEngaged_of_key hkey))
    have hphase : k.phase = x.phase k.live := congrArg Hold.phase (h.holds k hk)
    exact ⟨k, hk, beq_iff_eq.mpr (hphase ▸ hkey)⟩

/-- The hold of a queued note begins unless its key is busy. -/
theorem Shows.start (h : s.Shows S L x) {id : Nat} (hid : id ∈ x.queue) {n : LiveNote}
    (hn : s.board.live[id]? = some n) (key : Key) (time : Float)
    (hclose : (n.trigger - time).abs ≤ s.judge.windows.exit) :
    let t := s.holds.track id s.board.live S.notes S.speed
    let grade := S.windows.grade (S.trigger id - time)
    s.holds.start id key time S.notes S.speed s.board =
      if x.isBusy key then (false, s.holds, s.board)
      else (true, t.begun id key grade, s.board.mapScore fun score => score.applyGrade grade) := by
  intro t grade
  have htracked := h.track hid
  have hagree : t.windows = S.windows := htracked.sound.agree.trans h.windows
  unfold Holds.start
  rw [h.isBusy]
  split_ifs with hbusy
  · rfl
  · cases hfind : t.find? id with
    | none =>
        exact absurd (mem_track s.holds hn S.notes S.speed) (find?_eq_none_iff.mp hfind)
    | some k =>
        have hmem : k ∈ t.holds := List.mem_of_find?_eq_some hfind
        have hlive : k.live = id := by simpa using List.find?_some hfind
        have hhold : k = x.hold S id := hlive ▸ htracked.holds k hmem
        have hidle : k.phase.isEngaged = false := by
          rw [hhold]
          exact (h.steady.queued id hid).2
        have htrigger : k.trigger = S.trigger id := congrArg Hold.trigger hhold
        have hinside : ¬ t.windows.exit < (k.trigger - time).abs := by
          rw [htrigger, h.trigger hn, hagree, ← h.windows]
          exact Binary64.not_lt_of_le hclose
        change (s.holds.track id s.board.live S.notes S.speed).find? id = some k at hfind
        dsimp only
        rw [hfind]
        dsimp only
        rw [if_neg (by rw [hidle]; simpa using hinside), htrigger]
        change (true, t.begun id key (t.windows.grade (S.trigger id - time)),
          s.board.mapScore fun score => score.applyGrade (t.windows.grade (S.trigger id - time))) = _
        rw [hagree]

theorem Shows.begin (h : s.Shows S L x) {id : Nat} (hid : id ∈ x.queue) (key : Key) (time : Float)
    (hbusy : x.isBusy key = false) {f : Score → Score}
    (hsound : (⟨s.judge.remove id, (s.holds.track id s.board.live S.notes S.speed).begun id key
      (S.windows.grade (S.trigger id - time)), s.board.mapScore f⟩ : Stage).Sound S.notes) :
    (⟨s.judge.remove id, (s.holds.track id s.board.live S.notes S.speed).begun id key
      (S.windows.grade (S.trigger id - time)), s.board.mapScore f⟩ : Stage).Shows S L
        (x.begin S key time id) := by
  have htracked := h.track hid
  set t := s.holds.track id s.board.live S.notes S.speed with ht
  set grade := S.windows.grade (S.trigger id - time) with hgrade
  have hmap : (t.begun id key grade).holds = t.holds.map fun k =>
      if k.live == id then hold key grade k else k := by
    refine modifyFirst_eq_map htracked.sound.registered.once fun k _ k' _ hk hk' => ?_
    rw [beq_iff_eq] at hk hk'
    rw [hk, hk']
  exact
    { sound := hsound
      steady := h.steady.begin hbusy hid time
      windows := h.windows
      stamps := h.stamps
      queue := by
        change s.judge.queue.filter _ = x.queue.filter _
        rw [h.queue]
      next := h.next
      worst := h.worst
      grade := h.grade
      layers := h.layers
      times := h.times
      lapsed := h.lapsed
      waiting := fun i hi => h.waiting i (List.mem_filter.mp hi).1
      nodup := h.nodup.filter _
      holds := fun k hk => by
        change k ∈ (t.begun id key grade).holds at hk
        rw [hmap] at hk
        obtain ⟨k', hk', rfl⟩ := List.mem_map.mp hk
        obtain ⟨i, rfl⟩ : ∃ i, k' = x.hold S i := ⟨_, htracked.holds k' hk'⟩
        have hphase : ∀ j, (x.begin S key time id).phase j =
            if j = id then .holding key grade else x.phase j := fun j => Function.update_apply _ _ _ _
        by_cases heq : i = id
        · subst heq
          have hself : ((x.hold S i).live == i) = true := beq_self_eq_true i
          rw [if_pos hself]
          change _ = (⟨i, (x.begin S key time i).phase i, S.trigger i, S.finish i⟩ : Hold)
          rw [hphase, if_pos rfl]
          rfl
        · have hother : ¬ ((x.hold S i).live == id) = true := by simpa [Desk.hold] using heq
          rw [if_neg hother]
          change _ = (⟨i, (x.begin S key time id).phase i, S.trigger i, S.finish i⟩ : Hold)
          rw [hphase, if_neg heq]
          rfl
      tracked := fun i he => by
        have hlives : (t.begun id key grade).holds.map Hold.live = t.holds.map Hold.live :=
          map_live_modifyFirst (f := hold key grade) (fun _ => rfl) _
        change i ∈ (t.begun id key grade).holds.map Hold.live
        rw [hlives]
        change (Function.update x.phase id _ i).isEngaged = true at he
        rw [Function.update_apply] at he
        split_ifs at he with heq
        · obtain ⟨n, hn, -, -⟩ := h.waits_queue hid
          exact heq ▸ mem_track s.holds hn S.notes S.speed
        · exact htracked.tracked i he }

/-! ### Edges -/

/-- A press does to the same note the same as at the desk. -/
theorem Shows.hit (h : s.Shows S L x) (hfew : S.all.size ≤ maxScan) (visit : Option Nat) (key : Key)
    (time : Float) : (s.hit (S.scene visit) key time).Shows S L (x.hit S key time) := by
  have hsound := @Sound.hit s (S.scene visit) h.sound key time
  have htarget := h.target hfew time
  unfold Stage.hit Judge.press at hsound ⊢
  unfold Desk.hit
  rw [htarget] at hsound ⊢
  cases hfind : x.target? S time with
  | none => exact h.chargeEmpty visit key time
  | some id =>
      obtain ⟨hid, n, hn, hu, -, hclose⟩ := h.reached hfind
      have hnotes : (S.scene visit).notes = S.notes := rfl
      have hspeed : (S.scene visit).speed = S.speed := rfl
      rw [hfind] at hsound
      simp only [hn, h.note? hn, hnotes, hspeed] at hsound ⊢
      cases hnote : S.notes[n.note]? with
      | none => exact h.chargeEmpty visit key time
      | some note =>
          simp only [hnote] at hsound ⊢
          by_cases hhold : note.noteType = .hold
          · have hstart := h.start hid hn key time hclose
            simp only [hhold, if_true] at hsound ⊢
            rw [hstart] at hsound ⊢
            by_cases hbusy : x.isBusy key = true
            · simp only [hbusy, if_true, Bool.false_eq_true, if_false] at hsound ⊢
              exact h.chargeEmpty visit key time
            · simp only [hbusy, if_true, Bool.false_eq_true, if_false] at hsound ⊢
              exact h.begin hid key time (Bool.eq_false_iff.mpr hbusy) hsound
          · simp only [hhold, if_false] at hsound ⊢
            by_cases hlayers : note.noteType = .multi ∧ (!note.layers.isEmpty) = true
            · simp only [hlayers, and_self, if_true] at hsound ⊢
              exact h.layer hid hn hu time hclose note.layers.length hsound
            · simp only [hlayers, if_false] at hsound ⊢
              exact h.single hid hn hu time hclose hsound

/-- The live notes that the queue misses because of an edge. -/
def EdgeLapses (s : Stage) (scene : Scene) (e : Edge) (id : Nat) : Prop :=
  e.pressed = true ∧ s.Lapses scene e.time id

theorem Shows.update (h : s.Shows S L x) (now : Float) :
    (s.updateHolds now).Shows S L (x.change S (timeFate S.windows now)) := by
  have hagree : s.holds.windows = S.windows := h.sound.agree.trans h.windows
  rw [← hagree]
  exact h.change (lawful_timeFate _ now) (blind_timeFate _ now)

/-- Time does on the stage what it does at the desk. -/
theorem Shows.settleTime (h : s.Shows S L x) (hfew : S.all.size ≤ maxScan) {now : Float}
    (hcovers : S.Covers s.board.live now) (visit : Option Nat) :
    (s.settleTime (S.scene visit) now).Shows S
      (fun id => L id ∨ s.Lapses (S.scene visit) now id) (x.settle S now) :=
  (h.maintain hfew hcovers visit).update now

theorem Shows.release (h : s.Shows S L x) (key : Key) (time : Float) :
    (s.release key time).Shows S L (x.release S key time) := by
  have hupdated := h.update time
  have hagree : (s.updateHolds time).holds.windows = S.windows :=
    hupdated.sound.agree.trans hupdated.windows
  have heq : s.release key time =
      (s.updateHolds time).change (releaseFate S.windows key time) := by
    rw [← hagree]
    rfl
  rw [heq]
  exact hupdated.change (lawful_releaseFate _ _ _) (blind_releaseFate _ _ _)

/-- A press does on the stage what it does at the desk. -/
theorem Shows.press (h : s.Shows S L x) (hfew : S.all.size ≤ maxScan) {key : Key} {time : Float}
    (hcovers : S.Covers s.board.live time) (visit : Option Nat) :
    (s.press (S.scene visit) key time).Shows S
      (fun id => L id ∨ s.Lapses (S.scene visit) time id) (x.press S key time) := by
  have hsettled := h.settleTime hfew hcovers visit
  have hawaited := hsettled.isAwaited key time
  have hcrossed := (hsettled.resume key time).change (lawful_crossFate key time) (blind_crossFate key time)
  unfold Stage.press Desk.press
  dsimp only
  rw [hawaited]
  split_ifs
  · exact hcrossed
  · exact hcrossed.hit hfew visit key time

/-- An edge does on the stage what it does at the desk. -/
theorem Shows.edge (h : s.Shows S L x) (hfew : S.all.size ≤ maxScan) {e : Edge}
    (hcovers : S.Covers s.board.live e.time) (visit : Option Nat) :
    (s.edge (S.scene visit) e).Shows S
      (fun id => L id ∨ s.EdgeLapses (S.scene visit) e id) (x.edge S e) := by
  unfold Stage.edge Desk.edge
  cases hpressed : e.pressed with
  | true =>
      simp only [if_true, EdgeLapses, hpressed, true_and]
      exact h.press hfew hcovers visit
  | false =>
      simp only [Bool.false_eq_true, if_false, EdgeLapses, hpressed, false_and, or_false]
      exact h.release e.key e.time

end Stage

end RhythmChart
