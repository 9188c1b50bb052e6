import RhythmChart.Proofs.Pressing

/-! # Edges in order

Queued edges stand by their times, and a tick handles those that are due.

Main statements.

* `Playback.inOrder_queueEdge`: queueing keeps the edges in order;
* `Playback.handleEdges_eq`: what handling the waiting edges does;
* `Playback.judgeTick_eq`: a tick judges the edges one after the other, and then the time;
* `Desk.agree_foldl`: desks that agree from some time on agree after the same later edges;
* `Stage.Shows.edges`: a run of edges on a stage is one at the desk. -/

namespace RhythmChart

open Judge Holds Binary64

deriving instance DecidableEq for Edge

/-! ### Queueing -/

theorem pairwise_insertIdx {α : Type} {R : α → α → Prop} {l : List α} {e : α} {k : Nat}
    (hk : k ≤ l.length) (h : l.Pairwise R) (hbefore : ∀ a ∈ l.take k, R a e)
    (hafter : ∀ a ∈ l.drop k, R e a) : (l.insertIdx k e).Pairwise R := by
  induction l generalizing k with
  | nil =>
      obtain rfl : k = 0 := by simpa using hk
      simp
  | cons a l ih =>
      cases k with
      | zero => exact List.pairwise_cons.mpr ⟨hafter, h⟩
      | succ k =>
          obtain ⟨ha, hl⟩ := List.pairwise_cons.mp h
          rw [List.insertIdx_succ_cons]
          refine List.pairwise_cons.mpr ⟨fun b hb => ?_, ih (by simpa using hk) hl ?_ hafter⟩
          · rcases List.eq_or_mem_of_mem_insertIdx hb with rfl | hb
            · exact hbefore a (by simp)
            · exact ha b hb
          · exact fun b hb => hbefore b (List.mem_cons_of_mem _ hb)

/-- Of two numbers one is not below the other. -/
theorem le_of_not_le {x y : Float} (hx : IsNumber x) (hy : IsNumber y) (h : ¬ x ≤ y) : y ≤ x :=
  (le_iff y x).mpr ⟨hy, hx, (le_total _ _).resolve_left fun hle => h ((le_iff x y).mpr ⟨hx, hy, hle⟩)⟩

namespace Playback

/-- The edges are ordered by time. -/
def InOrder (p : Playback) : Prop := p.edges.toList.Pairwise fun a b => a.time ≤ b.time

/-- Of edges in order, those before a boundary in time are not later than it, and all others are. -/
theorem forall_boundary {edges : Array Edge} (h : edges.toList.Pairwise fun a b => a.time ≤ b.time)
    (time : Float) :
    let place := boundary (fun x : Edge => decide (x.time ≤ time)) edges 0 edges.size
    place ≤ edges.size ∧ (∀ a ∈ edges.toList.take place, a.time ≤ time) ∧
      ∀ a ∈ edges.toList.drop place, ¬ a.time ≤ time := by
  intro place
  set early := fun x : Edge => decide (x.time ≤ time)
  have hpartitioned : Partitioned early edges := by
    intro i j hi hj hij hle
    rcases hij.eq_or_lt with rfl | hlt
    · exact hle
    · have hij := List.pairwise_iff_getElem.mp h i j (by simpa using hi) (by simpa using hj) hlt
      simp only [Array.getElem_toList] at hij
      exact decide_eq_true (le_of_le_of_le hij (of_decide_eq_true hle))
  have hle : place ≤ edges.size := (boundary_mem early edges 0 edges.size (Nat.zero_le _)).2
  refine ⟨hle, fun a ha => ?_, fun a ha => ?_⟩
  · obtain ⟨i, hi, rfl⟩ := List.mem_take_iff_getElem.mp ha
    rw [Array.length_toList] at hi
    have hsat := sat_of_lt_boundary hpartitioned (Nat.zero_le i) (by omega)
      (show i < place by omega)
    simpa using of_decide_eq_true hsat
  · obtain ⟨i, hi, rfl⟩ := List.mem_drop_iff_getElem.mp ha
    rw [Array.length_toList] at hi
    have hnot := not_sat_of_boundary_le hpartitioned (show place + i < edges.size by omega)
      (by omega) (show place ≤ place + i by omega)
    simpa using of_decide_eq_false hnot

/-- Queueing an edge before anything is handled keeps the edges in order. -/
theorem inOrder_queueEdge {p : Playback} (h : p.InOrder)
    (hfinite : ∀ e ∈ p.edges, e.time.isFinite = true) (hhandled : p.handled = 0) (e : Edge) :
    (p.queueEdge e).InOrder := by
  unfold queueEdge
  split_ifs with he
  swap
  · exact h
  obtain ⟨hle, hbefore, hafter⟩ := forall_boundary h e.time
  unfold InOrder
  dsimp only
  rw [hhandled]
  unfold Array.insertIdxIfInBounds
  rw [dif_pos hle, Array.toList_insertIdx]
  refine pairwise_insertIdx (by simpa using hle) h hbefore fun a ha => ?_
  have hmem : a ∈ p.edges := Array.mem_def.mpr (List.mem_of_mem_drop ha)
  exact le_of_not_le (isNumber_of_isFinite (hfinite a hmem)) (isNumber_of_isFinite he) (hafter a ha)

/-! ### Handling -/

/-- The edges of judged keys among those that change the state of their keys. -/
def accepted (keymap : Keymap) : Keyboard → List Edge → List Edge
  | _, [] => []
  | keyboard, e :: rest =>
    if keyboard.accepts e && keymap.isJudge e.key then e :: accepted keymap (keyboard.apply e) rest
    else accepted keymap (keyboard.apply e) rest

/-- The first of some edges up to the time `now`. -/
def dueAt (now : Float) (edges : List Edge) : List Edge :=
  edges.takeWhile fun e => !decide (now < e.time)

theorem accepted_append (keymap : Keymap) (keyboard : Keyboard) (l l' : List Edge) :
    accepted keymap keyboard (l ++ l') =
      accepted keymap keyboard l ++ accepted keymap (l.foldl Keyboard.apply keyboard) l' := by
  induction l generalizing keyboard with
  | nil => rfl
  | cons e l ih =>
      simp only [List.cons_append, accepted, List.foldl_cons, ih]
      split_ifs <;> rfl

theorem accepted_sublist (keymap : Keymap) (keyboard : Keyboard) (l : List Edge) :
    (accepted keymap keyboard l).Sublist l := by
  induction l generalizing keyboard with
  | nil => exact List.Sublist.refl _
  | cons e l ih =>
      unfold accepted
      split_ifs
      · exact (ih _).cons_cons e
      · exact (ih _).cons e

/-- Handling the waiting edges handles those that are due, one after the other. -/
theorem handleEdges_eq (keymap : Keymap) (scene : Scene) (now : Float) (edges : Array Edge) (i : Nat)
    (keyboard : Keyboard) (s : Stage) :
    let due := dueAt now (edges.toList.drop i)
    handleEdges keymap scene now edges i keyboard s =
      (i + due.length, due.foldl Keyboard.apply keyboard,
        (accepted keymap keyboard due).foldl (fun s e => s.edge scene e) s) := by
  intro due
  fun_induction handleEdges keymap scene now edges i keyboard s with
  | case1 i keyboard s hi e hwait =>
      have hdue : due = [] := by
        unfold due dueAt
        rw [List.drop_eq_getElem_cons (by simpa using hi), Array.getElem_toList,
          List.takeWhile_cons_of_neg (by simpa using hwait)]
      rw [hdue]
      rfl
  | case2 i keyboard s hi e hwait haccept s' ih =>
      have hdue : due = e :: dueAt now (edges.toList.drop (i + 1)) := by
        unfold due dueAt
        rw [List.drop_eq_getElem_cons (by simpa using hi), Array.getElem_toList,
          List.takeWhile_cons_of_pos (by simpa using hwait)]
      rw [ih, hdue]
      simp only [accepted, List.length_cons, List.foldl_cons, haccept, Bool.true_and, s']
      refine Prod.ext (by omega) (Prod.ext rfl ?_)
      by_cases hjudge : keymap.isJudge e.key = true
      · simp [hjudge]
      · simp [hjudge]
  | case3 i keyboard s hi e hwait haccept ih =>
      have hdue : due = e :: dueAt now (edges.toList.drop (i + 1)) := by
        unfold due dueAt
        rw [List.drop_eq_getElem_cons (by simpa using hi), Array.getElem_toList,
          List.takeWhile_cons_of_pos (by simpa using hwait)]
      have happly : keyboard.apply e = keyboard := if_neg haccept
      rw [ih, hdue]
      simp only [accepted, List.length_cons, List.foldl_cons, haccept, Bool.false_and, happly]
      refine Prod.ext (by omega) (Prod.ext rfl ?_)
      simp
  | case4 i keyboard s hi =>
      have hdue : due = [] := by
        unfold due dueAt
        rw [List.drop_eq_nil_of_le (by simpa using Nat.le_of_not_lt hi)]
        rfl
      rw [hdue]
      rfl

/-! ### Ticks -/

/-- The edges that a tick handles. -/
def due (p : Playback) : List Edge := dueAt p.playhead.time p.waiting

/-- The edges that a tick hands to judging. -/
def judged (p : Playback) : List Edge := accepted p.keymap p.keyboard p.due

/-- What judging looks at in a tick. -/
def scene (p : Playback) : Scene :=
  ⟨p.chart.notes, p.playhead.speed, p.playhead.current?.map Visit.seq⟩

/-- Judging after the edges of a tick. -/
def staged (p : Playback) : Stage := p.judged.foldl (fun s e => s.edge p.scene e) p.stage

theorem judgeTick_eq (p : Playback) :
    p.judgeTick =
      { p.takeBack (p.staged.settleTime p.scene p.playhead.time) with
        handled := p.handled + p.due.length
        keyboard := p.due.foldl Keyboard.apply p.keyboard } := by
  have hhandle := handleEdges_eq p.keymap p.scene p.playhead.time p.edges p.handled p.keyboard p.stage
  have hjudge : p.judgeTick =
      let r := handleEdges p.keymap p.scene p.playhead.time p.edges p.handled p.keyboard p.stage
      { p.takeBack (r.2.2.settleTime p.scene p.playhead.time) with
        handled := r.1
        keyboard := r.2.1 } := rfl
  rw [hjudge, hhandle]
  rfl

theorem due_append_drop (p : Playback) : p.due ++ p.waiting.drop p.due.length = p.waiting := by
  have hinit : p.due = p.waiting.take p.due.length :=
    List.prefix_iff_eq_take.mp (List.takeWhile_prefix _)
  have hjoin := List.take_append_drop p.due.length p.waiting
  rwa [← hinit] at hjoin

theorem waiting_judgeTick (p : Playback) : p.judgeTick.waiting = p.waiting.drop p.due.length := by
  rw [judgeTick_eq, waiting, waiting, List.drop_drop]
  rfl

theorem stage_judgeTick (p : Playback) :
    p.judgeTick.stage = p.staged.settleTime p.scene p.playhead.time := by
  rw [judgeTick_eq]
  rfl

/-- The edges of a tick keep the frame of judging. -/
theorem frame_staged {p : Playback} (h : p.stage.Sound p.scene.notes) : p.stage.Frame p.staged := by
  have hhandle : p.stage.Frame
      (handleEdges p.keymap p.scene p.playhead.time p.edges p.handled p.keyboard p.stage).2.2 :=
    frame_handleEdges h
  rw [handleEdges_eq] at hhandle
  exact hhandle

/-- The next tick of `p` meets the stage `s` with the edges `rest` still to be judged. -/
def Meets (p : Playback) (s : Stage) (rest : List Edge) : Prop :=
  ∃ before, p.planAhead.judged = before ++ rest ∧
    s = before.foldl (fun s e => s.edge p.planAhead.scene e) p.planAhead.stage

end Playback

/-! ### Runs of edges -/

/-- Desks that agree at all times from `start` on. -/
def Desk.AgreeFrom (S : Sheet) (start : EReal) (x y : Desk) : Prop :=
  ∀ u, IsNumber u → value u ≠ ⊥ → start ≤ value u → Desk.Agree S u x y

/-- Desks that agree from some time on agree after the same later edges. -/
theorem Desk.agree_foldl {S : Sheet} {edges : List Edge}
    (hfinite : ∀ e ∈ edges, e.time.isFinite = true)
    (horder : edges.Pairwise fun a b => a.time ≤ b.time) {start : EReal} {x y : Desk}
    (hx : x.Steady) (hy : y.Steady) (h : AgreeFrom S start x y)
    (hstart : ∀ e ∈ edges, start ≤ value e.time) {u : Float} (hu : IsNumber u) (hubot : value u ≠ ⊥)
    (hstartu : start ≤ value u) (hlast : ∀ e ∈ edges, e.time ≤ u) :
    Agree S u (edges.foldl (fun x e => x.edge S e) x) (edges.foldl (fun x e => x.edge S e) y) := by
  induction edges generalizing start x y with
  | nil => exact h u hu hubot hstartu
  | cons e edges ih =>
      obtain ⟨he, hrest⟩ := List.pairwise_cons.mp horder
      have hnumber := isNumber_of_isFinite (hfinite e List.mem_cons_self)
      have hbot := not_bot_of_isFinite (hfinite e List.mem_cons_self)
      have hself : e.time ≤ e.time := le_self hnumber
      have hnow : Agree S e.time x y := h e.time hnumber hbot (hstart e List.mem_cons_self)
      have hafter : AgreeFrom S (value e.time) (x.edge S e) (y.edge S e) := by
        intro v hv hvbot hle
        exact (hnow.edge hbot hself hx hy).later hbot ((le_iff _ _).mpr ⟨hnumber, hv, hle⟩)
          (hx.edge e) (hy.edge e)
      refine ih (fun k hk => hfinite k (List.mem_cons_of_mem _ hk)) hrest (hx.edge e) (hy.edge e)
        hafter (fun k hk => ((le_iff _ _).mp (he k hk)).2.2)
        ((le_iff _ _).mp (hlast e List.mem_cons_self)).2.2
        fun k hk => hlast k (List.mem_cons_of_mem _ hk)

namespace Stage

/-- The live notes that the queue misses during a run of edges. -/
def EdgesLapse (scene : Scene) : List Edge → Stage → Nat → Prop
  | [], _, _ => False
  | e :: rest, s, id => s.EdgeLapses scene e id ∨ EdgesLapse scene rest (s.edge scene e) id

variable {S : Sheet} {L : Nat → Prop} {s : Stage} {x : Desk}

theorem Frame.size {s s' : Stage} (h : Frame s s') : s'.board.live.size = s.board.live.size := by
  have := congrArg Array.size h.stamp
  rwa [Array.size_map, Array.size_map] at this

theorem covers_of_size {live live' : Array LiveNote} {t : Float} (h : S.Covers live t)
    (hsize : live'.size = live.size) : S.Covers live' t := by
  unfold Sheet.Covers at h ⊢
  rwa [hsize]

/-- A run of edges on the stage is one at the desk. -/
theorem Shows.edges (h : s.Shows S L x) (hfew : S.all.size ≤ maxScan) (visit : Option Nat)
    {edges : List Edge} (hcovers : ∀ e ∈ edges, S.Covers s.board.live e.time) :
    (edges.foldl (fun s e => s.edge (S.scene visit) e) s).Shows S
      (fun id => L id ∨ EdgesLapse (S.scene visit) edges s id)
      (edges.foldl (fun x e => x.edge S e) x) := by
  induction edges generalizing s x L with
  | nil =>
      simp only [EdgesLapse, or_false]
      exact h
  | cons e edges ih =>
      have hsize := (@frame_edge s (S.scene visit) h.sound e).size
      have hrest := ih (h.edge hfew (hcovers e List.mem_cons_self) visit)
        fun k hk => covers_of_size (hcovers k (List.mem_cons_of_mem _ hk)) hsize
      simpa only [EdgesLapse, or_assoc, List.foldl_cons] using hrest

end Stage

end RhythmChart
