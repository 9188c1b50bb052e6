import RhythmChart.Proofs.Arrival
import RhythmChart.Proofs.Bindings
import RhythmChart.Proofs.Edges
import RhythmChart.Proofs.Rows
import RhythmChart.Replay

/-! # Edges in the order of their times

Edges are put in order twice.  A replay sorts all of its edges at once; a playback puts each edge that is
queued in its place among those that wait.  Both keep edges of equal times as they came.  A replay that was
written is read back whatever stands between its edges, if that is read as no edge.

Main statements.

* `StablySorted`: what it is to sort and to keep the order of ties;
* `Replay.edges_text`: the edges that were written are read, by time;
* `Playback.exists_waiting_queueEdge`: where an edge is queued;
* `Playback.stablySorted_queue`: queueing sorts;
* `Playback.edges_arrive_in_order`: both for all replays and all playbacks. -/

namespace RhythmChart

open Text Binary64

/-! ### Stable sorts -/

/-- Neither of two elements is above the other. -/
def tied {α : Type} (le : α → α → Bool) (a b : α) : Bool := le a b && le b a

/-- `sorted` is the list `xs` in the order `le`; elements that are tied stand as they stood in `xs`. -/
structure StablySorted {α : Type} (le : α → α → Bool) (xs sorted : List α) : Prop where
  perm : sorted.Perm xs
  ordered : sorted.Pairwise fun a b => le a b = true
  stable : ∀ a, sorted.filter (tied le a) = xs.filter (tied le a)

section
variable {α : Type} {le : α → α → Bool} {xs l r : List α} {e : α}

theorem stablySorted_mergeSort (htrans : ∀ a b c, le a b → le b c → le a c)
    (htotal : ∀ a b, (le a b || le b a) = true) (xs : List α) : StablySorted le xs (xs.mergeSort le) where
  perm := List.mergeSort_perm xs le
  ordered := List.pairwise_mergeSort htrans htotal xs
  stable a := by
    refine filter_mergeSort htrans htotal xs fun b d hb hd => ?_
    rw [tied, Bool.and_eq_true] at hb hd
    exact htrans b a d hb.2 hd.1

/-- A further element goes after all that are not above it. -/
theorem StablySorted.insert (htrans : ∀ a b c, le a b → le b c → le a c)
    (h : StablySorted le xs (l ++ r)) (hbefore : ∀ a ∈ l, le a e = true)
    (hafter : ∀ a ∈ r, le e a = true ∧ le a e = false) : StablySorted le (xs ++ [e]) (l ++ e :: r) where
  perm := List.perm_middle.trans ((h.perm.cons e).trans (List.perm_append_singleton e xs).symm)
  ordered := by
    obtain ⟨hl, hr, hlr⟩ := List.pairwise_append.mp h.ordered
    refine List.pairwise_append.mpr ⟨hl, List.pairwise_cons.mpr ⟨fun a ha => (hafter a ha).1, hr⟩, ?_⟩
    exact fun a ha => List.forall_mem_cons.mpr ⟨hbefore a ha, hlr a ha⟩
  stable a := by
    have hstable := h.stable a
    rw [List.filter_append] at hstable ⊢
    rw [List.filter_append, ← hstable, List.append_assoc, List.filter_cons]
    split_ifs with htied
    · -- What is tied with `e` stands before it.
      have hnone : r.filter (tied le a) = [] := by
        refine List.filter_eq_nil_iff.mpr fun b hb hba => ?_
        rw [tied, Bool.and_eq_true] at htied hba
        have := (hafter b hb).2
        rw [htrans b a e hba.2 htied.1] at this
        cases this
      rw [hnone, List.nil_append, List.filter_cons_of_pos htied, List.filter_nil]
    · rw [List.filter_cons_of_neg htied, List.filter_nil, List.append_nil]

end

/-! ### Replays -/

namespace Replay

/-- A carriage return at the end of a line does not matter. -/
theorem lineEdge?_dropReturn (s : List Char) : lineEdge? (dropReturn s) = lineEdge? s := by
  rcases List.eq_nil_or_concat' s with rfl | ⟨s, c, rfl⟩
  · rfl
  · by_cases hc : c = '\r'
    · subst hc
      have hwords : words (before '#' (s ++ ['\r'])) = words (before '#' s) := by
        unfold before
        rw [List.takeWhile_append]
        split_ifs with hall
        · have hself : s.takeWhile (· != '#') = s :=
            (List.takeWhile_prefix _).eq_of_length hall
          rw [hself]
          exact words_concat (by decide) s
        · rfl
      rw [dropReturn, beforeLast?_concat, Option.getD_some, lineEdge?, lineEdge?, line?, line?, hwords]
    · rw [dropReturn, beforeLast?_of_ne s hc, Option.getD_none]

/-- A line of a replay: an edge, or anything else. -/
inductive Line where
  | edge (e : Edge)
  | other (raw : List Char)

/-- The direction of an edge in words. -/
def directionText (pressed : Bool) : List Char := if pressed then "down".toList else "up".toList

/-- The text of a line: an edge is written by its time, the name of its key and its direction. -/
def Line.text : Line → List Char
  | .edge e => joinWith [' '] [Number.positional e.time, e.key.name, directionText e.pressed]
  | .other raw => raw

/-- The edge of a line. -/
def Line.edge? : Line → Option Edge
  | .edge e => some e
  | .other _ => none

/-- The text of some lines. -/
def text (script : List Line) : List Char := script.flatMap fun l => l.text ++ ['\n']

/-- Edges with a finite time, and with a key that some name stands for but that does not begin a comment;
and lines that are read as no edge. -/
def Line.Writable : Line → Prop
  | .edge e => e.time.isFinite = true ∧ (∃ name, Key.ofName? name = some e.key) ∧ e.key.char ≠ '#'
  | .other raw => '\n' ∉ raw ∧ lineEdge? raw = none

variable {e : Edge} {l : Line} {script : List Line}

theorem direction?_directionText (pressed : Bool) :
    direction? (directionText pressed) = some pressed := by cases pressed <;> rfl

/-- The fields of an edge have no blanks and no comment. -/
theorem fields_spec (h : (Line.edge e).Writable) :
    ∀ p ∈ [Number.positional e.time, e.key.name, directionText e.pressed],
      (p ≠ [] ∧ Solid p) ∧ '#' ∉ p := by
  obtain ⟨hfinite, ⟨name, hname⟩, hmark⟩ := h
  have hnameable := Key.nameable_of_ofName? hname
  obtain ⟨hne, hchars⟩ := Number.isNumberChar_positional hfinite
  refine List.forall_mem_cons.mpr ⟨⟨⟨hne, solid_of_isNumberChar hchars⟩, not_mem_of_forall hchars rfl⟩,
    List.forall_mem_cons.mpr ⟨⟨⟨Key.name_ne_nil hnameable, Key.solid_name hnameable⟩,
      Key.not_mem_name rfl hnameable hmark⟩, List.forall_mem_singleton.mpr ?_⟩⟩
  cases e.pressed <;> decide

theorem lineEdge?_text (h : (Line.edge e).Writable) : lineEdge? (Line.edge e).text = some e := by
  have hfields := fields_spec h
  obtain ⟨hfinite, ⟨name, hname⟩, -⟩ := h
  have hmark : '#' ∉ (Line.edge e).text := by
    intro hmem
    rcases mem_joinWith hmem with hblank | ⟨p, hp, hmem⟩
    · cases List.mem_singleton.mp hblank
    · exact (hfields p hp).2 hmem
  have hbefore : before '#' (Line.edge e).text = (Line.edge e).text :=
    List.takeWhile_eq_self_iff.mpr fun c hc => by simpa using beq_of_not_mem hmark c hc
  have hwords : words (Line.edge e).text =
      [Number.positional e.time, e.key.name, directionText e.pressed] :=
    words_joinWith (by decide) fun p hp => (hfields p hp).1
  have htime : time? (Number.positional e.time) = some e.time := by
    rw [time?, Number.float?_positional hfinite, Option.filter_some, if_pos hfinite]
  rw [lineEdge?, line?, hbefore, hwords]
  simp only [edge, htime, Key.ofName?_name (Key.nameable_of_ofName? hname), directionOf,
    direction?_directionText]
  rfl

theorem lineEdge?_of_writable (h : l.Writable) : lineEdge? l.text = l.edge? := by
  cases l with
  | edge e => exact lineEdge?_text h
  | other raw => exact h.2

theorem feed_not_mem_text (h : l.Writable) : '\n' ∉ l.text := by
  cases l with
  | edge e =>
      intro hmem
      rcases mem_joinWith hmem with hblank | ⟨p, hp, hmem⟩
      · cases List.mem_singleton.mp hblank
      · exact absurd ((fields_spec h p hp).1.2 _ hmem) (by decide)
  | other raw => exact h.1

/-- The edges that were written are read, by time. -/
theorem edges_text (h : ∀ l ∈ script, l.Writable) :
    edges (text script) = byTime (script.filterMap Line.edge?) := by
  have hlines : lines (text script) = (script.map Line.text).map dropReturn := by
    have hfeed : ∀ raw ∈ script.map Line.text, '\n' ∉ raw :=
      List.forall_mem_map.mpr fun l hl => feed_not_mem_text (h l hl)
    rw [← lines_flatMap_feed hfeed, List.flatMap_map]
    rfl
  rw [edges, hlines, List.map_map, List.filterMap_map]
  refine congrArg byTime (List.filterMap_congr fun l hl => ?_)
  exact (lineEdge?_dropReturn l.text).trans (lineEdge?_of_writable (h l hl))

end Replay

/-! ### Queueing -/

namespace Playback

/-- Of the queued edges no more are handled than there are, and those that wait have times and are in
order. -/
structure Orderly (p : Playback) : Prop where
  bound : p.handled ≤ p.edges.size
  finite : ∀ e ∈ p.waiting, e.time.isFinite = true
  ordered : p.waiting.Pairwise fun a b => a.time ≤ b.time

/-- Whether an edge is not later than another. -/
def notLater (a b : Edge) : Bool := decide (a.time ≤ b.time)

theorem notLater_trans (a b c : Edge) (hab : notLater a b = true) (hbc : notLater b c = true) :
    notLater a c = true :=
  decide_eq_true (le_of_le_of_le (of_decide_eq_true hab) (of_decide_eq_true hbc))

variable {p : Playback} {e : Edge}

theorem insertIdx_length {α : Type} (l r : List α) (e : α) :
    (l ++ r).insertIdx l.length e = l ++ e :: r := by
  induction l with
  | nil => rfl
  | cons a l ih => exact congrArg (a :: ·) ih

/-- An edge is queued after the waiting ones that are not later. -/
theorem exists_waiting_queueEdge (h : p.Orderly) (he : e.time.isFinite = true) :
    ∃ l r, p.waiting = l ++ r ∧ (p.queueEdge e).waiting = l ++ e :: r ∧
      (∀ a ∈ l, a.time ≤ e.time) ∧ ∀ a ∈ r, ¬ a.time ≤ e.time := by
  -- The boundary is looked for among the edges that wait.
  have hbound := h.bound
  set later := p.edges.extract p.handled p.edges.size with hlater
  have hwaiting : later.toList = p.waiting := by simp [hlater, waiting]
  have hsize : later.size = p.edges.size - p.handled := by simp [hlater]
  obtain ⟨hle, hbefore, hafter⟩ := forall_boundary (hwaiting ▸ h.ordered) e.time
  rw [hwaiting] at hbefore hafter
  set place := boundary (fun x : Edge => decide (x.time ≤ e.time)) later 0 later.size with hplace
  have hshift : boundary (fun x : Edge => decide (x.time ≤ e.time)) p.edges p.handled p.edges.size =
      p.handled + place := by
    have hadd := boundary_add (fun x : Edge => decide (x.time ≤ e.time)) p.edges p.handled 0 later.size
    rwa [Nat.add_zero, hsize, Nat.add_sub_cancel' hbound, ← hsize] at hadd
  refine ⟨p.waiting.take place, p.waiting.drop place, (List.take_append_drop _ _).symm, ?_, hbefore,
    hafter⟩
  have hsplit : p.edges.toList =
      (p.edges.toList.take p.handled ++ p.waiting.take place) ++ p.waiting.drop place := by
    rw [List.append_assoc, List.take_append_drop, waiting, List.take_append_drop]
  have hlength : (p.edges.toList.take p.handled ++ p.waiting.take place).length = p.handled + place := by
    simp [waiting]
    omega
  have hinsert : (p.queueEdge e).edges.toList =
      p.edges.toList.take p.handled ++ (p.waiting.take place ++ e :: p.waiting.drop place) := by
    have hedges : (p.queueEdge e).edges = p.edges.insertIdxIfInBounds (p.handled + place) e := by
      rw [queueEdge, if_pos he, hshift]
    rw [hedges, Array.insertIdxIfInBounds, dif_pos (by omega), Array.toList_insertIdx, ← hlength]
    nth_rewrite 1 [hsplit]
    rw [insertIdx_length, List.append_assoc]
  have hhandled : (p.queueEdge e).handled = p.handled := by rw [queueEdge, if_pos he]
  rw [waiting, hhandled, hinsert]
  exact List.drop_left' (by simpa using hbound)

theorem queueEdge_of_not_finite (he : ¬ e.time.isFinite = true) : p.queueEdge e = p := if_neg he

/-- Queueing an edge puts it in its place. -/
theorem stablySorted_queueEdge (h : p.Orderly) {xs : List Edge} (hxs : StablySorted notLater xs p.waiting)
    (e : Edge) : StablySorted notLater (xs ++ [e].filter fun e => e.time.isFinite) (p.queueEdge e).waiting := by
  by_cases he : e.time.isFinite = true
  · obtain ⟨l, r, hsplit, hqueued, hbefore, hafter⟩ := exists_waiting_queueEdge h he
    have hkept : [e].filter (fun e => e.time.isFinite) = [e] := by simp [he]
    rw [hkept, hqueued]
    refine (hsplit ▸ hxs).insert notLater_trans (fun a ha => decide_eq_true (hbefore a ha)) fun a ha => ?_
    have hfinite := h.finite a (hsplit ▸ List.mem_append_right l ha)
    exact ⟨decide_eq_true (le_of_not_le (isNumber_of_isFinite hfinite) (isNumber_of_isFinite he)
      (hafter a ha)), decide_eq_false (hafter a ha)⟩
  · have hdropped : [e].filter (fun e => e.time.isFinite) = [] := by simp [he]
    rwa [hdropped, List.append_nil, queueEdge_of_not_finite he]

/-! ### Runs -/

theorem orderly_ofChart (c : Chart) (settings : Settings) : (ofChart c settings).Orderly :=
  ⟨Nat.le_refl _, nofun, List.Pairwise.nil⟩

theorem Orderly.stablySorted (h : p.Orderly) : StablySorted notLater p.waiting p.waiting where
  perm := .refl _
  ordered := h.ordered.imp decide_eq_true
  stable _ := rfl

theorem orderly_queueEdge (h : p.Orderly) (e : Edge) : (p.queueEdge e).Orderly := by
  by_cases he : e.time.isFinite = true
  · have hsorted := stablySorted_queueEdge h h.stablySorted e
    refine ⟨?_, fun d hd => ?_, hsorted.ordered.imp of_decide_eq_true⟩
    · have hbound := h.bound
      rw [queueEdge, if_pos he]
      unfold Array.insertIdxIfInBounds
      dsimp only
      split_ifs
      · rw [Array.size_insertIdx]
        omega
      · exact hbound
    · rcases List.mem_append.mp (hsorted.perm.mem_iff.mp hd) with hd | hd
      · exact h.finite d hd
      · exact (List.mem_filter.mp hd).2
  · rwa [queueEdge_of_not_finite he]

theorem orderly_judgeTick (h : p.Orderly) : p.judgeTick.Orderly := by
  refine ⟨?_, ?_, ?_⟩
  · have hdue : p.due.length ≤ p.waiting.length := (List.takeWhile_sublist _).length_le
    have hwaiting : p.waiting.length = p.edges.size - p.handled := by simp [waiting]
    have hbound := h.bound
    rw [judgeTick_eq]
    change p.handled + p.due.length ≤ p.edges.size
    omega
  · rw [waiting_judgeTick]
    exact fun e he => h.finite e (List.mem_of_mem_drop he)
  · rw [waiting_judgeTick]
    exact h.ordered.sublist (List.drop_sublist _ _)

/-- Every input keeps the edges that wait in order. -/
theorem orderly_feed (h : p.Orderly) (input : Input) : (p.feed input).Orderly := by
  cases input with
  | edge e => exact orderly_queueEdge h e
  | update dt =>
      have hplanned : p.planAhead.Orderly := ⟨h.bound, h.finite, h.ordered⟩
      have hjudged := orderly_judgeTick hplanned
      exact ⟨hjudged.bound, hjudged.finite, hjudged.ordered⟩

theorem orderly_after (c : Chart) (settings : Settings) (inputs : List Input) :
    (after c settings inputs).Orderly :=
  after_induction (orderly_ofChart c settings) (fun _ input h => orderly_feed h input) inputs

/-- Queueing edges one by one sorts them into those that wait. -/
theorem stablySorted_queue (h : p.Orderly) {xs : List Edge} (hxs : StablySorted notLater xs p.waiting)
    (edges : List Edge) :
    StablySorted notLater (xs ++ edges.filter fun e => e.time.isFinite)
      (edges.foldl queueEdge p).waiting := by
  induction edges generalizing p xs with
  | nil => simpa using hxs
  | cons e edges ih =>
      have hrest := ih (orderly_queueEdge h e) (stablySorted_queueEdge h hxs e)
      rwa [List.append_assoc, ← List.filter_append, List.singleton_append] at hrest

/-- The edges of a replay are read in the order of their times, and those at equal times in the order of
their lines, whatever blank, wrong or commenting lines there are.  In every playback the edges that wait and
those of finite times that are queued after them are in the order of their times too, and those at equal
times in the order of their arrival. -/
theorem edges_arrive_in_order :
    (∀ script : List Replay.Line, (∀ l ∈ script, l.Writable) →
      StablySorted (fun a b => Number.totalLe a.time b.time) (script.filterMap Replay.Line.edge?)
        (Replay.edges (Replay.text script))) ∧
    ∀ (c : Chart) (settings : Settings) (inputs : List Input) (edges : List Edge),
      let p := after c settings inputs
      StablySorted notLater (p.waiting ++ edges.filter fun e => e.time.isFinite)
        (edges.foldl queueEdge p).waiting := by
  refine ⟨fun script h => ?_, fun c settings inputs edges => ?_⟩
  · rw [Replay.edges_text h]
    exact stablySorted_mergeSort (fun a b c => Number.totalLe_trans a.time b.time c.time)
      (fun a b => Number.totalLe_total a.time b.time) _
  · have horderly := orderly_after c settings inputs
    exact stablySorted_queue horderly horderly.stablySorted edges

/-- A press, and a release before it, between lines that hold no edge. -/
def sampleScript : List Replay.Line :=
  [.other "# the first bar".toList, .edge ⟨⟨'d'⟩, true, 1.5⟩, .other "".toList, .other "soon KeyD down".toList,
    .edge ⟨⟨' '⟩, false, 0.25⟩]

theorem writable_sampleScript : ∀ l ∈ sampleScript, l.Writable := by
  have hfinite : (1.5 : Float).isFinite = true ∧ (0.25 : Float).isFinite = true := by decide +kernel
  have hother : ∀ raw ∈ ["# the first bar".toList, "".toList, "soon KeyD down".toList],
      '\n' ∉ raw ∧ Replay.lineEdge? raw = none := by decide +kernel
  intro l hl
  simp only [sampleScript, List.mem_cons, List.not_mem_nil, or_false] at hl
  rcases hl with rfl | rfl | rfl | rfl | rfl
  · exact hother _ (by simp)
  · exact ⟨hfinite.1, ⟨"KeyD".toList, rfl⟩, by decide⟩
  · exact hother _ (by simp)
  · exact hother _ (by simp)
  · exact ⟨hfinite.2, ⟨"Space".toList, rfl⟩, by decide⟩

theorem edges_arrive_in_order_sample :
    (∀ l ∈ sampleScript, l.Writable) ∧
      StablySorted (fun a b => Number.totalLe a.time b.time)
        [⟨⟨'d'⟩, true, 1.5⟩, ⟨⟨' '⟩, false, 0.25⟩] (Replay.edges (Replay.text sampleScript)) :=
  ⟨writable_sampleScript, edges_arrive_in_order.1 sampleScript writable_sampleScript⟩

end Playback

end RhythmChart
