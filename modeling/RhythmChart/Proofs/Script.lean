import RhythmChart.Autoplay
import RhythmChart.Proofs.Binary64.Identity
import RhythmChart.Proofs.Keying

/-! # The script of autoplay

A script is made of strokes, each a press of a key and its release.  Keys are handed out in turn and only
while they are up, so that strokes of one key do not overlap; and the edges are then put into the order of
time in which a keyboard accepts every press.

Main statements.

* `Rotation.take?_spec`: a key that is handed out was up, and is then down until the given time;
* `Autoplay.exists_scripted`: a script that skips no press has one stroke for each press, in order;
* `Autoplay.follows_ordered`: in playing order the accepted edges follow the strokes, one press after the
  other, and none while an earlier stroke of the key is not over. -/

namespace RhythmChart

open Binary64

/-! ### Strokes -/

/-- A press of a key and its release. -/
structure Stroke where
  key : Key
  down : Float
  up : Float

namespace Stroke

/-- The edge with which the key goes down. -/
def press (s : Stroke) : Edge := .down s.key s.down

/-- The edge with which the key comes up. -/
def release (s : Stroke) : Edge := .up s.key s.up

/-- The two edges. -/
def edges (s : Stroke) : List Edge := [s.press, s.release]

@[simp] theorem press_key (s : Stroke) : s.press.key = s.key := rfl

@[simp] theorem press_pressed (s : Stroke) : s.press.pressed = true := rfl

@[simp] theorem press_time (s : Stroke) : s.press.time = s.down := rfl

@[simp] theorem release_key (s : Stroke) : s.release.key = s.key := rfl

@[simp] theorem release_pressed (s : Stroke) : s.release.pressed = false := rfl

@[simp] theorem release_time (s : Stroke) : s.release.time = s.up := rfl

/-- When the key goes down, and when it comes up. -/
def times (s : Stroke) : Float × Float := (s.down, s.up)

/-- The first stroke is over when the second one begins, if they are of one key. -/
def Apart (s t : Stroke) : Prop := s.key = t.key → s.up ≤ t.down

theorem apart_or_apart {l : List Stroke} (h : l.Pairwise Apart) {s t : Stroke} (hs : s ∈ l)
    (ht : t ∈ l) : s = t ∨ s.Apart t ∨ t.Apart s := by
  obtain ⟨i, hi, rfl⟩ := List.mem_iff_getElem.mp hs
  obtain ⟨j, hj, rfl⟩ := List.mem_iff_getElem.mp ht
  have hget := List.pairwise_iff_getElem.mp h
  rcases Nat.lt_trichotomy i j with hij | rfl | hji
  · exact .inr (.inl (hget i j hi hj hij))
  · exact .inl rfl
  · exact .inr (.inr (hget j i hj hi hji))

end Stroke

/-! ### Handing out keys -/

namespace Rotation

variable {r r' : Rotation} {k : Key} {down up : Float}

/-- The keys that are handed out. -/
def names (r : Rotation) : List Key := r.keys.toList.map Prod.fst

/-- The strokes with which keys are handed out for presses; presses that find no key are left out. -/
def strokes : Rotation → List (Float × Float) → List Stroke
  | _, [] => []
  | r, times :: presses =>
    match r.take? times.1 times.2 with
    | some (k, r) => ⟨k, times.1, times.2⟩ :: strokes r presses
    | none => strokes r presses

theorem strokes_cons_of_some {times : Float × Float} (presses : List (Float × Float))
    (h : r.take? times.1 times.2 = some (k, r')) :
    r.strokes (times :: presses) = ⟨k, times.1, times.2⟩ :: r'.strokes presses := by
  rw [strokes, h]

theorem strokes_cons_of_none {times : Float × Float} (presses : List (Float × Float))
    (h : r.take? times.1 times.2 = none) : r.strokes (times :: presses) = r.strokes presses := by
  rw [strokes, h]

/-- Every stroke has the times of a press. -/
theorem times_mem_of_strokes {presses : List (Float × Float)} {s : Stroke} (hs : s ∈ r.strokes presses) :
    s.times ∈ presses := by
  induction presses generalizing r with
  | nil => cases hs
  | cons times presses ih =>
      cases htake : r.take? times.1 times.2 with
      | none =>
          rw [strokes_cons_of_none presses htake] at hs
          exact List.mem_cons_of_mem _ (ih hs)
      | some taken =>
          rw [strokes_cons_of_some presses htake] at hs
          rcases List.mem_cons.mp hs with rfl | hs
          · exact List.mem_cons_self
          · exact List.mem_cons_of_mem _ (ih hs)

/-- A key is handed out only when it is up, and then it is down until `up`. -/
theorem take?_spec (h : r.take? down up = some (k, r')) (hnodup : r.names.Nodup) :
    r'.names = r.names ∧ k ∈ r.names ∧ (∀ e ∈ r.keys, e.1 = k → e.2 ≤ down) ∧
      ∀ e ∈ r'.keys, e.1 = k ∧ e.2 = up ∨ e.1 ≠ k ∧ e ∈ r.keys := by
  obtain ⟨i, hfree, htake⟩ := Option.bind_eq_some_iff.mp h
  obtain ⟨e, he, heq⟩ := Option.map_eq_some_iff.mp htake
  obtain ⟨rfl, rfl⟩ := Prod.mk.inj heq
  have hup : e.2 ≤ down := by
    have hsome := List.find?_some hfree
    rw [he, Option.any_some] at hsome
    exact of_decide_eq_true hsome
  obtain ⟨hi, hget⟩ := Array.getElem?_eq_some_iff.mp he
  -- The keys are distinct, so that no other place holds this one.
  have hplace : ∀ j (hj : j < r.keys.size), r.keys[j].1 = e.1 → j = i := by
    intro j hj hsame
    have hinjective := List.nodup_iff_injective_getElem.mp hnodup
    have heq := @hinjective ⟨j, by simpa [names] using hj⟩ ⟨i, by simpa [names] using hi⟩
      (by simp [names, hsame, hget])
    exact congrArg Fin.val heq
  refine ⟨?_, ?_, fun e' he' hsame => ?_, fun e' he' => ?_⟩
  · have hmap : ((r.keys.modify i fun k => (k.1, up)).map Prod.fst) = r.keys.map Prod.fst := by
      refine Array.ext_getElem? fun j => ?_
      rw [Array.getElem?_map, Array.getElem?_map, Array.getElem?_modify]
      split_ifs
      · rw [Option.map_map]
        rfl
      · rfl
    simpa [names] using congrArg Array.toList hmap
  · exact List.mem_map.mpr ⟨e, Array.mem_toList_iff.mpr (Array.mem_of_getElem? he), rfl⟩
  · obtain ⟨j, hj, rfl⟩ := Array.mem_iff_getElem.mp he'
    obtain rfl := hplace j hj hsame
    rw [hget]
    exact hup
  · obtain ⟨j, hj⟩ := Array.mem_iff_getElem?.mp he'
    rw [Array.getElem?_modify] at hj
    split_ifs at hj with hij
    · subst hij
      rw [he] at hj
      rw [← Option.some.inj hj]
      exact .inl ⟨rfl, rfl⟩
    · obtain ⟨hj', rfl⟩ := Array.getElem?_eq_some_iff.mp hj
      exact .inr ⟨fun hsame => hij (hplace j hj' hsame).symm, Array.getElem_mem hj'⟩

end Rotation

/-! ### The strokes of a script -/

namespace Autoplay

/-- A script is made of strokes of the given keys; no key is down in two of them at once, and the
rotation knows until when each is down. -/
structure Scripted (keys : List Key) (strokes : List Stroke) (a : Autoplay) : Prop where
  edges : a.edges.toList = strokes.flatMap Stroke.edges
  names : a.rotation.names = keys
  known : ∀ s ∈ strokes, s.key ∈ keys
  busy : ∀ s ∈ strokes, ∀ e ∈ a.rotation.keys, e.1 = s.key → s.up ≤ e.2
  apart : strokes.Pairwise Stroke.Apart

section Press

variable {a : Autoplay} {times : Float × Float} {k : Key} {r : Rotation}

theorem press_of_some (h : a.rotation.take? times.1 times.2 = some (k, r)) :
    a.press times =
      ⟨(a.edges.push (.down k times.1)).push (.up k times.2), a.skipped, r⟩ := by
  rw [press, h]

theorem press_of_none (h : a.rotation.take? times.1 times.2 = none) :
    a.press times = ⟨a.edges, a.skipped + 1, a.rotation⟩ := by
  rw [press, h]

end Press

variable {keys : List Key} {strokes : List Stroke} {a : Autoplay}

/-- A press for which a key is handed out adds a stroke. -/
theorem Scripted.press (h : Scripted keys strokes a) (hnodup : keys.Nodup) {times : Float × Float}
    {k : Key} {r : Rotation} (htake : a.rotation.take? times.1 times.2 = some (k, r))
    (htimes : times.1 ≤ times.2) :
    Scripted keys (strokes ++ [⟨k, times.1, times.2⟩]) (a.press times) := by
  obtain ⟨hnames, hk, hup, hafter⟩ := Rotation.take?_spec htake (h.names ▸ hnodup)
  obtain ⟨hdown, hnumber, hle⟩ := (le_iff _ _).mp htimes
  -- The key is known to the rotation, which tells how long its strokes last.
  obtain ⟨e₀, he₀, hkey₀⟩ := List.mem_map.mp hk
  have hover : ∀ s ∈ strokes, s.key = k → s.up ≤ times.1 := fun s hs hkey =>
    le_of_le_of_le (h.busy s hs e₀ (Array.mem_toList_iff.mp he₀) (hkey₀.trans hkey.symm))
      (hup e₀ (Array.mem_toList_iff.mp he₀) hkey₀)
  rw [press_of_some htake]
  refine
    { edges := by simp [h.edges, Stroke.edges, Stroke.press, Stroke.release]
      names := hnames.trans h.names
      known := fun s hs => ?_
      busy := fun s hs e he hkey => ?_
      apart := List.pairwise_append.mpr ⟨h.apart, List.pairwise_singleton _ _, ?_⟩ }
  · rcases List.mem_append.mp hs with hs | hs
    · exact h.known s hs
    · rw [List.mem_singleton.mp hs]
      exact h.names ▸ hk
  · rcases List.mem_append.mp hs with hs | hs
    · rcases hafter e he with ⟨hek, hend⟩ | ⟨-, hold⟩
      · rw [hend]
        exact le_of_le_of_le (hover s hs (hkey.symm.trans hek)) htimes
      · exact h.busy s hs e hold hkey
    · obtain rfl := List.mem_singleton.mp hs
      rcases hafter e he with ⟨-, hend⟩ | ⟨hne, -⟩
      · rw [hend]
        exact le_self hnumber
      · exact absurd hkey hne
  · intro s hs t ht hkey
    rw [List.mem_singleton.mp ht] at hkey ⊢
    exact hover s hs hkey

/-- Presses add the strokes that are handed out for them, if none ends before it begins. -/
theorem Scripted.presses (h : Scripted keys strokes a) (hnodup : keys.Nodup)
    {presses : List (Float × Float)} (hforth : ∀ s ∈ a.rotation.strokes presses, s.down ≤ s.up) :
    Scripted keys (strokes ++ a.rotation.strokes presses) (presses.foldl Autoplay.press a) := by
  induction presses generalizing a strokes with
  | nil => simpa [Rotation.strokes] using h
  | cons times presses ih =>
      rw [List.foldl_cons]
      cases htake : a.rotation.take? times.1 times.2 with
      | none =>
          rw [Rotation.strokes_cons_of_none presses htake] at hforth ⊢
          rw [press_of_none htake]
          exact ih (a := ⟨a.edges, a.skipped + 1, a.rotation⟩)
            ⟨h.edges, h.names, h.known, h.busy, h.apart⟩ hforth
      | some taken =>
          obtain ⟨k, r⟩ := taken
          rw [Rotation.strokes_cons_of_some presses htake] at hforth ⊢
          have htimes : times.1 ≤ times.2 := hforth ⟨k, times.1, times.2⟩ List.mem_cons_self
          have hstep := h.press hnodup htake htimes
          rw [press_of_some htake] at hstep ⊢
          rw [List.append_cons]
          exact ih hstep fun s hs => hforth s (List.mem_cons_of_mem _ hs)

/-- The edges that presses add are those of the strokes that are handed out for them. -/
theorem edges_presses (a : Autoplay) (presses : List (Float × Float)) :
    (presses.foldl press a).edges.toList =
      a.edges.toList ++ (a.rotation.strokes presses).flatMap Stroke.edges := by
  induction presses generalizing a with
  | nil => simp [Rotation.strokes]
  | cons times presses ih =>
      rw [List.foldl_cons, ih]
      cases htake : a.rotation.take? times.1 times.2 with
      | none => rw [Rotation.strokes_cons_of_none presses htake, press_of_none htake]
      | some taken =>
          rw [Rotation.strokes_cons_of_some presses htake, press_of_some htake]
          simp [Stroke.edges, Stroke.press, Stroke.release]

/-- The presses that the visits of a chart need. -/
def pressesOf (c : Chart) (speed : Float) (visits : List Visit) : List (Float × Float) :=
  visits.flatMap fun v => (c.notesAt v.row).flatMap fun n =>
    n.2.presses speed (v.start + n.2.position / speed)

/-- The presses that a chart needs. -/
def presses (c : Chart) (speed start : Float) : List (Float × Float) :=
  pressesOf c (usableSpeed speed) (Plan.ofChart c (usableSpeed speed) start).visits.toList

theorem ofChart_eq (c : Chart) (speed start : Float) (keymap : Keymap) :
    ofChart c speed start keymap =
      (presses c speed start).foldl press ⟨#[], 0, .ofKeys keymap.judge⟩ := by
  unfold ofChart presses pressesOf
  rw [List.foldl_flatMap, Array.foldl_toList]
  simp only [List.foldl_flatMap]
  rfl

/-- The strokes with which autoplay plays a chart. -/
def strokesOf (c : Chart) (speed start : Float) (keymap : Keymap) : List Stroke :=
  (Rotation.ofKeys keymap.judge).strokes (presses c speed start)

theorem edges_ofChart (c : Chart) (speed start : Float) (keymap : Keymap) :
    (ofChart c speed start keymap).edges.toList =
      (strokesOf c speed start keymap).flatMap Stroke.edges := by
  rw [ofChart_eq, edges_presses]
  rfl

/-- A script is made of the strokes that are handed out, if none ends before it begins. -/
theorem scripted_ofChart {c : Chart} {speed start : Float} {keymap : Keymap} (hnodup : keymap.judge.Nodup)
    (hforth : ∀ s ∈ strokesOf c speed start keymap, s.down ≤ s.up) :
    Scripted keymap.judge (strokesOf c speed start keymap) (ofChart c speed start keymap) := by
  have hstart : Scripted keymap.judge [] ⟨#[], 0, .ofKeys keymap.judge⟩ :=
    { edges := rfl
      names := by simp [Rotation.names, Rotation.ofKeys, Function.comp_def]
      known := fun _ h => (nomatch h)
      busy := fun _ h => (nomatch h)
      apart := .nil }
  rw [ofChart_eq]
  exact hstart.presses hnodup hforth

theorem edgeLe_iff {a b : Edge} : edgeLe a b = true ↔
    Number.orderKey a.time < Number.orderKey b.time ∨
      Number.orderKey a.time = Number.orderKey b.time ∧ (a.pressed = true → b.pressed = true) :=
  decide_eq_true_iff

theorem edgeLe_trans (a b c : Edge) (hab : edgeLe a b = true) (hbc : edgeLe b c = true) :
    edgeLe a c = true := by
  rw [edgeLe_iff] at *
  rcases hab with hab | ⟨hab, hpressed⟩ <;> rcases hbc with hbc | ⟨hbc, hpressed'⟩
  · exact .inl (hab.trans hbc)
  · exact .inl (hab.trans_eq hbc)
  · exact .inl (hab.trans_lt hbc)
  · exact .inr ⟨hab.trans hbc, fun h => hpressed' (hpressed h)⟩

theorem edgeLe_total (a b : Edge) : (edgeLe a b || edgeLe b a) = true := by
  rw [Bool.or_eq_true, edgeLe_iff, edgeLe_iff]
  rcases lt_trichotomy (Number.orderKey a.time) (Number.orderKey b.time) with h | h | h
  · exact .inl (.inl h)
  · by_cases hb : b.pressed = true
    · exact .inl (.inr ⟨h, fun _ => hb⟩)
    · exact .inr (.inr ⟨h.symm, fun hpressed => absurd hpressed hb⟩)
  · exact .inr (.inl h)

/-- A press that stands before a release is earlier. -/
theorem lt_of_edgeLe {s t : Stroke} (h : edgeLe s.press t.release = true) :
    Number.orderKey s.down < Number.orderKey t.up := by
  rcases edgeLe_iff.mp h with h | ⟨-, hpressed⟩
  · exact h
  · cases hpressed rfl

theorem pairwise_ordered (a : Autoplay) : a.ordered.Pairwise fun a b => edgeLe a b = true :=
  List.pairwise_mergeSort edgeLe_trans edgeLe_total _

/-- Strokes in the order of their presses.  Each takes some time, and none begins at `-0`, which stands
before `0` in the total order. -/
structure Playable (strokes : List Stroke) : Prop where
  rising : strokes.Pairwise fun s t => s.down ≤ t.down
  lasting : ∀ s ∈ strokes, s.down < s.up
  signed : ∀ s ∈ strokes, s.down ≠ -0.0

/-- Edges of one kind that are in order stay so. -/
theorem filter_ordered_of_sorted (a : Autoplay) {p : Edge → Bool}
    (h : (a.edges.toList.filter p).Pairwise fun a b => edgeLe a b = true) :
    a.ordered.filter p = a.edges.toList.filter p := by
  have hsub : (a.edges.toList.filter p).Sublist a.ordered :=
    List.sublist_mergeSort edgeLe_trans edgeLe_total h List.filter_sublist
  have hfilter := hsub.filter p
  rw [List.filter_filter] at hfilter
  simp only [Bool.and_self] at hfilter
  exact (hfilter.eq_of_length
    ((List.mergeSort_perm a.edges.toList edgeLe).filter p).length_eq.symm).symm

theorem mem_ordered (h : a.edges.toList = strokes.flatMap Stroke.edges) {e : Edge} :
    e ∈ a.ordered ↔ ∃ s ∈ strokes, e = s.press ∨ e = s.release := by
  have hmem : e ∈ a.ordered ↔ e ∈ a.edges.toList := List.mem_mergeSort
  rw [hmem, h, List.mem_flatMap]
  simp [Stroke.edges]

/-- Edges that follow a script of which the strokes `past` are begun and the strokes `coming` are not.
When a key goes down, its earlier strokes are over, and when it comes up, all are. -/
inductive Follows : List Stroke → List Stroke → List Edge → Prop where
  | done (past : List Stroke) : Follows past [] []
  | press {past coming : List Stroke} {s : Stroke} {edges : List Edge}
      (free : ∀ t ∈ past, t.key = s.key → t.up ≤ s.down)
      (next : ∀ t ∈ coming, s.down ≤ t.down)
      (h : Follows (past ++ [s]) coming edges) : Follows past (s :: coming) (s.press :: edges)
  | release {past coming : List Stroke} {e : Edge} {edges : List Edge} (hup : e.pressed = false)
      (ended : ∀ t ∈ past, t.key = e.key → t.up ≤ e.time)
      (h : Follows past coming edges) : Follows past coming (e :: edges)

/-- Edges in playing order that are still to come, when the strokes `past` are begun. -/
structure Remains (past coming : List Stroke) (keyboard : Keyboard) (edges : List Edge) : Prop where
  apart : (past ++ coming).Pairwise Stroke.Apart
  playable : Playable (past ++ coming)
  sorted : edges.Pairwise fun a b => edgeLe a b = true
  presses : edges.filter Edge.pressed = coming.map Stroke.press
  releases : ∀ e ∈ edges, e.pressed = false → ∃ s ∈ past ++ coming, e = s.release
  begun : ∀ s ∈ past, ∀ e ∈ edges, edgeLe s.press e = true
  opened : ∀ s ∈ coming, s.release ∈ edges
  once : keyboard.held.Nodup
  down : ∀ k, keyboard.isDown k = true → ∃ s ∈ past, s.key = k ∧ s.release ∈ edges

section Remains

variable {past coming : List Stroke} {keyboard : Keyboard} {e : Edge} {edges : List Edge}

/-- The key of the next press is up. -/
theorem Remains.free {s : Stroke} (h : Remains past (s :: coming) keyboard (s.press :: edges)) :
    (∀ t ∈ past, t.key = s.key → t.up ≤ s.down) ∧ keyboard.isDown s.key = false := by
  have hmem : s ∈ past ++ s :: coming := by simp
  have hfree : ∀ t ∈ past, t.key = s.key → t.up ≤ s.down := fun t ht hkey =>
    (List.pairwise_append.mp h.apart).2.2 t ht s List.mem_cons_self hkey
  refine ⟨hfree, Bool.eq_false_iff.mpr fun hdown => ?_⟩
  obtain ⟨t, ht, hkey, hrelease⟩ := h.down s.key hdown
  -- The release of an earlier stroke would come after this press.
  rcases List.mem_cons.mp hrelease with heq | hlater
  · cases congrArg Edge.pressed heq
  · have hlt := lt_of_edgeLe (s := s) (t := t) ((List.pairwise_cons.mp h.sorted).1 _ hlater)
    have hle := orderKey_le_of_le (hfree t ht hkey) (h.playable.signed s hmem)
    omega

/-- When a key comes up, the strokes of it that are begun are over. -/
theorem Remains.ended (h : Remains past coming keyboard (e :: edges)) (hup : e.pressed = false) :
    ∀ s ∈ past, s.key = e.key → s.up ≤ e.time := by
  intro s hs hkey
  obtain ⟨t, ht, rfl⟩ := h.releases e List.mem_cons_self hup
  have hlt := lt_of_edgeLe (h.begun s hs _ List.mem_cons_self)
  obtain ⟨htd, htu, hlast⟩ := (lt_iff _ _).mp (h.playable.lasting t ht)
  have hlasting : t.down ≤ t.up := (le_iff _ _).mpr ⟨htd, htu, hlast.le⟩
  rcases Stroke.apart_or_apart h.apart (List.mem_append_left _ hs) ht with rfl | hapart | hapart
  · exact le_self htu
  · exact le_of_le_of_le (hapart hkey) hlasting
  · -- A stroke that ended before this one began is not released later.
    have hle := orderKey_le_of_le (hapart hkey.symm)
      (h.playable.signed s (List.mem_append_left _ hs))
    omega

theorem Remains.afterPress {s : Stroke} (h : Remains past (s :: coming) keyboard (s.press :: edges)) :
    Remains (past ++ [s]) coming (keyboard.apply s.press) edges := by
  have hassoc : past ++ [s] ++ coming = past ++ s :: coming := by simp
  obtain ⟨hfirst, hsorted⟩ := List.pairwise_cons.mp h.sorted
  have hlater : ∀ t : Stroke, t.release ∈ s.press :: edges → t.release ∈ edges := fun t ht =>
    (List.mem_cons.mp ht).resolve_left fun heq => by cases congrArg Edge.pressed heq
  refine
    { apart := hassoc ▸ h.apart
      playable := hassoc ▸ h.playable
      sorted := hsorted
      presses := ?_
      releases := fun e he => hassoc ▸ h.releases e (List.mem_cons_of_mem _ he)
      begun := fun t ht e he => ?_
      opened := fun t ht => hlater t (h.opened t (List.mem_cons_of_mem _ ht))
      once := Keyboard.nodup_apply h.once _
      down := fun k hk => ?_ }
  · have hpresses := h.presses
    rw [List.filter_cons_of_pos (by rfl), List.map_cons] at hpresses
    exact (List.cons.inj hpresses).2
  · rcases List.mem_append.mp ht with ht | ht
    · exact h.begun t ht e (List.mem_cons_of_mem _ he)
    · rw [List.mem_singleton.mp ht]
      exact hfirst e he
  · rw [Keyboard.isDown_apply h.once] at hk
    split_ifs at hk with hkey
    · exact ⟨s, by simp, hkey.symm, hlater s (h.opened s List.mem_cons_self)⟩
    · obtain ⟨t, ht, htk, hrelease⟩ := h.down k hk
      exact ⟨t, List.mem_append_left _ ht, htk, hlater t hrelease⟩

theorem Remains.afterRelease (h : Remains past coming keyboard (e :: edges))
    (hup : e.pressed = false) : Remains past coming (keyboard.apply e) edges := by
  obtain ⟨hfirst, hsorted⟩ := List.pairwise_cons.mp h.sorted
  refine
    { apart := h.apart
      playable := h.playable
      sorted := hsorted
      presses := ?_
      releases := fun e he => h.releases e (List.mem_cons_of_mem _ he)
      begun := fun t ht e he => h.begun t ht e (List.mem_cons_of_mem _ he)
      opened := fun t ht => ?_
      once := Keyboard.nodup_apply h.once _
      down := fun k hk => ?_ }
  · have hpresses := h.presses
    rwa [List.filter_cons_of_neg (by simp [hup])] at hpresses
  · -- The release of a stroke that is not begun comes after its press.
    refine (List.mem_cons.mp (h.opened t ht)).resolve_left fun heq => ?_
    subst heq
    have hmem : t.press ∈ edges := by
      have hpress : t.press ∈ (t.release :: edges).filter Edge.pressed :=
        h.presses ▸ List.mem_map_of_mem ht
      rw [List.filter_cons_of_neg (by simp)] at hpress
      exact (List.mem_filter.mp hpress).1
    have hlt := orderKey_lt_of_lt (h.playable.lasting t (List.mem_append_right _ ht))
    rcases edgeLe_iff.mp (hfirst _ hmem) with hle | ⟨hle, -⟩
    · exact absurd hlt (not_lt.mpr hle.le)
    · exact absurd hlt (not_lt.mpr hle.le)
  · rw [Keyboard.isDown_apply h.once] at hk
    split_ifs at hk with hkey
    · rw [hup] at hk
      cases hk
    · obtain ⟨t, ht, htk, hrelease⟩ := h.down k hk
      refine ⟨t, ht, htk, (List.mem_cons.mp hrelease).resolve_left fun heq => hkey ?_⟩
      rw [← htk, ← heq]
      rfl

/-- A keyboard accepts every press, so that the accepted edges follow the strokes. -/
theorem Remains.follows {keymap : Keymap} (h : Remains past coming keyboard edges)
    (hkeys : ∀ s ∈ past ++ coming, keymap.isJudge s.key = true) :
    Follows past coming (Playback.accepted keymap keyboard edges) := by
  induction edges generalizing past coming keyboard with
  | nil =>
      obtain rfl := List.map_eq_nil_iff.mp h.presses.symm
      exact .done past
  | cons e edges ih =>
      by_cases hpressed : e.pressed = true
      · have hpresses := h.presses
        rw [List.filter_cons_of_pos (by simpa using hpressed)] at hpresses
        cases coming with
        | nil => cases hpresses
        | cons s coming =>
            obtain rfl : e = s.press := (List.cons.inj hpresses).1
            obtain ⟨hfree, hdown⟩ := h.free
            have haccept : keyboard.accepts s.press = true := by
              change (keyboard.isDown s.key != true) = true
              rw [hdown]
              rfl
            have hassoc : past ++ [s] ++ coming = past ++ s :: coming := by simp
            have hrising := (List.pairwise_append.mp h.playable.rising).2.1
            have hjudge : keymap.isJudge s.press.key = true := hkeys s (by simp)
            rw [Playback.accepted, haccept, hjudge, Bool.and_true, if_pos rfl]
            exact .press hfree (List.pairwise_cons.mp hrising).1 (ih h.afterPress (hassoc ▸ hkeys))
      · rw [Bool.not_eq_true] at hpressed
        have hrest := ih (h.afterRelease hpressed) hkeys
        rw [Playback.accepted]
        split_ifs
        · exact .release hpressed (h.ended hpressed) hrest
        · exact hrest

end Remains

end Autoplay

end RhythmChart
