import RhythmChart.Proofs.Binary64.Decimals
import RhythmChart.Proofs.Finishing
import RhythmChart.Proofs.Performance

/-! # Transitions of keys

A list of edges is one of real transitions when each key is pressed and released in turns, in the order of
time: then a keyboard accepts every edge, and no key stays down.  What autoplay makes is such a list as long
as every stroke takes some time.  A stroke that takes none spoils it: at equal times releases come before
presses, also before the press that they belong to.

Main statements.

* `Keyboard.acceptsAll_of_turns`: a keyboard accepts edges that are turns for each key;
* `Autoplay.transitions_of_lasting`: strokes that take some time are played as transitions;
* `Autoplay.not_turns_of_empty`: a stroke that takes no time is not;
* `Autoplay.transitions_ofText`: both, for the script of a chart that was read;
* `Autoplay.released_before_pressed`: a hold of length zero. -/

namespace RhythmChart

open Binary64

/-! ### Turns -/

/-- Edges of one key that change its state one after the other, from `down` on, and leave it up. -/
def Turns : Bool → List Edge → Prop
  | down, [] => down = false
  | down, e :: edges => e.pressed = !down ∧ Turns e.pressed edges

/-- Every edge changes the state of its key when the edges are applied in order. -/
def Keyboard.AcceptsAll : Keyboard → List Edge → Prop
  | _, [] => True
  | b, e :: edges => b.accepts e = true ∧ (b.apply e).AcceptsAll edges

/-- Edges that are real transitions of keys, beginning and ending with no key down. -/
structure Transitions (edges : List Edge) : Prop where
  turns : ∀ k, Turns false (edges.filter fun e => e.key = k)
  rising : ∀ k, (edges.filter fun e => e.key = k).Pairwise fun a b => a.time ≤ b.time
  accepted : Keyboard.atRest.AcceptsAll edges
  released : (edges.foldl Keyboard.apply .atRest).held = []

/-- A keyboard accepts edges that are turns for each key, and no key is down after them. -/
theorem Keyboard.acceptsAll_of_turns {b : Keyboard} {edges : List Edge} (hb : b.held.Nodup)
    (h : ∀ k, Turns (b.isDown k) (edges.filter fun e => e.key = k)) :
    b.AcceptsAll edges ∧ (edges.foldl apply b).held = [] := by
  induction edges generalizing b with
  | nil =>
      refine ⟨trivial, List.eq_nil_iff_forall_not_mem.mpr fun k hk => ?_⟩
      have hup : b.isDown k = false := h k
      exact Bool.noConfusion (hup.symm.trans (isDown_iff.mpr hk))
  | cons e edges ih =>
      have hfirst := h e.key
      rw [List.filter_cons_of_pos (by simp)] at hfirst
      have hrest : ∀ k, Turns ((b.apply e).isDown k) (edges.filter fun e => e.key = k) := by
        intro k
        rw [isDown_apply hb]
        split_ifs with hk
        · subst hk
          exact hfirst.2
        · have hother := h k
          rwa [List.filter_cons_of_neg (by simpa using Ne.symm hk)] at hother
      obtain ⟨haccepts, hreleased⟩ := ih (nodup_apply hb e) hrest
      refine ⟨⟨?_, haccepts⟩, hreleased⟩
      rw [accepts, hfirst.1]
      simp

/-- In turns there are, up to any point of their order, at least as many presses as releases. -/
theorem Turns.countP_le {r : Edge → Edge → Prop} {q : Edge → Bool}
    (hq : ∀ a b, r a b → q b = true → q a = true) {down : Bool} {edges : List Edge}
    (h : Turns down edges) (hsorted : edges.Pairwise r) :
    edges.countP (fun e => !e.pressed && q e) ≤ edges.countP (fun e => e.pressed && q e) + down.toNat := by
  induction edges generalizing down with
  | nil => simp
  | cons e edges ih =>
      obtain ⟨hlater, hsorted⟩ := List.pairwise_cons.mp hsorted
      obtain ⟨hpressed, hrest⟩ := h
      have hle := ih hrest hsorted
      rw [List.countP_cons, List.countP_cons]
      cases hqe : q e with
      | false =>
          -- Nothing that comes later is before the point.
          have hnone : edges.countP (fun e => !e.pressed && q e) = 0 := by
            refine List.countP_eq_zero.mpr fun x hx hqx => ?_
            rw [Bool.and_eq_true] at hqx
            rw [hq e x (hlater x hx) hqx.2] at hqe
            cases hqe
          simp [hnone]
      | true => cases down <;> simp_all

namespace Autoplay

variable {strokes : List Stroke} {a : Autoplay} {k : Key}

/-! ### The strokes of a key -/

/-- The edges of a key are those of its strokes. -/
theorem filter_edges (strokes : List Stroke) (k : Key) :
    (strokes.flatMap Stroke.edges).filter (fun e => e.key = k) =
      (strokes.filter fun s => s.key = k).flatMap Stroke.edges := by
  induction strokes with
  | nil => rfl
  | cons s strokes ih =>
      rw [List.flatMap_cons, List.filter_append, ih]
      by_cases hk : s.key = k <;> simp [Stroke.edges, hk]

theorem turns_edges (strokes : List Stroke) : Turns false (strokes.flatMap Stroke.edges) := by
  induction strokes with
  | nil => rfl
  | cons s strokes ih => exact ⟨rfl, rfl, ih⟩

theorem countP_edges (strokes : List Stroke) (q : Edge → Bool) :
    (strokes.flatMap Stroke.edges).countP q =
      (strokes.countP fun s => q s.press) + strokes.countP fun s => q s.release := by
  induction strokes with
  | nil => rfl
  | cons s strokes ih =>
      rw [List.flatMap_cons, List.countP_append, ih]
      simp only [Stroke.edges, List.countP_cons, List.countP_nil]
      omega

/-- How many edges of a key there are of some kind. -/
theorem countP_ordered (h : a.edges.toList = strokes.flatMap Stroke.edges) (k : Key) (q : Edge → Bool) :
    (a.ordered.filter fun e => e.key = k).countP q =
      ((strokes.filter fun s => s.key = k).countP fun s => q s.press) +
        (strokes.filter fun s => s.key = k).countP fun s => q s.release := by
  have hperm : a.ordered.Perm (strokes.flatMap Stroke.edges) := h ▸ List.mergeSort_perm _ _
  rw [(hperm.filter _).countP_eq, filter_edges, countP_edges]

/-! ### Strokes that take some time -/

/-- Strokes that follow each other in the total order keep their edges in playing order. -/
theorem pairwise_edges (hapart : strokes.Pairwise fun s t =>
      Number.orderKey s.up ≤ Number.orderKey t.down)
    (hlasting : ∀ s ∈ strokes, Number.orderKey s.down < Number.orderKey s.up) :
    (strokes.flatMap Stroke.edges).Pairwise fun a b => edgeLe a b = true := by
  refine List.pairwise_flatMap.mpr ⟨fun s hs => ?_, hapart.imp_of_mem fun {s t} hs ht hle => ?_⟩
  · have hle : edgeLe s.press s.release = true := edgeLe_iff.mpr (.inl (hlasting s hs))
    simpa [Stroke.edges] using hle
  · have hs := hlasting s hs
    have ht := hlasting t ht
    simp only [Stroke.edges, List.mem_cons, List.not_mem_nil, or_false, forall_eq_or_imp, forall_eq]
    simp only [edgeLe_iff, Stroke.press_time, Stroke.release_time, Stroke.press_pressed,
      Stroke.release_pressed, Bool.false_eq_true, false_implies, implies_true, and_true]
    omega

/-- Strokes that take some time are played as transitions, unless one begins at `-0` and another one
before that. -/
theorem transitions_of_lasting {keys : List Key} (h : Scripted keys strokes a)
    (hlasting : ∀ s ∈ strokes, s.down < s.up)
    (hsigned : (∀ s ∈ strokes, s.down ≠ -0.0) ∨ ∀ s ∈ strokes, 0.0 ≤ s.down) :
    Transitions a.ordered := by
  -- A stroke that follows another one does not begin at `-0`.
  have hfollows : ∀ s ∈ strokes, ∀ t ∈ strokes, s.up ≤ t.down →
      Number.orderKey s.up ≤ Number.orderKey t.down := by
    intro s hs t ht hle
    refine orderKey_le_of_le hle ?_
    rcases hsigned with hsigned | hsigned
    · exact hsigned t ht
    · have hpos := lt_of_le_of_lt (hsigned s hs) (lt_of_lt_of_le (hlasting s hs) hle)
      intro hzero
      rw [hzero] at hpos
      exact absurd hpos (by decide)
  have hfilter : ∀ k, a.ordered.filter (fun e => e.key = k) =
      (strokes.filter fun s => s.key = k).flatMap Stroke.edges := by
    intro k
    have hedges : a.edges.toList.filter (fun e => e.key = k) =
        (strokes.filter fun s => s.key = k).flatMap Stroke.edges := by rw [h.edges, filter_edges]
    rw [filter_ordered_of_sorted a, hedges]
    rw [hedges]
    refine pairwise_edges ?_ fun s hs => orderKey_lt_of_lt (hlasting s (List.mem_of_mem_filter hs))
    refine (h.apart.filter _).imp_of_mem fun {s t} hs ht hapart => ?_
    obtain ⟨hs, hsk⟩ := List.mem_filter.mp hs
    obtain ⟨ht, htk⟩ := List.mem_filter.mp ht
    exact hfollows s hs t ht (hapart (by simp_all))
  have hturns : ∀ k, Turns false (a.ordered.filter fun e => e.key = k) := fun k => by
    rw [hfilter]
    exact turns_edges _
  obtain ⟨haccepts, hreleased⟩ := @Keyboard.acceptsAll_of_turns .atRest a.ordered List.nodup_nil hturns
  refine ⟨hturns, fun k => ?_, haccepts, hreleased⟩
  have hnumber : ∀ e ∈ a.ordered, IsNumber e.time := by
    intro e he
    obtain ⟨s, hs, rfl | rfl⟩ := (mem_ordered h.edges).mp he
    · exact ((lt_iff _ _).mp (hlasting s hs)).1
    · exact ((lt_iff _ _).mp (hlasting s hs)).2.1
  refine ((pairwise_ordered a).filter _).imp_of_mem fun hx hy hle => ?_
  refine le_of_orderKey_le (hnumber _ (List.mem_of_mem_filter hx))
    (hnumber _ (List.mem_of_mem_filter hy)) ?_
  rcases edgeLe_iff.mp hle with hlt | ⟨heq, -⟩
  · exact hlt.le
  · exact heq.le

/-! ### Strokes that take no time -/

/-- Whether an edge is played before the press of a stroke. -/
def isBefore (s : Stroke) (e : Edge) : Bool :=
  decide (Number.orderKey e.time < Number.orderKey s.down ∨
    Number.orderKey e.time = Number.orderKey s.down ∧ e.pressed = false)

theorem isBefore_press {s t : Stroke} :
    isBefore s t.press = true ↔ Number.orderKey t.down < Number.orderKey s.down := by
  simp [isBefore]

theorem isBefore_release {s t : Stroke} :
    isBefore s t.release = true ↔ Number.orderKey t.up ≤ Number.orderKey s.down := by
  simp [isBefore, le_iff_lt_or_eq]

/-- What is played before something that is played before a press is so, too. -/
theorem isBefore_of_edgeLe {s : Stroke} {x y : Edge} (h : edgeLe x y = true)
    (hy : isBefore s y = true) : isBefore s x = true := by
  rw [edgeLe_iff] at h
  simp only [isBefore, decide_eq_true_eq] at hy ⊢
  rcases h with hlt | ⟨heq, hpressed⟩
  · omega
  · rw [heq]
    refine hy.imp_right fun ⟨hlevel, hup⟩ => ⟨hlevel, Bool.eq_false_iff.mpr fun hx => ?_⟩
    rw [hpressed hx] at hup
    cases hup

/-- Where a stroke takes no time, its release is played before its press: up to there, a key is released
once more than it was pressed. -/
theorem not_turns_of_empty {keys : List Key} (h : Scripted keys strokes a)
    (hforth : ∀ s ∈ strokes, s.down ≤ s.up)
    (hsigned : ∀ s ∈ strokes, s.down ≠ -0.0 ∧ s.up ≠ -0.0) {s : Stroke} (hs : s ∈ strokes)
    (hempty : ¬ s.down < s.up) : ¬ Turns false (a.ordered.filter fun e => e.key = s.key) := by
  intro hturns
  have hcount := hturns.countP_le (r := fun x y => edgeLe x y = true) (q := isBefore s)
    (fun _ _ => isBefore_of_edgeLe) ((pairwise_ordered a).filter _)
  simp only [countP_ordered h.edges, Stroke.press_pressed, Stroke.release_pressed, Bool.not_true,
    Bool.not_false, Bool.true_and, Bool.false_and, List.countP_false, Function.const_apply,
    Nat.zero_add, Nat.add_zero, Bool.toNat_false] at hcount
  generalize hks : (strokes.filter fun t => t.key = s.key) = ks at hcount
  -- A stroke of the key that is begun before is over before, and so is this one.
  have hover : ∀ t ∈ ks, isBefore s t.press = true → isBefore s t.release = true := by
    intro t ht hbegun
    obtain ⟨ht, hkey⟩ := List.mem_filter.mp (hks ▸ ht)
    obtain hkey : t.key = s.key := of_decide_eq_true hkey
    rw [isBefore_press] at hbegun
    rw [isBefore_release]
    rcases Stroke.apart_or_apart h.apart ht hs with rfl | hapart | hapart
    · exact absurd hbegun (lt_irrefl _)
    · exact orderKey_le_of_le (hapart hkey) (hsigned s hs).1
    · have hle := orderKey_le_of_le (hapart hkey.symm) (hsigned t ht).1
      have hlong := orderKey_le_of_le (hforth s hs) (hsigned s hs).2
      omega
  have hrelease : isBefore s s.release = true := by
    obtain ⟨hdown, hup, -⟩ := (le_iff _ _).mp (hforth s hs)
    exact isBefore_release.mpr (orderKey_le_of_le (le_of_not_lt hdown hup hempty) (hsigned s hs).1)
  have hpress : ¬ isBefore s s.press = true := fun hbefore => lt_irrefl _ (isBefore_press.mp hbefore)
  have hsk : s ∈ ks := hks ▸ List.mem_filter.mpr ⟨hs, decide_eq_true rfl⟩
  have hsame : ks.toArray.countP (fun t => isBefore s t.press) =
      ks.toArray.countP fun t => isBefore s t.release := by
    rw [List.countP_toArray, List.countP_toArray]
    exact le_antisymm (List.countP_mono_left hover) hcount
  have hall := (countP_eq_countP_iff fun t ht => hover t (List.mem_toArray.mp ht)).mp hsame
  exact hpress (hall s (List.mem_toArray.mpr hsk) hrelease)

/-! ### The script of a chart -/

/-- A press of a note begins when the note is due or some time later, and does not end before it begins. -/
theorem presses_spec {n : Note} {speed time : Float} {times : Float × Float} (hlength : 0.0 ≤ n.length)
    (hspeed : 0.0 < speed) (hfinite : speed.isFinite = true) (h : times ∈ n.presses speed time) :
    (times.1 = time ∨ ∃ delay, 0.0 ≤ delay ∧ times.1 = time + delay) ∧
      ∃ length, 0.0 ≤ length ∧ times.2 = times.1 + length := by
  unfold Note.presses at h
  split_ifs at h
  · obtain rfl := List.mem_singleton.mp h
    exact ⟨.inl rfl, _, div_nonneg hlength hspeed hfinite, rfl⟩
  · obtain ⟨i, -, rfl⟩ := List.mem_map.mp h
    have hdelay : 0.0 ≤ layerSeconds * i.toFloat :=
      Binary64.mul_nonneg (by decide) (by decide) (zero_le_toFloat i)
    exact ⟨.inr ⟨_, hdelay, rfl⟩, tapSeconds, by decide, rfl⟩
  · obtain rfl := List.mem_singleton.mp h
    exact ⟨.inl rfl, tapSeconds, by decide, rfl⟩
  · cases h

/-- A stroke of a chart that was read begins when a live note is due or some time later, and does not end
before it begins. -/
theorem strokes_ofText (text : String) {speed start : Float} {keymap : Keymap} {s : Stroke}
    (hs : s ∈ strokesOf (.ofText text) speed start keymap) :
    let p := Planner.ofChart (.ofText text) (usableSpeed speed) start
    (∃ n ∈ stampsOf (.ofText text) p.speed (p.rest (.ofText text)),
      s.down = n.trigger ∨ ∃ delay, 0.0 ≤ delay ∧ s.down = n.trigger + delay) ∧
        ∃ length, 0.0 ≤ length ∧ s.up = s.down + length := by
  intro p
  obtain ⟨hpos, hfinite⟩ := usableSpeed_spec speed
  have hlengths : ∀ n ∈ (Chart.ofText text).notes, 0.0 ≤ n.length :=
    Chart.forall_notes_ofText (fun _ _ _ _ _ _ hlength => hlength) text
  have hspeed : p.speed = usableSpeed speed := Playback.usableSpeed_usableSpeed speed
  have h : s.times ∈ presses (.ofText text) speed start := Rotation.times_mem_of_strokes hs
  rw [presses, Planner.visits_ofChart, pressesOf_eq] at h
  obtain ⟨n, hn, h⟩ := List.mem_flatMap.mp h
  rw [LiveNote.presses] at h
  cases hnote : (Chart.ofText text).notes[n.note]? with
  | none =>
      rw [hnote] at h
      cases h
  | some note =>
      rw [hnote] at h
      obtain ⟨hdown, hup⟩ := presses_spec (hlengths note (Array.mem_of_getElem? hnote)) hpos hfinite h
      exact ⟨⟨n, by rwa [hspeed], hdown⟩, hup⟩

/-- A script that does not begin at `-0` has no stroke that begins or ends there. -/
theorem signed_strokes (text : String) {speed start : Float} {keymap : Keymap} (hstart : start ≠ -0.0) :
    ∀ s ∈ strokesOf (.ofText text) speed start keymap, s.down ≠ -0.0 ∧ s.up ≠ -0.0 := by
  intro s hs
  obtain ⟨⟨n, hn, hdown⟩, length, -, hup⟩ := strokes_ofText text hs
  have htrigger : n.trigger ≠ -0.0 := trigger_ne_negativeZero hstart n hn
  have hsigned : s.down ≠ -0.0 := by
    rcases hdown with hdown | ⟨delay, -, hdown⟩
    · exact hdown ▸ htrigger
    · exact hdown ▸ add_ne_negativeZero htrigger delay
  exact ⟨hsigned, hup ▸ add_ne_negativeZero hsigned length⟩

/-- A script that begins at zero or later has no stroke before. -/
theorem nonneg_strokes (text : String) {speed start : Float} {keymap : Keymap} (hstart : 0.0 ≤ start)
    (hfinite : start.isFinite = true) :
    ∀ s ∈ strokesOf (.ofText text) speed start keymap, 0.0 ≤ s.down := by
  intro s hs
  obtain ⟨⟨n, hn, hdown⟩, -⟩ := strokes_ofText text hs
  have htimed := Planner.timed_ofChart (.ofText text) (usableSpeed speed) hfinite
  have htrigger : 0.0 ≤ n.trigger :=
    le_of_le_of_le hstart ((Planner.rising_stamps (Chart.laid_ofText text) htimed).2 n hn).2
  rcases hdown with hdown | ⟨delay, hdelay, hdown⟩
  · exact hdown ▸ htrigger
  · have hnumber := ((zero_le_iff _).mp htrigger).1
    exact hdown ▸ le_of_le_of_le htrigger
      (le_add_of_nonneg hnumber (not_bot_of_zero_le htrigger) hdelay)

/-- The script of a chart that was read is one of real transitions if every stroke takes some time.  The
converse holds too where the times of edges are finite and the first row does not begin at `-0`. -/
theorem transitions_ofText (text : String) (speed start : Float) (keymap : Keymap)
    (hkeys : keymap.judge.Nodup) :
    let a := ofChart (.ofText text) speed start keymap
    let strokes := strokesOf (.ofText text) speed start keymap
    a.edges.toList = strokes.flatMap Stroke.edges ∧
      ((∀ s ∈ strokes, s.down < s.up) → Transitions a.ordered) ∧
      (start ≠ -0.0 → (∀ e ∈ a.ordered, e.time.isFinite = true) → Transitions a.ordered →
        ∀ s ∈ strokes, s.down < s.up) := by
  intro a strokes
  have hedges : a.edges.toList = strokes.flatMap Stroke.edges := edges_ofChart _ _ _ _
  refine ⟨hedges, fun hlasting => ?_, fun hstart hfinite htransitions s hs => ?_⟩
  · refine transitions_of_lasting (scripted_ofChart hkeys fun s hs => le_of_lt (hlasting s hs))
      hlasting ?_
    by_cases hzero : start = -0.0
    · subst hzero
      exact .inr (nonneg_strokes text (by decide) (by decide))
    · exact .inl fun s hs => (signed_strokes text hzero s hs).1
  · have hforth : ∀ s ∈ strokes, s.down ≤ s.up := by
      intro s hs
      obtain ⟨-, length, hlength, hup⟩ := strokes_ofText text hs
      have hnumber : IsNumber s.up :=
        isNumber_of_isFinite (hfinite s.release ((mem_ordered hedges).mpr ⟨s, hs, .inr rfl⟩))
      rw [hup] at hnumber ⊢
      exact le_add_of_isNumber hnumber hlength
    by_contra hempty
    exact not_turns_of_empty (scripted_ofChart hkeys hforth) hforth (signed_strokes text hstart) hs
      hempty (htransitions.turns s.key)

/-- The three taps of a loop that is played twice. -/
theorem transitions_loopText :
    let a := ofChart (.ofText Playhead.loopText) 4.0 0.0 Keymap.standard
    let strokes := strokesOf (.ofText Playhead.loopText) 4.0 0.0 Keymap.standard
    strokes.length = 3 ∧ (∀ s ∈ strokes, s.down < s.up) ∧ Transitions a.ordered := by
  have hlasting : ∀ s ∈ strokesOf (.ofText Playhead.loopText) 4.0 0.0 Keymap.standard,
      s.down < s.up := by
    rw [Playhead.ofText_loopText]
    decide +kernel
  have htransitions := transitions_ofText Playhead.loopText 4.0 0.0 Keymap.standard (by decide)
  refine ⟨?_, hlasting, htransitions.2.1 hlasting⟩
  rw [Playhead.ofText_loopText]
  decide +kernel

/-- A hold of length zero. -/
def emptyHoldText : String := "# Main\n-1:\n0:[0;h]\n"

/-- What is read of it. -/
def emptyHoldScan : Scan := Scan.start.lines ((Text.lines emptyHoldText.toList).zipIdx 1)

theorem ofText_emptyHoldText :
    Chart.ofText emptyHoldText =
      { notes := emptyHoldScan.notes
        rows := #[⟨-1, 0, 0.0, [0]⟩]
        metadata := emptyHoldScan.metadata.toList
        diagnostics := emptyHoldScan.diagnostics.toList } := by
  have hrow : Row.ofMembers emptyHoldScan.closeRow.declared emptyHoldScan.notes.toList.zipIdx (-1) =
      ⟨-1, 0, 0.0, [0]⟩ := by
    rw [Row.ofMembers,
      Row.members_of_pairwise emptyHoldScan.notes.toList.zipIdx (by rfl) (by decide +kernel)]
    rfl
  rw [← hrow]
  exact Chart.ofParts_eq [-1] (by decide +kernel) (by decide) _ _

theorem ordered_emptyHoldText :
    (ofChart (.ofText emptyHoldText) 4.0 0.0 Keymap.standard).ordered =
      [.up ⟨'d'⟩ 0.0, .down ⟨'d'⟩ 0.0] := by
  refine ordered_eq ?_ (by decide +kernel)
  rw [ofText_emptyHoldText]
  decide +kernel

/-- The key of a hold of length zero is released before it is pressed, and it stays down. -/
theorem released_before_pressed :
    let edges := (ofChart (.ofText emptyHoldText) 4.0 0.0 Keymap.standard).ordered
    (∀ e ∈ edges, e.time.isFinite = true) ∧ ¬ Transitions edges ∧
      (edges.foldl Keyboard.apply .atRest).isDown ⟨'d'⟩ = true := by
  dsimp only
  rw [ordered_emptyHoldText]
  refine ⟨by decide +kernel, fun h => ?_, by decide⟩
  cases (h.turns ⟨'d'⟩).1

end Autoplay

end RhythmChart
