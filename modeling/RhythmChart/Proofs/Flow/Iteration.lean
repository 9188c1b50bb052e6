import RhythmChart.Proofs.Flow.Answers

/-! # What a further pass does to the loops inside

A loop that repeats gives the next code to the loops directly inside its body.  Those further inside keep
the code that they have.

Main statements.

* `Traversal.settled`: a loop once the visits that end at a row are finished;
* `Traversal.exists_repeating`: the state after a departure that goes back;
* `Traversal.depart_advances`: what it does to every loop inside the one that repeats;
* `Traversal.deeper_loop_kept`: a loop two levels further inside does not go on to its next code. -/

namespace RhythmChart

namespace Loop

theorem finishVisit_idem (l : Loop) : l.finishVisit.finishVisit = l.finishVisit := by
  unfold finishVisit
  split_ifs <;> simp_all

/-- A visit that ends without using up the codes leaves the pointer where it is. -/
theorem pointer_finishVisit {l : Loop} (h : l.finishVisit.exhausted = false) :
    l.finishVisit.pointer = l.pointer := by
  unfold finishVisit at h ⊢
  split_ifs at h ⊢ <;> rfl

theorem pointer_finishPass {l : Loop} (h : l.finishPass.exhausted = false) :
    l.finishPass.pointer = l.pointer := by
  cases hrepeats : l.repeats with
  | true => rw [finishPass_of_repeats hrepeats]
  | false =>
      rw [finishPass_of_spent hrepeats] at h ⊢
      exact pointer_finishVisit h

/-- A loop with codes left goes on to the next one. -/
theorem advance_of_not_exhausted {l : Loop} (h : l.exhausted = false) :
    l.advance.pointer = l.pointer + 1 ∧ l.advance.visit = .idle ∧
      l.advance.exhausted = decide (l.codes.length ≤ l.pointer + 1) := by
  rw [advance, if_neg (Bool.eq_false_iff.mp h)]
  exact ⟨rfl, rfl, rfl⟩

end Loop

namespace Traversal

variable {t : Traversal} {i : Nat} {row : Int}

/-! ### Visits that end -/

/-- What is skipped when a row is left. -/
def skippersFrom (t : Traversal) (row : Int) : List Skipper :=
  (((t.rowIndex? row).bind fun i => (t.rowIndex? (row - 1)).bind (t.skipChain? i)).map
    SkipChain.skippers).getD []

theorem skippersFrom_eq (hL : t.layout.Laminar) (hi : t.rows[i]? = some row) : t.skippersFrom row =
    (((t.rowIndex? (row - 1)).bind (t.skipChain? i)).map SkipChain.skippers).getD [] := by
  rw [skippersFrom, rowIndex?_eq_some hL hi]
  rfl

theorem blocked_skippersFrom (hL : t.layout.Laminar) (hi : t.rows[i]? = some row) :
    t.Blocked i (t.skippersFrom row) := by
  rw [skippersFrom_eq hL hi]
  cases hchain : (t.rowIndex? (row - 1)).bind (t.skipChain? i) with
  | none => exact t.blocked_nil i
  | some chain =>
      obtain ⟨j, hj, hskip⟩ := Option.bind_eq_some_iff.mp hchain
      obtain ⟨rfl, -⟩ := eq_succ_of_rowIndex? hL hi hj
      exact (forward_chain hL (.inl rfl) hskip).1.blocked

/-- The loop at a place once the visits that end at a row are finished: that of a loop which is skipped from
there, and the pass of a running loop that is left there. -/
def settled (t : Traversal) (row : Int) (place : Nat) (l : Loop) : Loop :=
  if .loop place ∈ t.skippersFrom row then l.finishVisit
  else if t.isInside l.toConstruct row = true ∧ l.visit = .running then l.finishPass
  else l

theorem settled_codes (t : Traversal) (row : Int) (place : Nat) (l : Loop) :
    (t.settled row place l).codes = l.codes := by
  unfold settled
  split_ifs <;> simp

theorem settled_pointer {place : Nat} {l : Loop} (h : (t.settled row place l).exhausted = false) :
    (t.settled row place l).pointer = l.pointer := by
  unfold settled at h ⊢
  split_ifs at h ⊢
  · exact Loop.pointer_finishVisit h
  · exact Loop.pointer_finishPass h
  · rfl

theorem getElem?_finishSkipped_eq (skippers : List Skipper) (p : Nat) :
    (t.finishSkipped skippers).loops[p]? =
      (t.loops[p]?).map fun l => if .loop p ∈ skippers then l.finishVisit else l := by
  unfold finishSkipped
  induction skippers generalizing t with
  | nil => simp
  | cons s skippers ih =>
      rw [List.foldl_cons, ih]
      cases s with
      | conditional q => simp
      | loop q =>
          dsimp only
          rw [getElem?_modifyLoop, Option.map_map]
          refine congrArg (fun f => Option.map f _) (funext fun l => ?_)
          by_cases hq : q = p
          · subst hq
            simp [Loop.finishVisit_idem]
          · simp [hq, Ne.symm hq]

/-! ### The loop that repeats -/

/-- Loop `p` repeats when row `i` is left, after the loops at `before` have ended a pass without having one
left: they are the loops inside its body that hold the row. -/
structure Repeating (t : Traversal) (i : Nat) (before : List Nat) (p : Nat) (l : Loop) : Prop where
  loop : t.loops[p]? = some l
  running : l.visit = .running
  repeats : l.repeats = true
  covers : l.covers i = true
  inside : ∀ (q : Nat) (m : Loop), t.loops[q]? = some m →
    (q ∈ before ↔ m.covers i = true ∧ l.covers m.index = true)

theorem repeating_of_exits (hL : t.layout.Laminar) {landing : Option Nat} {before after : List Nat}
    {p : Nat} {l : Loop} (hexits : t.Exits i landing (before ++ p :: after))
    (hall : ∀ (q : Nat) (m : Loop), t.loops[q]? = some m → m.covers i = true →
      l.covers m.index = true → q ∈ before ++ p :: after)
    (hl : t.loops[p]? = some l) (hrunning : l.visit = .running) (hrepeats : l.repeats = true) :
    t.Repeating i before p l := by
  obtain ⟨l', hl', hcovers, -⟩ := hexits.holds p (List.mem_append_right _ List.mem_cons_self)
  obtain rfl := Option.some.inj (hl.symm.trans hl')
  have hls := mem_sites_of_loops (List.mem_of_getElem? hl)
  obtain ⟨-, hafter, hbefore⟩ := List.pairwise_append.mp hexits.inner
  refine ⟨hl, hrunning, hrepeats, hcovers, fun q m hm => ⟨fun hq => ?_, fun ⟨hi, hinside⟩ => ?_⟩⟩
  · obtain ⟨m', hm', hi, -⟩ := hexits.holds q (List.mem_append_left _ hq)
    obtain rfl := Option.some.inj (hm.symm.trans hm')
    exact ⟨hi, (hL.inside_of_covers hls (mem_sites_of_loops (List.mem_of_getElem? hm)) hcovers hi
      (hbefore q hq p List.mem_cons_self m l hm hl)).2⟩
  · obtain ⟨-, -, hlt, -⟩ := (hL.covers_iff hls).mp hinside
    refine (List.mem_append.mp (hall q m hm hi hinside)).resolve_right fun hq => ?_
    rcases List.mem_cons.mp hq with rfl | hq
    · obtain rfl := Option.some.inj (hl.symm.trans hm)
      exact lt_irrefl _ hlt
    · exact Nat.lt_asymm hlt ((List.pairwise_cons.mp hafter).1 q hq l m hl hm)

/-- Going back repeats a loop, if the loops inside it that hold the row are among those that may repeat. -/
theorem Parts.exists_repeating (hL : t.layout.Laminar) {places : List Nat} {landing : Option Nat}
    {onward ending : Reason} {r : Traversal × Navigation}
    (h : t.Parts row i places landing onward ending r) (hexits : t.Exits i landing places)
    (hall : ∀ p ∈ places, ∀ l, t.loops[p]? = some l → ∀ (q : Nat) (m : Loop), t.loops[q]? = some m →
      m.covers i = true → l.covers m.index = true → q ∈ places)
    (honward : onward ≠ .loopBack) (hending : ending ≠ .loopBack) (hback : r.2.reason = .loopBack) :
    ∃ before p l b, t.Repeating i before p l ∧ l.body = some b ∧
      r = ((t.closing (before ++ [p])).nextPass p, ⟨row, t.rows[b.first]?, .loopBack⟩) := by
  cases h with
  | on => exact absurd hback honward
  | off => exact absurd hback hending
  | @back before after p l b hplaces _ hl hrunning hrepeats hb =>
      have hinner := hall p (hplaces ▸ List.mem_append_right _ List.mem_cons_self) l hl
      rw [hplaces] at hexits hinner
      exact ⟨before, p, l, b, repeating_of_exits hL hexits hinner hl hrunning hrepeats, hb, rfl⟩

/-- The loops that a jump leaves, with a loop, all those inside it that hold the row. -/
theorem mem_exitedBy_of_inside (hL : t.layout.Laminar) {landing : Option Nat} {p : Nat}
    (hp : p ∈ exitedBy t.loops i landing) {l : Loop} (hl : t.loops[p]? = some l) {q : Nat} {m : Loop}
    (hm : t.loops[q]? = some m) (hi : m.covers i = true) (hinside : l.covers m.index = true) :
    q ∈ exitedBy t.loops i landing := by
  obtain ⟨l', hl', -, hout⟩ := mem_exitedBy_iff.mp hp
  obtain rfl := Option.some.inj (hl.symm.trans hl')
  refine mem_exitedBy_iff.mpr ⟨m, hm, hi, fun j hj => ?_⟩
  rw [← Bool.not_eq_true]
  intro hcovers
  have := hL.covers_of_inside (mem_sites_of_loops (List.mem_of_getElem? hl))
    (mem_sites_of_loops (List.mem_of_getElem? hm)) hinside hcovers
  rw [hout j hj] at this
  cases this

/-- The body of an inner loop ends no later than that of the outer one, which ends at the row. -/
theorem mem_endingAt_of_inside (hL : t.layout.Laminar) {p : Nat} (hp : p ∈ endingAt t.loops i) {l : Loop}
    (hl : t.loops[p]? = some l) {q : Nat} {m : Loop} (hm : t.loops[q]? = some m)
    (hi : m.covers i = true) (hinside : l.covers m.index = true) : q ∈ endingAt t.loops i := by
  obtain ⟨l', hl', hend⟩ := (mem_innermostFirst p).mp hp
  obtain rfl := Option.some.inj (hl.symm.trans hl')
  obtain ⟨c, hc, hlast⟩ := (Construct.endsAt_iff _ _).mp hend
  have hms := mem_sites_of_loops (List.mem_of_getElem? hm)
  have hls := mem_sites_of_loops (List.mem_of_getElem? hl)
  obtain ⟨hlt, hle⟩ := (hL.covers_body_iff hls hc).mp hinside
  obtain ⟨d, hd, hlt', hle'⟩ := (hL.covers_iff hms).mp hi
  have hlater := (hL.inside _ hls c hc _ hms d hd hlt hle).2
  exact (mem_innermostFirst q).mpr ⟨m, hm, (Construct.endsAt_iff _ _).mpr ⟨d, hd, by omega⟩⟩

/-- A departure that goes back repeats a loop. -/
theorem exists_repeating (hL : t.layout.Laminar) (hi : t.rows[i]? = some row)
    (h : (t.depart row).2.reason = .loopBack) :
    let s := t.finishSkipped (t.skippersFrom row)
    ∃ before p l b, s.Repeating i before p l ∧ l.body = some b ∧
      t.depart row = ((s.closing (before ++ [p])).nextPass p, ⟨row, t.rows[b.first]?, .loopBack⟩) := by
  rcases depart_ways hL hi with ⟨chain, hnext, hchain, heq⟩ | ⟨hchain, heq⟩
  · have hskippers : t.skippersFrom row = chain.skippers := by
      rw [skippersFrom_eq hL hi, hnext, Option.bind_some, hchain]
      rfl
    have hsL := (t.layout_finishSkipped chain.skippers).symm ▸ hL
    have hreason := (forward_chain hL (.inl rfl) hchain).2
    obtain ⟨hexits, hparts⟩ := parts_departSkipping hL row i chain
    rw [heq] at h ⊢
    rw [hskippers]
    have hback := hparts.exists_repeating hsL hexits
      (fun p hp l hl q m => mem_exitedBy_of_inside hsL hp hl) hreason hreason h
    rwa [rows_finishSkipped] at hback
  · have hskippers : t.skippersFrom row = [] := by
      rw [skippersFrom_eq hL hi, hchain]
      rfl
    obtain ⟨hexits, hparts⟩ := parts_departPlainly hL hi
    rw [heq] at h ⊢
    rw [hskippers]
    exact hparts.exists_repeating hL hexits (fun p hp l hl q m => mem_endingAt_of_inside hL hp hl)
      Reason.noConfusion Reason.noConfusion h

/-! ### The loops inside -/

/-- Loop `m` is in the body of loop `l`, and in that of no loop in between. -/
def DirectlyInside (t : Traversal) (l m : Loop) : Prop :=
  l.covers m.index = true ∧ ∀ k ∈ t.loops, k.covers m.index = true → l.covers k.index = false

theorem directlyInside_iff (hlinked : t.layout.Linked) {p : Nat} {l m : Loop} (hl : t.loops[p]? = some l)
    (hm : m ∈ t.loops) (hbody : m.body.isSome) : t.DirectlyInside l m ↔ m.parent = some p := by
  rw [hlinked _ (mem_layout_loops hm) hbody p]
  have haround : t.DirectlyInside l m ↔ t.layout.DirectlyAround l.toConstruct m.toConstruct := by
    refine and_congr_right fun _ => ⟨fun h k hk => ?_, fun h k hk => h _ (mem_layout_loops hk)⟩
    obtain ⟨k', hk', rfl⟩ := List.mem_map.mp hk
    exact h k' hk'
  rw [haround]
  constructor
  · exact fun h => ⟨_, getElem?_layout_loops hl, h⟩
  · rintro ⟨outer, houter, h⟩
    obtain rfl := Option.some.inj ((getElem?_layout_loops hl).symm.trans houter)
    exact h

/-- What a loop inside the one that repeats is afterwards. -/
theorem Repeating.getElem?_inside (hL : t.layout.Laminar) (hi : t.rows[i]? = some row)
    {before : List Nat} {p : Nat} {l : Loop}
    (h : (t.finishSkipped (t.skippersFrom row)).Repeating i before p l) {q : Nat} {m : Loop}
    (hm : t.loops[q]? = some m)
    (hinside : l.covers m.index = true) :
    (((t.finishSkipped (t.skippersFrom row)).closing (before ++ [p])).nextPass p).loops[q]? =
      some (if m.parent = some p then (t.settled row q m).advance else t.settled row q m) := by
  have hsL : (t.finishSkipped (t.skippersFrom row)).layout.Laminar :=
    (t.layout_finishSkipped _).symm ▸ hL
  have hskipped := (t.getElem?_finishSkipped_eq (t.skippersFrom row) q).trans (congrArg _ hm)
  rw [Option.map_some] at hskipped
  have hmem : q ∈ before ++ [p] ↔ m.covers i = true := by
    have hqp : q ≠ p := by
      rintro rfl
      obtain rfl := Option.some.inj (h.loop.symm.trans hskipped)
      obtain ⟨-, -, hlt, -⟩ := (hsL.covers_iff (mem_sites_of_loops (List.mem_of_getElem? h.loop))).mp hinside
      split_ifs at hlt <;> simp at hlt
    rw [List.mem_append, List.mem_singleton, or_iff_left hqp, h.inside q _ hskipped]
    split_ifs <;> simp [hinside]
  have hsettled : (if q ∈ before ++ [p] ∧ (if .loop q ∈ t.skippersFrom row then m.finishVisit
        else m).visit = .running then (if .loop q ∈ t.skippersFrom row then m.finishVisit
          else m).finishPass else if .loop q ∈ t.skippersFrom row then m.finishVisit else m) =
      t.settled row q m := by
    rw [settled, isInside_eq hL hi]
    simp only [hmem]
    by_cases hskip : .loop q ∈ t.skippersFrom row
    · -- A loop that is skipped is at the row, so that it does not hold it.
      obtain ⟨m', hm', hindex, -⟩ := blocked_skippersFrom hL hi q hskip
      obtain rfl := Option.some.inj (hm.symm.trans hm')
      have hnot : m.covers i = false :=
        hL.not_covers_of_le (mem_sites_of_loops (List.mem_of_getElem? hm)) (Nat.le_of_eq hindex.symm)
      simp [hskip, hnot]
    · simp [hskip]
  have hparent : (t.settled row q m).parent = m.parent := by
    unfold settled
    split_ifs <;> simp
  rw [getElem?_nextPass, getElem?_closing, hskipped, Option.map_some, hsettled, Option.map_some, hparent]

/-- The loop that repeats is not changed before it does. -/
theorem Repeating.getElem? (hL : t.layout.Laminar) (hi : t.rows[i]? = some row)
    {before : List Nat} {p : Nat} {l : Loop}
    (h : (t.finishSkipped (t.skippersFrom row)).Repeating i before p l) : t.loops[p]? = some l := by
  have hloop := h.loop
  rw [t.getElem?_finishSkipped_eq] at hloop
  obtain ⟨m, hm, hml⟩ := Option.map_eq_some_iff.mp hloop
  split_ifs at hml with hskip
  · obtain ⟨m', hm', hindex, -⟩ := blocked_skippersFrom hL hi p hskip
    obtain rfl := Option.some.inj (hm.symm.trans hm')
    have hcovers := h.covers
    rw [← hml, Loop.site_finishVisit, hL.not_covers_of_le
      (mem_sites_of_loops (List.mem_of_getElem? hm)) (Nat.le_of_eq hindex.symm)] at hcovers
    cases hcovers
  · exact hml ▸ hm

/-- Whenever leaving a row goes back, a running loop around the row that has passes left repeats.  Every loop
directly inside its body that has codes left, once the visits that end at the row are finished, goes on to
its next code and waits for its row; past its last code it is exhausted.  The loops further inside, and those
that have no code left, are only settled. -/
theorem depart_advances (notes : Array Note) (declared : List (Int × Nat))
    (metadata : List (String × String)) (diagnostics : List Diagnostic) :
    ∀ t, Reachable (Chart.ofParts notes declared metadata diagnostics) t →
      ∀ row, (t.depart row).2.reason = .loopBack →
      ∃ l ∈ t.loops, ∃ b, l.body = some b ∧ l.visit = .running ∧ 0 < l.passesLeft ∧
        t.isInside l.toConstruct row = true ∧ (t.depart row).2.target = t.rows[b.first]? ∧
        ∀ (q : Nat) (m : Loop), t.loops[q]? = some m → m.body.isSome → l.covers m.index = true →
          ∃ m', (t.depart row).1.loops[q]? = some m' ∧
            (t.DirectlyInside l m → (t.settled row q m).exhausted = false →
              m'.pointer = m.pointer + 1 ∧ m'.visit = .idle ∧
                m'.exhausted = decide (m.codes.length ≤ m.pointer + 1)) ∧
            (¬ t.DirectlyInside l m ∨ (t.settled row q m).exhausted = true →
              m' = t.settled row q m) := by
  intro t ht row hback
  have hL := ht.laminar
  cases hindex : t.rowIndex? row with
  | none =>
      unfold depart at hback
      rw [hindex] at hback
      cases hback
  | some i =>
      have hi := getElem?_of_rowIndex? hindex
      obtain ⟨before, p, l, b, hrepeating, hb, hdepart⟩ := exists_repeating hL hi hback
      have hl := hrepeating.getElem? hL hi
      refine ⟨l, List.mem_of_getElem? hl, b, hb, hrepeating.running, of_decide_eq_true hrepeating.repeats,
        (isInside_eq hL hi _).trans hrepeating.covers, by rw [hdepart], fun q m hm hbody hinside => ?_⟩
      have hdirectly := directlyInside_iff ht.linked hl (List.mem_of_getElem? hm) hbody
      refine ⟨_, (congrArg (fun d => d.1.loops[q]?) hdepart).trans
        (hrepeating.getElem?_inside hL hi hm hinside), fun hdirect hleft => ?_, fun hnot => ?_⟩
      · rw [if_pos (hdirectly.mp hdirect)]
        obtain ⟨hpointer, hvisit, hexhausted⟩ := Loop.advance_of_not_exhausted hleft
        rw [settled_pointer hleft, settled_codes] at hexhausted
        exact ⟨hpointer.trans (congrArg (· + 1) (settled_pointer hleft)), hvisit, hexhausted⟩
      · split_ifs with hparent
        · rw [Loop.advance, if_pos (hnot.resolve_left fun h => h (hdirectly.mpr hparent))]
        · rfl

/-- Three loops, each in the body of the one before: the outer one has two passes, the others read a code in
each pass of the one around them. -/
def threefoldNotes : Array Note :=
  let plain : Note := ⟨-1, 0.0, .tap, 1.0, 0, 0.0, [], [], [], [], 0⟩
  #[{ plain with loopCodes := [2] },
    { plain with row := -2, indent := 1, loopCodes := [1, 1] },
    { plain with row := -3, indent := 2, loopCodes := [1, 2] },
    { plain with row := -4, indent := 3 },
    { plain with row := -5, indent := 2 },
    { plain with row := -6, indent := 1 },
    { plain with row := -7 }]

/-- The walk through the chart, up to the visit of the row where the body of the outer loop ends. -/
def threefold : Traversal :=
  ((ofChart (Chart.ofParts threefoldNotes [] [] [])).walk 5 (-1)).1.arrive (-6)

theorem reachable_threefold : Reachable (Chart.ofParts threefoldNotes [] [] []) threefold :=
  (Reachable.start.walk 5 (-1)).arrive (-6)

/-- The outer loop repeats when the row is left, and the innermost one keeps its place. -/
theorem runs_threefold :
    (threefold.depart (-6)).2 = ⟨-6, some (-2), .loopBack⟩ ∧
      (threefold.loops.map fun l : Loop => (l.anchor, l.body)) =
        [(-1, some ⟨1, 5⟩), (-2, some ⟨2, 4⟩), (-3, some ⟨3, 3⟩)] ∧
      Option.map (fun m : Loop => (m.pointer, (threefold.settled (-6) 2 m).exhausted))
        threefold.loops[2]? = some (0, false) ∧
      Option.map (fun m : Loop => (m.pointer, m.visit)) (threefold.depart (-6)).1.loops[2]? =
        some (0, .finished) := by
  unfold threefold
  rw [Chart.ofParts_eq [-1, -2, -3, -4, -5, -6, -7] (by decide +kernel) (by decide)]
  decide +kernel

theorem depart_advances_threefold :
    let t := threefold
    (t.depart (-6)).2.reason = .loopBack ∧
      ∃ l ∈ t.loops, ∃ b, l.body = some b ∧ l.visit = .running ∧ 0 < l.passesLeft ∧
        t.isInside l.toConstruct (-6) = true ∧ (t.depart (-6)).2.target = t.rows[b.first]? ∧
        ∀ (q : Nat) (m : Loop), t.loops[q]? = some m → m.body.isSome → l.covers m.index = true →
          ∃ m', (t.depart (-6)).1.loops[q]? = some m' ∧
            (t.DirectlyInside l m → (t.settled (-6) q m).exhausted = false →
              m'.pointer = m.pointer + 1 ∧ m'.visit = .idle ∧
                m'.exhausted = decide (m.codes.length ≤ m.pointer + 1)) ∧
            (¬ t.DirectlyInside l m ∨ (t.settled (-6) q m).exhausted = true →
              m' = t.settled (-6) q m) := by
  have hback : (threefold.depart (-6)).2.reason = .loopBack := by rw [runs_threefold.1]
  exact ⟨hback, depart_advances threefoldNotes [] [] [] threefold reachable_threefold (-6) hback⟩

/-- When the outer loop repeats, the innermost one, which has a code left, does not go on to it. -/
theorem deeper_loop_kept :
    Reachable (Chart.ofParts threefoldNotes [] [] []) threefold ∧
      (threefold.depart (-6)).2 = ⟨-6, some (-2), .loopBack⟩ ∧
      (threefold.loops.map fun l => (l.anchor, l.body)) =
        [(-1, some ⟨1, 5⟩), (-2, some ⟨2, 4⟩), (-3, some ⟨3, 3⟩)] ∧
      ((threefold.loops[2]?).map fun m => (m.pointer, (threefold.settled (-6) 2 m).exhausted)) =
        some (0, false) ∧
      ((threefold.depart (-6)).1.loops[2]?).map (fun m => (m.pointer, m.visit)) =
        some (0, .finished) :=
  ⟨reachable_threefold, runs_threefold⟩

end Traversal

end RhythmChart
