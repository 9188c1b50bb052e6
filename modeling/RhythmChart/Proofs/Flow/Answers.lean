import RhythmChart.Proofs.Flow.Ending

/-! # What leaving a row answers

A departure changes loops while it decides where to go.  What it answers can be read off the state before
it all the same: the loops that it changes on the way are not those that decide.

Main statements.

* `Traversal.Reachable`: the states that visiting and leaving rows in any order leads to;
* `Traversal.Catches`: a loop that repeats when a jump leaves its body;
* `Traversal.departSkipping_cases`: a jump goes through, or the innermost loop that catches it repeats;
* `Traversal.departPlainly_eq`: without a jump, the loop that would be repeated is;
* `Traversal.depart_answers`: the answer of a departure in any reachable state. -/

namespace RhythmChart

namespace Traversal

variable {t : Traversal} {i j : Nat} {row next : Int}

/-! ### Reachable states -/

/-- The states that the traversal of a chart comes to when rows are visited and left in any order. -/
inductive Reachable (c : Chart) : Traversal → Prop where
  | start : Reachable c (ofChart c)
  | arrive {t : Traversal} (h : Reachable c t) (row : Int) : Reachable c (t.arrive row)
  | depart {t : Traversal} (h : Reachable c t) (row : Int) : Reachable c (t.depart row).1

theorem layout_depart (hL : t.layout.Laminar) (row : Int) : (t.depart row).1.layout = t.layout := by
  cases hrow : t.rowIndex? row with
  | none =>
      unfold depart
      rw [hrow]
  | some i => exact (leaves_depart hL (getElem?_of_rowIndex? hrow)).layout

theorem Reachable.layout {c : Chart} (hL : (ofChart c).layout.Laminar) (h : Reachable c t) :
    t.layout = (ofChart c).layout := by
  induction h with
  | start => rfl
  | arrive _ row ih => exact (layout_arrive _ row).trans ih
  | depart _ row ih => exact (layout_depart (ih.symm ▸ hL) row).trans ih

/-- No two bodies cross in a reachable state of a chart. -/
theorem Reachable.laminar {notes : Array Note} {declared : List (Int × Nat)}
    {metadata : List (String × String)} {diagnostics : List Diagnostic}
    (h : Reachable (Chart.ofParts notes declared metadata diagnostics) t) : t.layout.Laminar := by
  have hL := laminar_ofChart (Chart.indented_ofParts notes declared metadata diagnostics)
    (Chart.falling_ofParts notes declared metadata diagnostics)
  exact (h.layout hL).symm ▸ hL

/-- The loops of a reachable state know the loops directly around them. -/
theorem Reachable.linked {notes : Array Note} {declared : List (Int × Nat)}
    {metadata : List (String × String)} {diagnostics : List Diagnostic}
    (h : Reachable (Chart.ofParts notes declared metadata diagnostics) t) : t.layout.Linked := by
  have hL := laminar_ofChart (Chart.indented_ofParts notes declared metadata diagnostics)
    (Chart.falling_ofParts notes declared metadata diagnostics)
  exact (h.layout hL).symm ▸ linked_ofChart hL

/-- A walk comes to reachable states only. -/
theorem Reachable.walk {c : Chart} (h : Reachable c t) (steps : Nat) (row : Int) :
    Reachable c (t.walk steps row).1 := by
  induction steps generalizing t row with
  | zero => exact h
  | succ steps ih =>
      rw [Traversal.walk]
      cases hnext : (t.visit row).2.target with
      | none =>
          dsimp only
          rw [hnext]
          exact (h.arrive row).depart row
      | some next =>
          dsimp only
          rw [hnext]
          exact ih ((h.arrive row).depart row) next

/-! ### Jumps -/

/-- A loop that repeats when a jump leads from a row of its body to `landing`, or off the chart: it runs,
has passes left, and does not hold the row where the jump lands. -/
def Catches (t : Traversal) (row : Int) (landing : Option Int) (l : Loop) : Prop :=
  l.visit = .running ∧ 0 < l.passesLeft ∧ t.isInside l.toConstruct row = true ∧
    ∀ place ∈ landing, t.isInside l.toConstruct place = false

/-- The innermost of the loops with a property: its body lies in the bodies of all of them. -/
structure Innermost (t : Traversal) (p : Loop → Prop) (l : Loop) : Prop where
  mem : l ∈ t.loops
  holds : p l
  inside : ∀ m ∈ t.loops, p m → ∀ i, l.covers i = true → m.covers i = true

/-- Whether the body of a conditional that is not taken holds `next` but not `row`. -/
def isUntaken (t : Traversal) (row next : Int) : Bool :=
  t.conditionals.any fun b =>
    b.decision == .skip && t.isInside b.toConstruct next && !t.isInside b.toConstruct row

theorem isUntaken_eq (hL : t.layout.Laminar) (hi : t.rows[i]? = some row)
    (hj : t.rows[j]? = some next) :
    t.isUntaken row next = (innermostSkipping? t.conditionals i j).isSome := by
  have hany : t.isUntaken row next = t.conditionals.any fun b => b.skips j && !b.covers i := by
    unfold isUntaken Conditional.skips
    simp only [isInside_eq hL hi, isInside_eq hL hj]
  rw [hany]
  cases hinner : innermostSkipping? t.conditionals i j with
  | none => exact List.any_eq_false.mpr fun b hb =>
      Bool.eq_false_iff.mp (innermost?_eq_none_iff.mp hinner b hb)
  | some found =>
      obtain ⟨hb, htest, -⟩ := innermost?_some hinner
      exact List.any_eq_true.mpr ⟨_, List.mem_of_getElem? hb, htest⟩

/-- A chain of skips begins with a conditional if there is one that skips, else with a loop. -/
theorem reason_skipChain? {chain : SkipChain} (h : t.skipChain? i j = some chain) :
    chain.reason =
      if (innermostSkipping? t.conditionals i j).isSome then .branchSkip else .loopSkip := by
  unfold skipChain? skipper? at h
  obtain ⟨⟨s, place⟩, hs, rfl⟩ := Option.map_eq_some_iff.mp h
  cases hinner : innermostSkipping? t.conditionals i j with
  | some found =>
      rw [hinner] at hs
      obtain ⟨rfl, -⟩ := Prod.mk.inj (Option.some.inj hs)
      rfl
  | none =>
      rw [hinner] at hs
      dsimp only at hs
      split at hs
      next p l hloop =>
        obtain ⟨b, -, hsame⟩ := Option.map_eq_some_iff.mp hs
        obtain ⟨rfl, -⟩ := Prod.mk.inj hsame
        rfl
      next => cases hs

/-- The loops that catch a jump are among those whose body it leaves. -/
theorem catches_iff (hL : t.layout.Laminar) (hi : t.rows[i]? = some row) {landing : Option Nat}
    (hland : ∀ j, landing = some j → j < t.rows.size) (l : Loop) :
    t.Catches row (landing.bind fun j => t.rows[j]?) l ↔
      l.visit = .running ∧ l.repeats = true ∧ l.covers i = true ∧
        ∀ j, landing = some j → l.covers j = false := by
  have hplaces : (∀ place ∈ landing.bind fun j => t.rows[j]?, t.isInside l.toConstruct place = false) ↔
      ∀ j, landing = some j → l.covers j = false := by
    cases landing with
    | none => simp
    | some j =>
        have hj := Array.getElem?_eq_getElem (hland j rfl)
        rw [Option.bind_some, hj]
        simp only [Option.mem_def, Option.some.injEq, forall_eq']
        rw [isInside_eq hL hj]
  rw [Catches, isInside_eq hL hi, hplaces, Loop.repeats, decide_eq_true_iff]

/-- A loop that catches a jump is among those that the jump leaves, and skipping does not change it: it is
around the row, not at it. -/
theorem Catches.mem_exitedBy (hL : t.layout.Laminar) (hi : t.rows[i]? = some row)
    {skippers : List Skipper} {landing : Option Nat} (hforward : t.Forward i skippers landing) {l : Loop}
    (hl : l ∈ t.loops) (h : t.Catches row (landing.bind fun j => t.rows[j]?) l) :
    ∃ p, t.loops[p]? = some l ∧ (t.finishSkipped skippers).loops[p]? = some l ∧
      p ∈ exitedBy (t.finishSkipped skippers).loops i landing := by
  obtain ⟨-, -, hcovers, hout⟩ := (catches_iff hL hi hforward.inRange l).mp h
  obtain ⟨-, -, hlt, -⟩ := (hL.covers_iff (mem_sites_of_loops hl)).mp hcovers
  obtain ⟨p, hp⟩ := List.getElem?_of_mem hl
  have hskipped := hforward.getElem?_finishSkipped hp (Nat.ne_of_lt hlt)
  exact ⟨p, hp, hskipped, mem_exitedBy_iff.mpr ⟨l, hskipped, hcovers, hout⟩⟩

/-- A jump goes through unless a loop catches it; then the innermost of these loops repeats. -/
theorem departSkipping_cases (hL : t.layout.Laminar) (hi : t.rows[i]? = some row) {chain : SkipChain}
    (h : t.skipChain? i (i + 1) = some chain) :
    (∃ l b, t.Innermost (t.Catches row (chain.landing.bind fun j => t.rows[j]?)) l ∧
        l.body = some b ∧ (t.departSkipping row i chain).2 = ⟨row, t.rows[b.first]?, .loopBack⟩) ∨
      ((∀ l ∈ t.loops, ¬ t.Catches row (chain.landing.bind fun j => t.rows[j]?) l) ∧
        (t.departSkipping row i chain).2 =
          ⟨row, chain.landing.bind fun j => t.rows[j]?, chain.reason⟩) := by
  obtain ⟨hforward, -⟩ := forward_chain hL (.inl rfl) h
  have hrows := t.rows_finishSkipped chain.skippers
  have hcatches := catches_iff hL hi hforward.inRange
  obtain ⟨hexits, hparts⟩ := parts_departSkipping hL row i chain
  -- A loop that catches the jump would repeat, if it came to its turn.
  have hfree : (t.finishSkipped chain.skippers).Spent
      (exitedBy (t.finishSkipped chain.skippers).loops i chain.landing) →
      ∀ l ∈ t.loops, ¬ t.Catches row (chain.landing.bind fun j => t.rows[j]?) l := by
    intro hspent l hl hcatch
    obtain ⟨p, -, hp, hmem⟩ := hcatch.mem_exitedBy hL hi hforward hl
    obtain ⟨hrunning, hrepeats, -⟩ := (hcatches l).mp hcatch
    rw [hspent p hmem l hp hrunning] at hrepeats
    cases hrepeats
  generalize t.departSkipping row i chain = r at hparts ⊢
  cases hparts with
  | off hland hspent => exact .inr ⟨hfree hspent, by rw [hland]; rfl⟩
  | on hland hspent => exact .inr ⟨hfree hspent, by rw [hland, hrows]; rfl⟩
  | @back before after p l b hplaces hspent hl hrunning hrepeats hb =>
      obtain ⟨l', hl', hcovers, hout⟩ := mem_exitedBy_iff.mp
        (hplaces ▸ List.mem_append_right before List.mem_cons_self)
      obtain rfl := Option.some.inj (hl.symm.trans hl')
      obtain ⟨m, hm, hsite, -⟩ := exists_loop_of_layout (t.layout_finishSkipped chain.skippers).symm hl
      have hmem := List.mem_of_getElem? hm
      obtain ⟨-, -, hlt, -⟩ := (hL.covers_iff (mem_sites_of_loops hmem)).mp (hsite ▸ hcovers)
      obtain rfl := Option.some.inj
        (hl.symm.trans (hforward.getElem?_finishSkipped hm (Nat.ne_of_lt hlt)))
      refine .inl ⟨l, b, ⟨hmem, (hcatches l).mpr ⟨hrunning, hrepeats, hcovers, hout⟩, ?_⟩, hb,
        by rw [hrows]⟩
      intro m' hm' hcatch k hk
      obtain ⟨hrunning', hrepeats', hcovers', -⟩ := (hcatches m').mp hcatch
      obtain ⟨q, hq, hq', hqmem⟩ := hcatch.mem_exitedBy hL hi hforward hm'
      rw [hplaces] at hqmem hexits
      rcases List.mem_append.mp hqmem with hqmem | hqmem
      · rw [hspent q hqmem m' hq' hrunning'] at hrepeats'
        cases hrepeats'
      · rcases List.mem_cons.mp hqmem with rfl | hqmem
        · obtain rfl := Option.some.inj (hq.symm.trans hm)
          exact hk
        · have hlt := (List.pairwise_cons.mp (List.pairwise_append.mp hexits.inner).2.1).1 q hqmem
            l m' hl hq'
          have hls := mem_sites_of_loops hmem
          have hms := mem_sites_of_loops hm'
          exact hL.covers_of_inside hms hls (hL.inside_of_covers hms hls hcovers' hcovers hlt).2 hk

/-! ### Ways without a jump -/

/-- A loop that would be repeated. -/
def wouldRepeat (l : Loop) : Bool := l.visit == .running && l.repeats

theorem wouldRepeat_eq_false {places : List Nat} (h : t.Spent places) :
    ∀ l ∈ places.filterMap fun p => t.loops[p]?, wouldRepeat l = false := by
  intro l hl
  obtain ⟨p, hp, hpl⟩ := List.mem_filterMap.mp hl
  rw [← Bool.not_eq_true, wouldRepeat, Bool.and_eq_true, beq_iff_eq]
  rintro ⟨hrunning, hrepeats⟩
  rw [h p hp l hpl hrunning] at hrepeats
  cases hrepeats

theorem loopBackTarget?_eq (hL : t.layout.Laminar) (hi : t.rows[i]? = some row) :
    t.loopBackTarget? row =
      (((endingAt t.loops i).filterMap fun p => t.loops[p]?).find? wouldRepeat).bind fun l =>
        l.body.bind fun b => t.rows[b.first]? := by
  rw [loopBackTarget?, rowIndex?_eq_some hL hi]
  rfl

/-- Without a jump the innermost loop repeats that ends at the row and has passes left; if there is none,
navigation goes on. -/
theorem departPlainly_eq (hL : t.layout.Laminar) (hi : t.rows[i]? = some row) :
    (t.departPlainly row i (t.rowIndex? (row - 1))).2 = (t.loopBackTarget? row).elim
      (if (t.rowIndex? (row - 1)).isSome then ⟨row, some (row - 1), .next⟩ else ⟨row, none, .stop⟩)
      fun back => ⟨row, some back, .loopBack⟩ := by
  rw [loopBackTarget?_eq hL hi]
  obtain ⟨-, hparts⟩ := parts_departPlainly hL hi
  generalize t.departPlainly row i (t.rowIndex? (row - 1)) = r at hparts ⊢
  have hnone : ∀ {places : List Nat}, t.Spent places →
      (places.filterMap fun p => t.loops[p]?).find? wouldRepeat = none := fun hspent =>
    List.find?_eq_none.mpr fun l hl => Bool.eq_false_iff.mp (wouldRepeat_eq_false hspent l hl)
  cases hparts with
  | off hnext hspent =>
      rw [hnone hspent, hnext]
      rfl
  | on hnext hspent =>
      rw [hnone hspent, hnext, getElem?_of_rowIndex? hnext]
      rfl
  | @back before after p l b hplaces hspent hl hrunning hrepeats hb =>
      have hfind : ((endingAt t.loops i).filterMap fun p => t.loops[p]?).find? wouldRepeat = some l := by
        rw [hplaces, List.filterMap_append, List.filterMap_cons_some hl, List.find?_append, hnone hspent,
          Option.none_or, List.find?_cons_of_pos]
        rw [wouldRepeat, hrunning, hrepeats]
        rfl
      obtain ⟨hfirst, hord, hsize⟩ := hL.bodies _ (mem_sites_of_loops (List.mem_of_getElem? hl)) b hb
      have hrow := Array.getElem?_eq_getElem (show b.first < t.rows.size from Nat.lt_of_le_of_lt hord hsize)
      rw [hfind, Option.bind_some, hb, Option.bind_some, hrow]
      rfl

/-! ### Answers -/

/-- In a reachable state, leaving a row of the chart answers what the state before says.  If the next row
would be skipped, the innermost loop repeats that the jump would leave with passes left, or else the jump goes
through.  If not, the loop repeats that would be repeated, or else the next row is played, if there is one.
Navigation never leads to a row that the chart does not have. -/
theorem depart_answers (notes : Array Note) (declared : List (Int × Nat))
    (metadata : List (String × String)) (diagnostics : List Diagnostic) :
    ∀ t, Reachable (Chart.ofParts notes declared metadata diagnostics) t →
      ∀ row, (t.rowIndex? row).isSome →
      let next := row - 1
      let answer := (t.depart row).2
      (∀ place ∈ answer.target, (t.rowIndex? place).isSome) ∧
      (t.isSkipped row next = true → ∃ landing, t.jumpTarget? row next = some landing ∧
        ((∃ l b, t.Innermost (t.Catches row landing) l ∧ l.body = some b ∧
            (t.rows[b.first]?).isSome ∧ answer = ⟨row, t.rows[b.first]?, .loopBack⟩) ∨
          ((∀ l ∈ t.loops, ¬ t.Catches row landing l) ∧ answer =
            ⟨row, landing, if t.isUntaken row next then .branchSkip else .loopSkip⟩))) ∧
      (t.isSkipped row next = false → answer =
        match t.loopBackTarget? row with
        | some back => ⟨row, some back, .loopBack⟩
        | none =>
          if (t.rowIndex? next).isSome then ⟨row, some next, .next⟩ else ⟨row, none, .stop⟩) := by
  intro t ht row hrow next answer
  have hL := ht.laminar
  obtain ⟨i, hindex⟩ := Option.isSome_iff_exists.mp hrow
  have hi := getElem?_of_rowIndex? hindex
  refine ⟨fun place hplace => ?_, fun hskipped => ?_, fun hskipped => ?_⟩
  · obtain ⟨j, hj⟩ := (leaves_depart hL hi).exists_row hplace
    rw [rowIndex?_eq_some hL hj]
    rfl
  · cases hnext : t.rowIndex? next with
    | none =>
        rw [isSkipped, hindex, hnext] at hskipped
        cases hskipped
    | some j =>
        rw [isSkipped, hindex, hnext] at hskipped
        obtain ⟨rfl, -⟩ := eq_succ_of_rowIndex? hL hi hnext
        obtain ⟨found, hfound⟩ := Option.isSome_iff_exists.mp hskipped
        obtain ⟨chain, hchain⟩ : ∃ chain, t.skipChain? i (i + 1) = some chain :=
          ⟨_, by rw [skipChain?, hfound]; rfl⟩
        have hdepart : t.depart row = t.departSkipping row i chain :=
          depart_of_chain hindex (by rw [hnext, Option.bind_some, hchain])
        refine ⟨chain.landing.bind fun j => t.rows[j]?, by rw [jumpTarget?, hindex, hnext]; simp [hchain],
          ?_⟩
        change (∃ l b, _ ∧ _ ∧ _ ∧ (t.depart row).2 = _) ∨ _ ∧ (t.depart row).2 = _
        rw [hdepart, isUntaken_eq hL hi (getElem?_of_rowIndex? hnext), ← reason_skipChain? hchain]
        refine (departSkipping_cases hL hi hchain).imp_left ?_
        rintro ⟨l, b, hl, hb, hanswer⟩
        obtain ⟨hfirst, hord, hsize⟩ := hL.bodies _ (mem_sites_of_loops hl.mem) b hb
        refine ⟨l, b, hl, hb, ?_, hanswer⟩
        rw [Array.getElem?_eq_getElem (show b.first < t.rows.size from Nat.lt_of_le_of_lt hord hsize)]
        rfl
  · have hdepart : t.depart row = t.departPlainly row i (t.rowIndex? next) := by
      refine depart_of_unchained hindex ?_
      cases hnext : t.rowIndex? next with
      | none => rfl
      | some j =>
          rw [isSkipped, hindex, hnext] at hskipped
          have hnone : t.skipChain? i j = none := by
            rw [skipChain?, Option.isSome_eq_false_iff.mp hskipped |> Option.isNone_iff_eq_none.mp]
            rfl
          rw [Option.bind_some, hnone]
    change (t.depart row).2 = _
    rw [hdepart, departPlainly_eq hL hi]
    cases t.loopBackTarget? row <;> rfl

/-- A loop of two passes whose body ends with the body of a conditional that is not taken. -/
def caughtNotes : Array Note :=
  let plain : Note := ⟨-1, 0.0, .tap, 1.0, 0, 0.0, [], [], [], [], 0⟩
  #[{ plain with loopCodes := [2] },
    { plain with row := -2, indent := 1, branchCodes := [false] },
    { plain with row := -3, indent := 2 },
    { plain with row := -4 }]

/-- The jump over the body of the conditional is caught by the loop. -/
theorem depart_answers_caughtNotes :
    let c := Chart.ofParts caughtNotes [] [] []
    let t := ((ofChart c).visit (-1)).1.arrive (-2)
    Reachable c t ∧ (t.rowIndex? (-2)).isSome ∧ t.isSkipped (-2) (-3) = true ∧
      (t.depart (-2)).2 = ⟨-2, some (-2), .loopBack⟩ ∧
      ∃ landing, t.jumpTarget? (-2) (-3) = some landing ∧
        ((∃ l b, t.Innermost (t.Catches (-2) landing) l ∧ l.body = some b ∧
            (t.rows[b.first]?).isSome ∧ (t.depart (-2)).2 = ⟨-2, t.rows[b.first]?, .loopBack⟩) ∨
          ((∀ l ∈ t.loops, ¬ t.Catches (-2) landing l) ∧ (t.depart (-2)).2 =
            ⟨-2, landing, if t.isUntaken (-2) (-3) then .branchSkip else .loopSkip⟩)) := by
  intro c t
  have hreach : Reachable c t := ((Reachable.start.arrive (-1)).depart (-1)).arrive (-2)
  have hstate : (t.rowIndex? (-2)).isSome ∧ t.isSkipped (-2) (-3) = true ∧
      (t.depart (-2)).2 = ⟨-2, some (-2), .loopBack⟩ := by
    unfold t c
    rw [Chart.ofParts_eq [-1, -2, -3, -4] (by decide +kernel) (by decide)]
    decide +kernel
  obtain ⟨hrow, hskipped, hback⟩ := hstate
  exact ⟨hreach, hrow, hskipped, hback,
    (depart_answers caughtNotes [] [] [] t hreach (-2) hrow).2.1 hskipped⟩

end Traversal

end RhythmChart
