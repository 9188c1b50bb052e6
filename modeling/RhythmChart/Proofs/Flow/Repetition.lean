import RhythmChart.Proofs.Flow.Ending
import RhythmChart.Proofs.Flow.Untaken

/-! # Repetition

The walk through a chart comes to its end.  Before that its loops repeat, and each time the walk has taken
care of the whole body since the body was begun: every row of it was visited or was passed over, by a
conditional that was not taken or by a loop without passes left.  A body takes time in total, so that a loop
that repeats has played a row with an extent, unless all of these rows were passed over.

Main statements.

* `Traversal.ends_ofChart`: the walk through a chart ends, whatever the number of steps it is given;
* `Traversal.PassesOver` and `Traversal.depart_cases`: what lies between a row and the next one;
* `Traversal.Covered` and `Traversal.covered_of_comes`: the rows of a body since it was begun;
* `Traversal.repeats_after_time`: what a loop has played when it repeats. -/

namespace RhythmChart

namespace Body

open Binary64

theorem not_pos_add {x y : Float} (hx : ¬ 0.0 < x) (hy : ¬ 0.0 < y) : ¬ 0.0 < x + y := by
  intro hpos
  obtain ⟨-, hn, hlt⟩ := (lt_iff _ _).mp hpos
  obtain ⟨hxn, hyn, -⟩ := (isNumber_add_iff x y).mp hn
  have hle : ∀ {z : Float}, IsNumber z → ¬ 0.0 < z → value z ≤ 0 := fun hz hnot => by
    rw [← value_zero]
    exact not_lt.mp fun hlt => hnot ((lt_iff _ _).mpr ⟨isNumber_zero, hz, hlt⟩)
  have hsum : value x + value y ≤ 0 := add_nonpos (hle hxn hx) (hle hyn hy)
  have hnear := nearest_mono hsum
  rw [nearest_zero, ← value_add hn, ← value_zero] at hnear
  exact absurd hlt (not_lt.mpr hnear)

/-- A body that takes time has a row that does. -/
theorem exists_extent_pos {rows : Array Row} {b : Body} (h : 0.0 < extent rows b) :
    ∃ (i : Nat) (r : Row), b.contains i = true ∧ rows[i]? = some r ∧ 0.0 < r.extent := by
  by_contra hnone
  have hzero : ∀ r ∈ rows.extract b.first b.after, ¬ 0.0 < r.extent := by
    intro r hr hpos
    obtain ⟨i, hi, rfl⟩ := Array.mem_extract_iff_getElem.mp hr
    refine hnone ⟨b.first + i, _, ?_, Array.getElem?_eq_getElem (by omega), hpos⟩
    rw [contains, decide_eq_true_iff]
    unfold after at hi
    omega
  have htotal : ∀ (l : List Row) (total : Float), (∀ r ∈ l, ¬ 0.0 < r.extent) → ¬ 0.0 < total →
      ¬ 0.0 < l.foldl (fun total r => total + r.extent) total := by
    intro l
    induction l with
    | nil => exact fun total _ htotal => htotal
    | cons r l ih =>
        intro total hl htotal
        exact ih _ (fun s hs => hl s (List.mem_cons_of_mem r hs))
          (not_pos_add htotal (hl r List.mem_cons_self))
  unfold extent at h
  rw [← Array.foldl_toList] at h
  exact htotal _ 0.0 (fun r hr => hzero r (Array.mem_toList_iff.mp hr)) (by decide +kernel) h

theorem extent_pos_of_findTimed {rows : Array Row} {anchor indent : Nat} {b : Body}
    (h : bodyOf? (findTimed rows anchor indent) = some b) : 0.0 < extent rows b := by
  have hfind := find_of_findTimed h
  unfold findTimed at h
  rw [hfind] at h
  dsimp only at h
  split_ifs at h with hpos
  · cases h
    exact hpos
  · cases h

end Body

namespace Traversal

variable {t u : Traversal} {i j r : Nat} {row here next : Int} {navs : List Navigation}

/-! ### The end of the walk -/

/-- The walk from the first row on takes a last step that has no target, after which it stays as it is. -/
def Ends (t : Traversal) : Prop :=
  t.firstRow? = none ∨ ∃ enough navs last, (∀ steps, enough ≤ steps → (t.tour steps).2 = navs ++ [last]) ∧
    last.target = none ∧ ∀ nav ∈ navs, nav.target.isSome

/-- The walk through a chart ends, for the chart of any notes and for that of any text. -/
theorem ends_ofChart :
    (∀ (notes : Array Note) (declared : List (Int × Nat)) (metadata : List (String × String))
      (diagnostics : List Diagnostic), (ofChart (Chart.ofParts notes declared metadata diagnostics)).Ends) ∧
    ∀ text, (ofChart (Chart.ofText text)).Ends := by
  have hparts : ∀ notes declared metadata diagnostics,
      (ofChart (Chart.ofParts notes declared metadata diagnostics)).Ends := by
    intro notes declared metadata diagnostics
    have hL := laminar_ofChart (Chart.indented_ofParts notes declared metadata diagnostics)
      (Chart.falling_ofParts notes declared metadata diagnostics)
    set t := ofChart (Chart.ofParts notes declared metadata diagnostics)
    unfold Ends tour
    cases hfirst : t.firstRow? with
    | none => exact .inl rfl
    | some row =>
        obtain ⟨navs, u, here, hcomes, hend, enough, hwalk⟩ := exists_end hL hfirst
        exact .inr ⟨enough, navs, _, fun steps hsteps => congrArg Prod.snd (hwalk steps hsteps), hend,
          hcomes.isSome_target⟩
  exact ⟨hparts, fun text => hparts _ _ _ _⟩

/-! ### Passing over rows -/

/-- A construct at `row` keeps navigation off row place `r`: a conditional that is not taken, or a loop
without passes left. -/
def PassesOver (t : Traversal) (row : Int) (r : Nat) : Prop :=
  (∃ c ∈ t.conditionals, c.anchor = row ∧ c.decision = .skip ∧ c.covers r = true) ∨
    ∃ l ∈ t.loops, l.anchor = row ∧ l.blocksEntry = true ∧ l.covers r = true

/-- What skips a row stands at the row that is left, and passes over all rows up to the landing. -/
theorem passesOver_skipper? (hL : t.layout.Laminar) (hi : t.rows[i]? = some row)
    (hj : t.layout.Ahead i j) {s : Skipper} {place : Nat} (h : t.skipper? i j = some (s, place))
    (hir : i < r) (hr : r < place) : t.PassesOver row r := by
  have hanchor : ∀ k ∈ t.layout.sites, k.index = i → k.anchor = row := fun k hk hindex => by
    have := hL.anchors k hk
    rw [hindex, show t.layout.rows[i]? = some row from hi] at this
    exact (Option.some.inj this).symm
  rcases skipper?_some hL hj h with
    ⟨p, c, b, -, hc, hindex, hb, -, rfl, hskip⟩ | ⟨p, l, b, -, hl, hindex, hb, -, rfl, hblocks, -⟩
  · have hmem := List.mem_of_getElem? hc
    have hk := mem_sites_of_conditionals hmem
    exact .inl ⟨c, hmem, hanchor _ hk hindex, hskip,
      (hL.covers_iff hk).mpr ⟨b, hb, by omega, Nat.le_of_lt_succ hr⟩⟩
  · have hmem := List.mem_of_getElem? hl
    have hk := mem_sites_of_loops hmem
    exact .inr ⟨l, hmem, hanchor _ hk hindex, hblocks,
      (hL.covers_iff hk).mpr ⟨b, hb, by omega, Nat.le_of_lt_succ hr⟩⟩

/-- A chain of skips passes over all rows up to its landing. -/
theorem passesOver_extendSkip (hL : t.layout.Laminar) (hi : t.rows[i]? = some row) (n : Nat)
    (hj : t.layout.Ahead i j) (hir : i < r) (hjr : j ≤ r) (hr : r < (t.extendSkip i n j).1) :
    t.PassesOver row r := by
  induction n generalizing j with
  | zero => exact absurd hr (Nat.not_lt.mpr hjr)
  | succ n ih =>
      rw [extendSkip] at hr
      split_ifs at hr
      · cases h : t.skipper? i j with
        | none =>
            rw [h] at hr
            exact absurd hr (Nat.not_lt.mpr hjr)
        | some found =>
            obtain ⟨s, place⟩ := found
            rw [h] at hr
            rcases Nat.lt_or_ge r place with hlt | hge
            · exact passesOver_skipper? hL hi hj h hir hlt
            · exact ih (ahead_of_skipper? hL hj h) hge hr
      · exact absurd hr (Nat.not_lt.mpr hjr)

theorem passesOver_chain (hL : t.layout.Laminar) (hi : t.rows[i]? = some row) {chain : SkipChain}
    (h : t.skipChain? i (i + 1) = some chain) (hir : i < r) (hr : r < t.rows.size)
    (hland : ∀ j, chain.landing = some j → r < j) : t.PassesOver row r := by
  unfold skipChain? at h
  obtain ⟨found, hs, rfl⟩ := Option.map_eq_some_iff.mp h
  obtain ⟨s, place⟩ := found
  have hplace := ahead_of_skipper? hL (.inl rfl) hs
  rcases Nat.lt_or_ge r place with hlt | hge
  · exact passesOver_skipper? hL hi (.inl rfl) hs hir hlt
  · refine passesOver_extendSkip hL hi (maxSkips - 1) hplace hir hge ?_
    -- A chain that lands nowhere passes over all rows.
    by_cases hsize : (t.extendSkip i (maxSkips - 1) place).1 < t.rows.size
    · exact hland _ (if_pos hsize)
    · omega

/-- A row is left forwards, past rows that constructs there pass over, or a loop around it repeats and the
rest of its body is passed over. -/
inductive Departs (t : Traversal) (row : Int) (i : Nat) (nav : Navigation) : Prop where
  | on {j : Nat} (hreason : nav.reason ≠ .loopBack) (hnext : nav.target = t.rows[j]?) (hij : i < j)
      (hover : ∀ r, i < r → r < j → t.PassesOver row r)
  | back {l : Loop} {b : Body} (hreason : nav.reason = .loopBack) (hl : l ∈ t.loops)
      (hb : l.body = some b) (hfirst : b.first ≤ i) (hlast : i ≤ b.last)
      (hnext : nav.target = t.rows[b.first]?) (hover : ∀ r, i < r → r ≤ b.last → t.PassesOver row r)
  | off (hreason : nav.reason ≠ .loopBack) (hnext : nav.target = none)

theorem departs_departSkipping (hL : t.layout.Laminar) (hi : t.rows[i]? = some row)
    {chain : SkipChain} (h : t.skipChain? i (i + 1) = some chain) :
    t.Departs row i (t.departSkipping row i chain).2 := by
  obtain ⟨hforward, hreason⟩ := forward_chain hL (.inl rfl) h
  have hrows := t.rows_finishSkipped chain.skippers
  obtain ⟨hexits, hparts⟩ := parts_departSkipping hL row i chain
  generalize t.departSkipping row i chain = r at hparts ⊢
  cases hparts with
  | off => exact .off hreason rfl
  | @on j hland =>
      refine .on hreason (congrArg (·[j]?) hrows) (hL.lt_of_ahead (hforward.ahead j hland))
        fun r hir hrj => passesOver_chain hL hi h hir (hrj.trans (hforward.inRange j hland)) ?_
      exact fun k hk => Option.some.inj (hland.symm.trans hk) ▸ hrj
  | @back before after p l b hplaces _ hl _ _ hb =>
      rw [hplaces] at hexits
      obtain ⟨l', hl', hcovers, hout⟩ := hexits.holds p (List.mem_append_right _ List.mem_cons_self)
      obtain rfl := Option.some.inj (hl.symm.trans hl')
      obtain ⟨m, hm, hsite, -⟩ := exists_loop_of_layout (t.layout_finishSkipped chain.skippers).symm hl
      rw [← hsite] at hb hcovers hout
      have hms := mem_sites_of_loops (List.mem_of_getElem? hm)
      obtain ⟨hlt, hlast⟩ := (hL.covers_body_iff hms hb).mp hcovers
      obtain ⟨hfirst, -, hsize⟩ := hL.bodies _ hms b hb
      refine .back rfl (List.mem_of_getElem? hm) hb (by omega) hlast (congrArg (·[b.first]?) hrows)
        fun r hir hrb => passesOver_chain hL hi h hir (Nat.lt_of_le_of_lt hrb hsize) fun j hj => ?_
      -- The landing is not in the body, so that it is past its end.
      by_contra hge
      have hij := hL.lt_of_ahead (hforward.ahead j hj)
      have := hout j hj
      rw [(hL.covers_iff hms).mpr ⟨b, hb, by omega, by omega⟩] at this
      cases this

theorem departs_departPlainly (hL : t.layout.Laminar) (hi : t.rows[i]? = some row) :
    t.Departs row i (t.departPlainly row i (t.rowIndex? (row - 1))).2 := by
  obtain ⟨-, hparts⟩ := parts_departPlainly hL hi
  generalize t.departPlainly row i (t.rowIndex? (row - 1)) = r at hparts ⊢
  cases hparts with
  | off => exact .off Reason.noConfusion rfl
  | @on j hnext =>
      obtain ⟨rfl, -⟩ := eq_succ_of_rowIndex? hL hi hnext
      exact .on Reason.noConfusion rfl (Nat.lt_succ_self i) fun r hir hr => by omega
  | @back before after p l b hplaces _ hl _ _ hb =>
      -- The loop ends at the row itself.
      have hp : p ∈ endingAt t.loops i := hplaces ▸ List.mem_append_right _ List.mem_cons_self
      obtain ⟨l', hl', hend⟩ := (mem_innermostFirst p).mp hp
      obtain rfl := Option.some.inj (hl.symm.trans hl')
      obtain ⟨b', hb', rfl⟩ := (Construct.endsAt_iff _ _).mp hend
      obtain rfl := Option.some.inj (hb.symm.trans hb')
      obtain ⟨-, hord, -⟩ := hL.bodies _ (mem_sites_of_loops (List.mem_of_getElem? hl)) b hb
      exact .back rfl (List.mem_of_getElem? hl) hb hord (Nat.le_refl _) rfl fun r hir hr => by omega

theorem depart_cases (hL : t.layout.Laminar) (hi : t.rows[i]? = some row) :
    t.Departs row i (t.depart row).2 := by
  rcases depart_ways hL hi with ⟨chain, -, hchain, heq⟩ | ⟨-, heq⟩
  · exact heq ▸ departs_departSkipping hL hi hchain
  · exact heq ▸ departs_departPlainly hL hi

/-! ### The rows of a body -/

/-- A step begins a body: it comes to it from outside, or goes back to its first row. -/
def beginsBody (t : Traversal) (k : Construct) (nav : Navigation) : Bool :=
  nav.target.any fun next =>
    t.isInside k next && (!t.isInside k nav.source || (t.rowIndex? next).any k.startsAt)

/-- One of the steps `navs` of the walk, not earlier than step `since`, passes over row place `r`. -/
def PassedOver (t : Traversal) (navs : List Navigation) (since r : Nat) : Prop :=
  ∃ first before u here, t.firstRow? = some first ∧ Comes t first before u here ∧
    before ++ [(u.visit here).2] <+: navs ∧ since ≤ before.length ∧ (u.arrive here).PassesOver here r

theorem PassedOver.mono {since : Nat} {navs' : List Navigation} (h : t.PassedOver navs since r)
    (hle : navs <+: navs') : t.PassedOver navs' since r := by
  obtain ⟨first, before, u, here, hfirst, hcomes, hinit, hsince, hover⟩ := h
  exact ⟨first, before, u, here, hfirst, hcomes, hinit.trans hle, hsince, hover⟩

/-- After the steps `navs` the walk is in a body, and since it has begun the body it has visited or passed
over all rows of it before row place `j`. -/
def Covered (t : Traversal) (k : Construct) (b : Body) (navs : List Navigation) (j : Nat) : Prop :=
  ∃ before begin pass, navs = before ++ begin :: pass ∧ t.beginsBody k begin = true ∧
    (∀ nav ∈ pass, t.beginsBody k nav = false) ∧
    ∀ r, b.first ≤ r → r < j →
      (∃ nav ∈ pass, t.rows[r]? = some nav.source) ∨ t.PassedOver navs before.length r

theorem beginsBody_eq (hL : t.layout.Laminar) {k : Construct} {nav : Navigation}
    (hi : t.rows[i]? = some nav.source) (hnext : nav.target = some next) (hj : t.rows[j]? = some next) :
    t.beginsBody k nav = (k.covers j && (!k.covers i || k.startsAt j)) := by
  rw [beginsBody, hnext, Option.any_some, isInside_eq hL hj, isInside_eq hL hi, rowIndex?_eq_some hL hj,
    Option.any_some]

/-- A loop that repeats does not lead into the body of another one. -/
theorem covers_of_back (hL : t.layout.Laminar) {l m : Loop} {b c : Body} (hl : l ∈ t.loops)
    (hb : l.body = some b) (hm : m ∈ t.loops) (hc : m.body = some c) (hfirst : c.first ≤ i)
    (hlast : i ≤ c.last) (hcovers : l.covers c.first = true) : l.covers i = true := by
  have hls := mem_sites_of_loops hl
  have hms := mem_sites_of_loops hm
  obtain ⟨hlt, hle⟩ := (hL.covers_body_iff hls hb).mp hcovers
  obtain ⟨hstart, -, -⟩ := hL.bodies _ hms c hc
  rw [hL.covers_body_iff hls hb]
  rcases Nat.lt_or_ge l.index m.index with hinside | hsame
  · have := (hL.inside _ hls b hb _ hms c hc hinside (by omega)).2
    exact ⟨by omega, by omega⟩
  · -- Two loops at one row are the same.
    obtain ⟨p, hp⟩ := List.getElem?_of_mem hl
    obtain ⟨q, hq⟩ := List.getElem?_of_mem hm
    obtain rfl := hL.loop_place_inj (getElem?_layout_loops hp) (getElem?_layout_loops hq)
      (show l.index = m.index by omega)
    obtain rfl := Option.some.inj (hp.symm.trans hq)
    obtain rfl := Option.some.inj (hb.symm.trans hc)
    exact ⟨by omega, hlast⟩

section Steps

variable {l : Loop} {b : Body}

/-- A step that begins the body: it has passed over the rows of it that it is past. -/
theorem Covered.begin (hL : t.layout.Laminar) (hrow : t.firstRow? = some row)
    (h : Comes t row navs u here) (hlayout : u.layout = t.layout) (hi : t.rows[i]? = some here)
    (hnext : (u.visit here).2.target = some next) (hj : t.rows[j]? = some next) (hl : l ∈ t.loops)
    (hb : l.body = some b) (hcovers : l.covers j = true) (hout : l.covers i = false) :
    t.Covered l.toConstruct b (navs ++ [(u.visit here).2]) j := by
  have harrive := (u.layout_arrive here).trans hlayout
  have haL : (u.arrive here).layout.Laminar := harrive.symm ▸ hL
  have hrows : (u.arrive here).rows = t.rows := congrArg Layout.rows harrive
  have hls := mem_sites_of_loops hl
  have hsource : (u.visit here).2.source = here := (leaves_depart haL (hrows.symm ▸ hi)).source
  refine ⟨navs, _, [], rfl, ?_, fun nav hnav => (nomatch hnav), fun r hr hrj => .inr ?_⟩
  · rw [beginsBody_eq hL (hsource.symm ▸ hi) hnext hj, hcovers, hout]
    rfl
  refine ⟨row, navs, u, here, hrow, h, List.prefix_rfl, Nat.le_refl _, ?_⟩
  cases depart_cases haL (hrows.symm ▸ hi) with
  | off hreason hnone =>
      have := hnext.symm.trans hnone
      cases this
  | @on k hreason htarget hik hover =>
      obtain rfl := hL.index_inj (hrows ▸ (htarget.symm.trans hnext)) hj
      obtain ⟨-, hle⟩ := (hL.covers_body_iff hls hb).mp hcovers
      obtain ⟨hstart, -, -⟩ := hL.bodies _ hls b hb
      have hbefore : i ≤ l.index := by
        by_contra hlt
        rw [(hL.covers_body_iff hls hb).mpr ⟨by omega, by omega⟩] at hout
        cases hout
      exact hover r (by omega) hrj
  | @back m c hreason hm hc hfirst hlast htarget hover =>
      -- The loop that repeats would be around the body.
      obtain rfl := hL.index_inj (hrows ▸ (htarget.symm.trans hnext)) hj
      obtain ⟨q, hq⟩ := List.getElem?_of_mem hm
      obtain ⟨m', hm', hsite, -⟩ := exists_loop_of_layout harrive.symm hq
      have := covers_of_back hL hl hb (List.mem_of_getElem? hm') (hsite ▸ hc) hfirst hlast hcovers
      rw [hout] at this
      cases this

/-- A step inside the body. -/
theorem Covered.step (hL : t.layout.Laminar) (hrow : t.firstRow? = some row)
    (h : Comes t row navs u here) (hlayout : u.layout = t.layout) (hi : t.rows[i]? = some here)
    (hnext : (u.visit here).2.target = some next) (hj : t.rows[j]? = some next)
    (hb : l.body = some b) (hcovers : l.covers j = true) (hin : l.covers i = true)
    (hcovered : t.Covered l.toConstruct b navs i) :
    t.Covered l.toConstruct b (navs ++ [(u.visit here).2]) j := by
  have harrive := (u.layout_arrive here).trans hlayout
  have haL : (u.arrive here).layout.Laminar := harrive.symm ▸ hL
  have hrows : (u.arrive here).rows = t.rows := congrArg Layout.rows harrive
  have hsource : (u.visit here).2.source = here := (leaves_depart haL (hrows.symm ▸ hi)).source
  have hbegins : t.beginsBody l.toConstruct (u.visit here).2 = l.startsAt j := by
    rw [beginsBody_eq hL (hsource.symm ▸ hi) hnext hj, hcovers, hin]
    rfl
  have hstarts : l.startsAt j = decide (b.first = j) := by
    rw [Construct.startsAt, hb, Option.any_some]
    rfl
  by_cases hfirst : b.first = j
  · refine ⟨navs, _, [], rfl, ?_, fun nav hnav => (nomatch hnav), fun r hr hrj => by omega⟩
    rw [hbegins, hstarts, decide_eq_true hfirst]
  obtain ⟨before, begin, pass, hnavs, hbegin, hpass, hrest⟩ := hcovered
  have hlength : before.length ≤ navs.length := by
    rw [hnavs, List.length_append]
    exact Nat.le_add_right _ _
  refine ⟨before, begin, pass ++ [(u.visit here).2], ?_, hbegin, fun nav hnav => ?_, fun r hr hrj => ?_⟩
  · rw [hnavs, List.append_assoc, List.cons_append]
  · rcases List.mem_append.mp hnav with hnav | hnav
    · exact hpass nav hnav
    · rw [List.mem_singleton.mp hnav, hbegins, hstarts, decide_eq_false hfirst]
  · have hearlier : r < i → (∃ nav ∈ pass ++ [(u.visit here).2], t.rows[r]? = some nav.source) ∨
        t.PassedOver (navs ++ [(u.visit here).2]) before.length r := fun hri => by
      rcases hrest r hr hri with hvisited | hover
      · obtain ⟨nav, hnav, hnavr⟩ := hvisited
        exact .inl ⟨nav, List.mem_append_left _ hnav, hnavr⟩
      · exact .inr (hover.mono (List.prefix_append _ _))
    rcases Nat.lt_trichotomy r i with hri | rfl | hir
    · exact hearlier hri
    · exact .inl ⟨_, List.mem_append_right _ (List.mem_singleton_self _), hsource.symm ▸ hi⟩
    · cases depart_cases haL (hrows.symm ▸ hi) with
      | off hreason hnone =>
          have := hnext.symm.trans hnone
          cases this
      | @on k hreason htarget hik hover =>
          obtain rfl := hL.index_inj (hrows ▸ (htarget.symm.trans hnext)) hj
          exact .inr ⟨row, navs, u, here, hrow, h, List.prefix_rfl, hlength, hover r hir hrj⟩
      | @back m c hreason hm hc hback hlast htarget hover =>
          obtain rfl := hL.index_inj (hrows ▸ (htarget.symm.trans hnext)) hj
          omega

end Steps

/-- Wherever the walk is in the body of a loop, it has taken care of all rows before. -/
theorem covered_of_comes (hL : t.layout.Laminar) (hrow : t.firstRow? = some row)
    (h : Comes t row navs u here) {l : Loop} {b : Body} (hl : l ∈ t.loops) (hb : l.body = some b)
    (hj : t.rows[j]? = some here) (hcovers : l.covers j = true) :
    t.Covered l.toConstruct b navs j := by
  induction h generalizing j with
  | start =>
      -- The first row is in no body.
      obtain rfl := hL.index_inj hj hrow
      obtain ⟨-, -, hlt, -⟩ := (hL.covers_iff (mem_sites_of_loops hl)).mp hcovers
      exact absurd hlt (Nat.not_lt_zero _)
  | @step navs u here next h hnext ih =>
      obtain ⟨hlayout, i, hi⟩ := h.layout hL hrow
      have hrows : u.rows = t.rows := congrArg Layout.rows hlayout
      rw [hrows] at hi
      cases hin : l.covers i with
      | true => exact .step hL hrow h hlayout hi hnext hj hb hcovers hin (ih hi hin)
      | false => exact .begin hL hrow h hlayout hi hnext hj hl hb hcovers hin

/-! ### Loops that repeat -/

/-- The body of a loop takes time. -/
theorem extent_pos_of_mem_loops {c : Chart} {l : Loop} (hl : l ∈ (ofChart c).loops) {b : Body}
    (hb : l.body = some b) : 0.0 < Body.extent c.rows b := by
  rw [loops_ofChart] at hl
  obtain ⟨m, hm, rfl⟩ := List.mem_map.mp hl
  obtain ⟨entry, -, hread⟩ := List.mem_filterMap.mp (mem_of_mem_firstPerAnchor hm)
  unfold loopOf? at hread
  dsimp only at hread
  split_ifs at hread
  cases hread
  exact Body.extent_pos_of_findTimed hb

/-- When a loop repeats, its body has rows that take time, and each of them was visited since the body was
begun, or one of the steps since then has passed over it. -/
theorem repeats_after_time (notes : Array Note) (declared : List (Int × Nat))
    (metadata : List (String × String)) (diagnostics : List Diagnostic) :
    let c := Chart.ofParts notes declared metadata diagnostics
    let t := ofChart c
    ∀ (steps : Nat) (navs rest : List Navigation) (back : Navigation),
      (t.tour steps).2 = navs ++ back :: rest → back.reason = .loopBack →
      ∃ l ∈ t.loops, ∃ b, l.body = some b ∧ t.isInside l.toConstruct back.source = true ∧
        back.target = t.rows[b.first]? ∧
        ∃ before begin pass, navs = before ++ begin :: pass ∧
          t.beginsBody l.toConstruct begin = true ∧
          (∀ nav ∈ pass, t.beginsBody l.toConstruct nav = false) ∧
          (∃ (i : Nat) (r : Row), b.contains i = true ∧ c.rows[i]? = some r ∧ 0.0 < r.extent) ∧
          ∀ (i : Nat) (r : Row), b.contains i = true → c.rows[i]? = some r → 0.0 < r.extent →
            (∃ nav ∈ pass ++ [back], nav.source = r.id) ∨
              t.PassedOver (navs ++ [back]) before.length i := by
  intro c t steps navs rest back hnavs hreason
  have hL : t.layout.Laminar :=
    laminar_ofChart (Chart.indented_ofParts notes declared metadata diagnostics)
      (Chart.falling_ofParts notes declared metadata diagnostics)
  unfold tour at hnavs
  cases hfirst : t.firstRow? with
  | none =>
      rw [hfirst] at hnavs
      exact absurd hnavs (by simp)
  | some row =>
      rw [hfirst] at hnavs
      obtain ⟨u, here, hcomes, rfl⟩ := comes_of_walk hnavs
      obtain ⟨hlayout, i, hi⟩ := hcomes.layout hL hfirst
      have harrive := (u.layout_arrive here).trans hlayout
      have hrows : (u.arrive here).rows = t.rows := congrArg Layout.rows harrive
      have hit : t.rows[i]? = some here := hrows ▸ hi
      have haL : (u.arrive here).layout.Laminar := harrive.symm ▸ hL
      have hsource : (u.visit here).2.source = here := (leaves_depart haL hi).source
      cases depart_cases haL hi with
      | on hnot => exact absurd hreason hnot
      | off hnot => exact absurd hreason hnot
      | @back m b _ hm hb hstart hlast htarget hover =>
          obtain ⟨p, hp⟩ := List.getElem?_of_mem hm
          obtain ⟨l, hl, hsite, -⟩ := exists_loop_of_layout harrive.symm hp
          have hmem := List.mem_of_getElem? hl
          rw [← hsite] at hb
          obtain ⟨hfirstRow, -, -⟩ := hL.bodies _ (mem_sites_of_loops hmem) b hb
          have hcovers : l.covers i = true :=
            (hL.covers_iff (mem_sites_of_loops hmem)).mpr ⟨b, hb, by omega, hlast⟩
          obtain ⟨before, begin, pass, rfl, hbegin, hpass, hrest⟩ :=
            covered_of_comes hL hfirst hcomes hmem hb hit hcovers
          refine ⟨l, hmem, b, hb, ?_, htarget.trans (congrArg (·[b.first]?) hrows), before, begin, pass,
            rfl, hbegin, hpass, Body.exists_extent_pos (extent_pos_of_mem_loops hmem hb),
            fun j r hj hr _ => ?_⟩
          · rw [hsource, isInside_eq hL hit, hcovers]
          have hrow : t.rows[j]? = some r.id :=
            (getElem?_rows_ofChart c j).trans (by rw [hr, Option.map_some])
          rw [Body.contains, decide_eq_true_iff] at hj
          rcases Nat.lt_trichotomy j i with hji | rfl | hij
          · rcases hrest j hj.1 hji with hvisited | hpassed
            · obtain ⟨nav, hnav, hnavj⟩ := hvisited
              exact .inl ⟨nav, List.mem_append_left _ hnav, Option.some.inj (hnavj.symm.trans hrow)⟩
            · exact .inr (hpassed.mono (List.prefix_append _ _))
          · exact .inl ⟨_, List.mem_append_right _ (List.mem_singleton_self _),
              hsource.trans (Option.some.inj (hit.symm.trans hrow))⟩
          · refine .inr ⟨row, _, u, here, hfirst, hcomes, List.prefix_rfl, ?_, hover j hij hj.2⟩
            rw [List.length_append]
            exact Nat.le_add_right _ _

/-- The loop whose conditional leads into the middle of its body goes back after one row of it, and the
conditional has passed over the other one. -/
theorem repeats_slantedNotes :
    let c := Chart.ofParts slantedNotes [] [] []
    let t := ofChart c
    ∃ l ∈ t.loops, ∃ b, l.body = some b ∧ t.isInside l.toConstruct (-3) = true ∧
      some (-2) = t.rows[b.first]? ∧
      ∃ before begin pass, [⟨-1, some (-3), .branchSkip⟩] = before ++ begin :: pass ∧
        t.beginsBody l.toConstruct begin = true ∧
        (∀ nav ∈ pass, t.beginsBody l.toConstruct nav = false) ∧
        (∃ (i : Nat) (r : Row), b.contains i = true ∧ c.rows[i]? = some r ∧ 0.0 < r.extent) ∧
        ∀ (i : Nat) (r : Row), b.contains i = true → c.rows[i]? = some r → 0.0 < r.extent →
          (∃ nav ∈ pass ++ [⟨-3, some (-2), .loopBack⟩], nav.source = r.id) ∨
            t.PassedOver ([⟨-1, some (-3), .branchSkip⟩] ++ [⟨-3, some (-2), .loopBack⟩])
              before.length i :=
  repeats_after_time slantedNotes [] [] [] 5 [⟨-1, some (-3), .branchSkip⟩]
    [⟨-2, some (-3), .next⟩, ⟨-3, some (-4), .next⟩, ⟨-4, none, .stop⟩]
    ⟨-3, some (-2), .loopBack⟩ tour_slantedNotes rfl

/-- A loop of two passes whose body has an instant, where a conditional that is not taken stands, and a row
with an extent, which is the body of the conditional. -/
def stillNotes : Array Note :=
  let plain : Note := ⟨-1, 0.0, .tap, 1.0, 0, 0.0, [], [], [], [], 0⟩
  #[{ plain with loopCodes := [2] },
    { plain with row := -2, length := 0.0, indent := 1, branchCodes := [false] },
    { plain with row := -3, indent := 2 },
    { plain with row := -4 }]

/-- The loop repeats although no row with an extent was visited since its body was begun. -/
theorem repeats_at_one_instant :
    let c := Chart.ofParts stillNotes [] [] []
    let t := ofChart c
    ∃ l ∈ t.loops, ∃ begin back, (t.tour 4).2 =
        [begin, back, ⟨-2, some (-4), .branchSkip⟩, ⟨-4, none, .stop⟩] ∧
      t.beginsBody l.toConstruct begin = true ∧ back.reason = .loopBack ∧
      t.beginsBody l.toConstruct back = true ∧
      (c.row? back.source).map (fun r => decide (0.0 < r.extent)) = some false := by
  rw [Chart.ofParts_eq [-1, -2, -3, -4] (by decide +kernel) (by decide)]
  refine ⟨.fresh ⟨-1, 0, 0, some ⟨1, 2⟩, none⟩ [2], ?_, ⟨-1, some (-2), .next⟩,
    ⟨-2, some (-2), .loopBack⟩, ?_⟩ <;> decide +kernel

end Traversal

end RhythmChart
