import RhythmChart.Proofs.Flow.Movement
import RhythmChart.Proofs.Flow.Walk

/-! # Untaken conditionals

A conditional whose code says so is not taken: its body is skipped.  There is one way into the body all
the same.  A loop at the same row whose body is longer repeats, and the row it goes back to is the first
of both bodies.

Main statements.

* `Traversal.pointer_of_comes`: a conditional reads one code per visit of its row;
* `Traversal.not_covers_of_skip`: no step from the row leads into the body;
* `Traversal.repeats_of_enters`: the only other step into the body is that of the longer loop;
* `Traversal.loopBack_of_untaken`: what is visited in the body of an untaken conditional. -/

namespace RhythmChart

namespace Traversal

variable {t u : Traversal} {i j : Nat} {row here next : Int} {navs : List Navigation}

/-! ### Codes -/

theorem pointers_leaves {nav : Navigation} (h : t.Leaves row i u nav) :
    u.conditionals.map Conditional.pointer = t.conditionals.map Conditional.pointer := by
  cases h with
  | @back skippers =>
      change ((t.finishSkipped skippers).conditionals.map _).map _ = _
      rw [conditionals_finishSkipped, List.map_map]
      refine List.map_congr_left fun c _ => ?_
      dsimp only [Function.comp_apply]
      split_ifs <;> rfl
  | @on skippers => exact congrArg (List.map _) (t.conditionals_finishSkipped skippers)
  | @off skippers => exact congrArg (List.map _) (t.conditionals_finishSkipped skippers)

/-- A visit of its row uses up a code of a conditional. -/
theorem pointer_visit (hL : t.layout.Laminar) (hi : t.rows[i]? = some row) {p : Nat} {c c' : Conditional}
    (hc : t.conditionals[p]? = some c) (hbody : c.body.isSome)
    (hc' : (t.visit row).1.conditionals[p]? = some c') :
    c'.pointer = c.pointer + if c.anchor = row then 1 else 0 := by
  have hpointers := congrArg (·[p]?) (pointers_leaves (leaves_visit hL hi))
  simp only [List.getElem?_map, hc', arrive, hc, Option.map_some] at hpointers
  rw [Option.some.inj hpointers]
  split_ifs
  · unfold Conditional.encounter
    rw [← Option.not_isSome, hbody]
    rfl
  · rfl

/-- A conditional has read one code for each visit of its row. -/
theorem pointer_of_comes (hL : t.layout.Laminar) (hi : t.rows[i]? = some row)
    (h : Comes t row navs u here) {p : Nat} {c : Conditional} (hc : t.conditionals[p]? = some c)
    (hbody : c.body.isSome) {d : Conditional} (hd : u.conditionals[p]? = some d) :
    d.pointer = c.pointer + navs.countP fun nav => decide (nav.source = c.anchor) := by
  induction h generalizing d with
  | start =>
      obtain rfl := Option.some.inj (hc.symm.trans hd)
      rfl
  | @step navs u here next h hnext ih =>
      obtain ⟨hlayout, j, hj⟩ := h.layout hL hi
      obtain ⟨e, he, hsite, -⟩ := exists_conditional_of_layout hlayout hc
      have huL : u.layout.Laminar := hlayout.symm ▸ hL
      rw [pointer_visit huL hj he (hsite ▸ hbody) hd, ih he, hsite, List.countP_append,
        List.countP_singleton, (leaves_visit huL hj).source, Nat.add_assoc]
      simp only [decide_eq_true_eq, eq_comm (a := c.anchor)]

/-! ### Steps into a body -/

/-- A conditional that skips is not entered from its row. -/
theorem not_covers_of_skip (hL : t.layout.Laminar) {c : Conditional} (hc : c ∈ t.conditionals)
    (hskip : c.decision = .skip) {nav : Navigation} (h : t.Leaves row c.index u nav)
    (hnext : nav.target = some next) (hj : t.rows[j]? = some next) : c.covers j = false := by
  have hcs := mem_sites_of_conditionals hc
  have hfree : c.covers c.index = false := hL.not_covers_of_le hcs (Nat.le_refl _)
  rw [← Bool.not_eq_true]
  intro hcovers
  cases h with
  | @back skippers landing before after p l b hforward hexits hspent hl hrunning hrepeats hb =>
      -- The loop that repeats is around the row, so that its body starts before.
      obtain ⟨l', hl', haround, -⟩ := hexits.holds p (List.mem_append_right _ List.mem_cons_self)
      obtain rfl := Option.some.inj (hl.symm.trans hl')
      obtain ⟨b', hb', hfirst, -⟩ := (Construct.covers_iff _ _).mp haround
      obtain rfl := Option.some.inj (hb.symm.trans hb')
      obtain rfl := hL.index_inj hnext hj
      obtain ⟨-, -, hlt, -⟩ := (hL.covers_iff hcs).mp hcovers
      omega
  | on hforward =>
      obtain rfl := hL.index_inj hnext hj
      exact not_skips_of_settled hc hcovers hfree (hforward.settled _ rfl) hskip
  | off => cases hnext

/-- A body is entered from its own row, or by a loop at that row whose body is longer. -/
theorem repeats_of_enters (hL : t.layout.Laminar) {k : Construct} (hk : k ∈ t.layout.sites) {b : Body}
    (hb : k.body = some b) {nav : Navigation} (h : t.Leaves row i u nav) (hi : k.index ≠ i)
    (hout : k.covers i = false) (hnext : nav.target = some next) (hj : t.rows[j]? = some next)
    (hcovers : k.covers j = true) :
    nav.reason = .loopBack ∧ ∃ e ∈ t.layout.loops, e.1.index = k.index ∧ e.1.covers i = true ∧
      ∃ b', e.1.body = some b' ∧ b.last < b'.last ∧ nav.target = t.rows[b'.first]? := by
  obtain ⟨hafter, hle⟩ := (hL.covers_body_iff hk hb).mp hcovers
  cases h with
  | @back skippers landing before after p l b' hforward hexits hspent hl hrunning hrepeats hb' =>
      obtain ⟨l', hl', haround, -⟩ := hexits.holds p (List.mem_append_right _ List.mem_cons_self)
      obtain rfl := Option.some.inj (hl.symm.trans hl')
      have he := mem_layout_loops (List.mem_of_getElem? hl)
      rw [layout_finishSkipped] at he
      have hls := Layout.mem_sites_of_loop he
      obtain ⟨hlt, hlast⟩ := (hL.covers_body_iff hls hb').mp haround
      obtain ⟨hfirst, hord, -⟩ := hL.bodies _ hls b' hb'
      obtain rfl := hL.index_inj hnext hj
      dsimp only at hfirst hlt
      have hnot : ¬(k.index < i ∧ i ≤ b.last) := fun hin => by
        rw [(hL.covers_body_iff hk hb).mpr hin] at hout
        cases hout
      have hindex : l.index = k.index := by
        by_contra hne
        -- A loop inside the body would hold no row outside of it.
        have := (hL.inside k hk b hb _ hls b' hb' (show k.index < l.index by omega)
          (show l.index ≤ b.last by omega)).2
        omega
      exact ⟨rfl, _, he, hindex, haround, b', hb', by omega, rfl⟩
  | on hforward =>
      obtain rfl := hL.index_inj hnext hj
      exact absurd (hL.index_of_ahead (hforward.ahead _ rfl) hk hcovers hout) hi
  | off => cases hnext

/-! ### Walks -/

/-- A step back to the start of the body of a loop that is anchored where a construct is and has a longer
body. -/
def Reenters (t : Traversal) (k : Construct) (nav : Navigation) : Prop :=
  nav.reason = .loopBack ∧ ∃ l ∈ t.loops, l.anchor = k.anchor ∧
    t.isInside l.toConstruct nav.source = true ∧
    ∃ b b', k.body = some b ∧ l.body = some b' ∧ b.last < b'.last ∧ nav.target = t.rows[b'.first]?

theorem reenters_of_enters (hL : t.layout.Laminar) (hlayout : u.layout = t.layout) {k : Construct}
    (hk : k ∈ t.layout.sites) {b : Body} (hb : k.body = some b) (hi : u.rows[i]? = some here)
    (hne : here ≠ k.anchor) (hout : k.covers i = false) (hnext : (u.visit here).2.target = some next)
    (hj : u.rows[j]? = some next) (hcovers : k.covers j = true) : t.Reenters k (u.visit here).2 := by
  have hrows : u.rows = t.rows := congrArg Layout.rows hlayout
  have huL : u.layout.Laminar := hlayout.symm ▸ hL
  have hleaves := leaves_visit huL hi
  have harrive := (u.layout_arrive here).trans hlayout
  have hindex : k.index ≠ i := by
    rintro rfl
    have hanchor := hL.anchors k hk
    rw [show t.layout.rows = u.rows from hrows.symm, hi] at hanchor
    exact hne (Option.some.inj hanchor)
  obtain ⟨hreason, e, he, hsame, haround, b', hb', hlonger, htarget⟩ :=
    repeats_of_enters (harrive.symm ▸ hL) (harrive.symm ▸ hk) hb hleaves hindex hout hnext hj hcovers
  rw [harrive] at he
  obtain ⟨l, hl, rfl⟩ := List.mem_map.mp he
  have hanchor : l.anchor = k.anchor := by
    have hl' := hL.anchors _ (mem_sites_of_loops hl)
    rw [show l.index = k.index from hsame, hL.anchors k hk] at hl'
    exact (Option.some.inj hl').symm
  refine ⟨hreason, l, hl, hanchor, ?_, b, b', hb, hb', hlonger, ?_⟩
  · rw [hleaves.source, isInside_eq hL (hrows ▸ hi)]
    exact haround
  · rw [htarget]
    exact congrArg (·[b'.first]?) hrows

/-- The step that leaves the row of a conditional does not enter its body when the code just read is `0`
or there is none. -/
theorem not_covers_of_untaken (hL : t.layout.Laminar) (hi : t.rows[i]? = some row) {p : Nat}
    {c : Conditional} (hc : t.conditionals[p]? = some c) (hbody : c.body.isSome)
    (h : Comes t row navs u c.anchor)
    (huntaken : c.codes[c.pointer + navs.countP fun nav => decide (nav.source = c.anchor)]?.getD
      false = false)
    (hnext : (u.visit c.anchor).2.target = some next) (hj : u.rows[j]? = some next) :
    c.covers j = false := by
  obtain ⟨hlayout, k, hk⟩ := h.layout hL hi
  have huL : u.layout.Laminar := hlayout.symm ▸ hL
  obtain ⟨d, hd, hsite, hcodes⟩ := exists_conditional_of_layout hlayout hc
  have hindex : k = d.index := by
    refine huL.index_inj hk ?_
    rw [huL.anchors _ (mem_sites_of_conditionals (List.mem_of_getElem? hd)), hsite]
  have hmem : d.encounter ∈ (u.arrive c.anchor).conditionals := by
    refine List.mem_map.mpr ⟨d, List.mem_of_getElem? hd, if_pos ?_⟩
    rw [hsite]
  have hskip : d.encounter.decision = .skip := by
    unfold Conditional.encounter Conditional.nextDecision
    rw [hsite, ← Option.not_isSome, hbody, pointer_of_comes hL hi h hc hbody hd, hcodes, huntaken]
    rfl
  have hindex' : k = d.encounter.index := by rw [Conditional.site_encounter, hindex]
  have hleaves := leaves_visit huL hk
  rw [hindex'] at hleaves
  have := not_covers_of_skip ((u.layout_arrive c.anchor).symm ▸ huL) hmem hskip hleaves hnext hj
  rwa [Conditional.site_encounter, hsite] at this

/-- After a visit that does not take a conditional, its body is entered only by a loop that repeats, until
the row is visited again. -/
theorem reenters_of_comes (hL : t.layout.Laminar) (hi : t.rows[i]? = some row) {p : Nat}
    {c : Conditional} (hc : t.conditionals[p]? = some c) (hbody : c.body.isSome)
    (h : Comes t row navs u here) {before between : List Navigation} {nav : Navigation}
    (hnavs : navs = before ++ nav :: between) (hnav : nav.source = c.anchor)
    (hbetween : ∀ other ∈ between, other.source ≠ c.anchor)
    (huntaken : c.codes[c.pointer + before.countP fun nav => decide (nav.source = c.anchor)]?.getD
      false = false) (hj : u.rows[j]? = some here) (hcovers : c.covers j = true) :
    ∃ other ∈ between, t.Reenters c.toConstruct other := by
  obtain ⟨b, hb⟩ := Option.isSome_iff_exists.mp hbody
  have hcs := mem_sites_of_conditionals (List.mem_of_getElem? hc)
  induction h generalizing before between j with
  | start => exact absurd hnavs (by simp)
  | @step navs u here next h hnext ih =>
      obtain ⟨hlayout, k, hk⟩ := h.layout hL hi
      have huL : u.layout.Laminar := hlayout.symm ▸ hL
      have hrows : (u.visit here).1.rows = u.rows := congrArg Layout.rows (layout_visit huL hk)
      have hsource := (leaves_visit huL hk).source
      rw [hrows] at hj
      rcases List.eq_nil_or_concat between with rfl | ⟨rest, last, rfl⟩
      · -- The step from the row itself.
        obtain ⟨rfl, hlast⟩ := List.append_inj' hnavs rfl
        obtain rfl := (List.cons.inj hlast).1
        obtain rfl := hsource.symm.trans hnav
        rw [not_covers_of_untaken hL hi hc hbody h huntaken hnext hj] at hcovers
        cases hcovers
      · rw [List.concat_eq_append, ← List.cons_append, ← List.append_assoc] at hnavs
        obtain ⟨rfl, hlast⟩ := List.append_inj' hnavs rfl
        obtain rfl := (List.cons.inj hlast).1
        rw [List.concat_eq_append] at hbetween ⊢
        cases hout : c.covers k with
        | true =>
            -- The walk was in the body before.
            obtain ⟨other, hmem, hother⟩ := ih rfl
              (fun other hmem => hbetween other (List.mem_append_left _ hmem)) huntaken hk hout
            exact ⟨other, List.mem_append_left _ hmem, hother⟩
        | false =>
            have hlast := List.mem_append_right rest (List.mem_singleton_self (u.visit here).2)
            have hne := hbetween _ hlast
            rw [hsource] at hne
            exact ⟨_, hlast, reenters_of_enters hL hlayout hcs hb hk hne hout hnext hj hcovers⟩

/-- When a conditional reads `0`, or reads past its codes, no row of its body is visited before its own row
is visited again, unless a loop at that row with a longer body repeats in between. -/
theorem loopBack_of_untaken (notes : Array Note) (declared : List (Int × Nat))
    (metadata : List (String × String)) (diagnostics : List Diagnostic) :
    let t := ofChart (Chart.ofParts notes declared metadata diagnostics)
    ∀ c ∈ t.conditionals, c.body.isSome → ∀ (steps : Nat) (before between rest : List Navigation)
      (reading inside : Navigation),
      (t.tour steps).2 = before ++ reading :: between ++ inside :: rest →
      reading.source = c.anchor → (∀ nav ∈ between, nav.source ≠ c.anchor) →
      c.codes[before.countP fun nav => decide (nav.source = c.anchor)]?.getD false = false →
      t.isInside c.toConstruct inside.source = true →
      ∃ nav ∈ between, t.Reenters c.toConstruct nav := by
  intro t c hmem hbody steps before between rest reading inside hnavs hreading hbetween huntaken hinside
  have hc := Chart.indented_ofParts notes declared metadata diagnostics
  have hL : t.layout.Laminar :=
    laminar_ofChart hc (Chart.falling_ofParts notes declared metadata diagnostics)
  obtain ⟨p, hp⟩ := List.getElem?_of_mem hmem
  rw [← Nat.zero_add (before.countP _), ← fresh_conditionals_ofChart hc hmem] at huntaken
  unfold tour at hnavs
  cases hfirst : t.firstRow? with
  | none =>
      rw [hfirst] at hnavs
      exact absurd hnavs (by simp)
  | some row =>
      rw [hfirst] at hnavs
      obtain ⟨u, here, hcomes, hlast⟩ := comes_of_walk hnavs
      obtain ⟨hlayout, j, hj⟩ := hcomes.layout hL hfirst
      have hrows : u.rows = t.rows := congrArg Layout.rows hlayout
      rw [← hlast, (leaves_visit (hlayout.symm ▸ hL) hj).source,
        isInside_eq hL (hrows ▸ hj)] at hinside
      exact reenters_of_comes hL hfirst hp hbody hcomes rfl hreading hbetween huntaken hj hinside

/-- A loop of one pass and, at the same row but deeper, a conditional that is not taken: the body of the
conditional is the first row of the body of the loop. -/
def slantedNotes : Array Note :=
  let plain : Note := ⟨-1, 0.0, .tap, 1.0, 0, 0.0, [], [], [], [], 0⟩
  #[{ plain with loopCodes := [1] },
    { plain with indent := 1, branchCodes := [false] },
    { plain with row := -2, indent := 2 },
    { plain with row := -3, indent := 1 },
    { plain with row := -4 }]

/-- The first row of the chart, which holds the loop and the conditional. -/
theorem ofMembers_slantedNotes :
    Row.ofMembers [] slantedNotes.toList.zipIdx (-1) = ⟨-1, 0, 1.0, [0, 1]⟩ := by
  rw [Row.ofMembers,
    Row.members_of_pairwise (slantedNotes.toList.zipIdx.take 2) rfl (by decide +kernel)]
  rfl

theorem ofParts_slantedNotes :
    Chart.ofParts slantedNotes [] [] [] =
      { notes := slantedNotes
        rows := (⟨-1, 0, 1.0, [0, 1]⟩ ::
          [-2, -3, -4].map (Row.ofMembers [] slantedNotes.toList.zipIdx)).toArray
        metadata := []
        diagnostics := [] } := by
  rw [Chart.ofParts_eq [-1, -2, -3, -4] (by decide +kernel) (by decide), List.map_cons,
    ofMembers_slantedNotes]

/-- The conditional of the chart, before the first visit. -/
def slantedConditional : Conditional :=
  { anchor := -1, index := 0, indent := 1, body := some ⟨1, 1⟩, parent := none
    codes := [false], pointer := 0, decision := .pending }

/-- The loop of the chart. -/
def slantedLoop : Loop := .fresh ⟨-1, 0, 0, some ⟨1, 2⟩, none⟩ [1]

theorem runs_slantedNotes :
    let t := ofChart (Chart.ofParts slantedNotes [] [] [])
    (t.tour 5).2 =
        [⟨-1, some (-3), .branchSkip⟩, ⟨-3, some (-2), .loopBack⟩, ⟨-2, some (-3), .next⟩,
          ⟨-3, some (-4), .next⟩, ⟨-4, none, .stop⟩] ∧
      t.loops = [slantedLoop] ∧ slantedConditional ∈ t.conditionals ∧
      t.isInside slantedConditional.toConstruct (-2) = true := by
  rw [ofParts_slantedNotes]
  decide +kernel

/-- The conditional leads into the middle of the body of the loop, which then goes back to its start. -/
theorem tour_slantedNotes : (tour 5 (ofChart (Chart.ofParts slantedNotes [] [] []))).2 =
    [⟨-1, some (-3), .branchSkip⟩, ⟨-3, some (-2), .loopBack⟩, ⟨-2, some (-3), .next⟩,
      ⟨-3, some (-4), .next⟩, ⟨-4, none, .stop⟩] := runs_slantedNotes.1

theorem loops_slantedNotes :
    (ofChart (Chart.ofParts slantedNotes [] [] [])).loops = [slantedLoop] := runs_slantedNotes.2.1

theorem mem_conditionals_slantedNotes :
    slantedConditional ∈ (ofChart (Chart.ofParts slantedNotes [] [] [])).conditionals :=
  runs_slantedNotes.2.2.1

theorem isInside_slantedNotes :
    (ofChart (Chart.ofParts slantedNotes [] [] [])).isInside slantedConditional.toConstruct (-2) =
      true := runs_slantedNotes.2.2.2

/-- The loop at the row goes back, and with that the first row of the body is visited. -/
theorem reenters_slantedNotes :
    let t := ofChart (Chart.ofParts slantedNotes [] [] [])
    t.isInside slantedConditional.toConstruct (-2) = true ∧
      ∃ nav ∈ [⟨-3, some (-2), .loopBack⟩], t.Reenters slantedConditional.toConstruct nav :=
  ⟨isInside_slantedNotes, loopBack_of_untaken slantedNotes [] [] [] slantedConditional
    mem_conditionals_slantedNotes rfl 5 [] [⟨-3, some (-2), .loopBack⟩]
    [⟨-3, some (-4), .next⟩, ⟨-4, none, .stop⟩] ⟨-1, some (-3), .branchSkip⟩
    ⟨-2, some (-3), .next⟩ tour_slantedNotes rfl (by decide) rfl isInside_slantedNotes⟩

/-- A row in the body of a conditional is visited although its only visit reads `0`. -/
theorem untaken_body_visited :
    let t := ofChart (Chart.ofParts slantedNotes [] [] [])
    ∃ c ∈ t.conditionals, c.body.isSome ∧ c.codes = [false] ∧
      (t.tour 5).2.map Navigation.source = [c.anchor, -3, -2, -3, -4] ∧
      t.isInside c.toConstruct (-2) = true :=
  ⟨slantedConditional, mem_conditionals_slantedNotes, rfl, rfl, by rw [tour_slantedNotes]; rfl,
    isInside_slantedNotes⟩

end Traversal

end RhythmChart
