import RhythmChart.Proofs.Flow.Movement

/-! # Bodies and what is around them

Two bodies of a chart have no row in common, or one holds the other.  What is anchored in a body is deeper
than the construct of that body and has its own body inside it, whether it has one or not.  So the loops
around a row lie in each other, and the innermost of them is the parent of what is anchored there.

Main statements.

* `Body.Maximal`: a body is a longest run of deeper rows;
* `Traversal.apart_or_within`: two bodies do not cross;
* `Traversal.within_of_covers`: what is anchored in a body stays there;
* `Traversal.parent_eq_some_iff`: the parent of a construct is the loop with the smallest body around it;
* `Traversal.bodies_nest`: all of that for every chart. -/

namespace RhythmChart

/-- A body is the longest run of rows right after row index `anchor` that are deeper than `indent`. -/
structure Body.Maximal (b : Body) (rows : Array Row) (anchor indent : Nat) : Prop where
  starts : b.first = anchor + 1
  nonempty : b.first ≤ b.last
  inRange : b.last < rows.size
  deeper : ∀ (i : Nat) (r : Row), b.contains i = true → rows[i]? = some r → indent < r.indent
  ends : ∀ r, rows[b.after]? = some r → r.indent ≤ indent

theorem Body.maximal_of_find {rows : Array Row} {anchor indent : Nat} {b : Body}
    (h : find rows anchor indent = .ok b) : b.Maximal rows anchor indent := by
  obtain ⟨hfirst, hord, hsize, hrun, hend⟩ := find_spec h
  refine ⟨hfirst, hord, hsize, fun i r hi hr => ?_, hend⟩
  obtain ⟨hge, hle⟩ := of_decide_eq_true hi
  obtain ⟨r', hr', hdeep⟩ := hrun i hge hle
  obtain rfl := Option.some.inj (hr.symm.trans hr')
  exact hdeep

namespace Construct

/-- The body of `k` lies in that of `k'`. -/
def Within (k k' : Construct) : Prop := ∀ i, k.covers i = true → k'.covers i = true

/-- The bodies of `k` and `k'` have no row in common. -/
def Apart (k k' : Construct) : Prop := ∀ i, k.covers i = true → k'.covers i = false

end Construct

namespace Traversal

/-- Of all loops whose body holds row index `i`, this one has the smallest body: it lies in all the
others. -/
structure Encloses (t : Traversal) (outer : Loop) (i : Nat) : Prop where
  holds : outer.covers i = true
  smallest : ∀ l ∈ t.loops, l.covers i = true → outer.Within l.toConstruct

variable {t : Traversal} {c : Chart} {k k' : Construct} {i : Nat}

/-! ### Two bodies -/

theorem within_of_index_eq (h : t.layout.Laminar) (hk : k ∈ t.layout.sites) (hk' : k' ∈ t.layout.sites)
    {b b' : Body} (hb : k.body = some b) (hb' : k'.body = some b') (hindex : k.index = k'.index)
    (hle : b.last ≤ b'.last) : k.Within k' := by
  intro i hi
  obtain ⟨hlt, hlast⟩ := (h.covers_body_iff hk hb).mp hi
  exact (h.covers_body_iff hk' hb').mpr ⟨by omega, by omega⟩

/-- A construct anchored in a body has its own body there. -/
theorem within_of_anchored (h : t.layout.Laminar) (hk : k ∈ t.layout.sites)
    (hk' : k' ∈ t.layout.sites) (hcovers : k'.covers k.index = true) : k.Within k' := by
  intro i hi
  obtain ⟨b, hb, hlt, hlast⟩ := (h.covers_iff hk).mp hi
  obtain ⟨b', hb', hlt', hlast'⟩ := (h.covers_iff hk').mp hcovers
  have hinside := (h.inside k' hk' b' hb' k hk b hb hlt' hlast').2
  exact (h.covers_body_iff hk' hb').mpr ⟨by omega, by omega⟩

/-- A body that does not hold the row of a later construct ends before it. -/
theorem apart_of_not_covers (h : t.layout.Laminar) (hk : k ∈ t.layout.sites)
    (hk' : k' ∈ t.layout.sites) (hlt : k'.index < k.index) (hnot : k'.covers k.index = false) :
    k.Apart k' := by
  intro i hi
  rw [← Bool.not_eq_true]
  intro hi'
  obtain ⟨-, -, hless, -⟩ := (h.covers_iff hk).mp hi
  obtain ⟨b', hb', -, hlast'⟩ := (h.covers_iff hk').mp hi'
  rw [(h.covers_body_iff hk' hb').mpr ⟨hlt, by omega⟩] at hnot
  cases hnot

/-- Two bodies have no row in common, or one of them lies in the other. -/
theorem apart_or_within (h : t.layout.Laminar) (hk : k ∈ t.layout.sites) (hk' : k' ∈ t.layout.sites) :
    k.Apart k' ∨ k.Within k' ∨ k'.Within k := by
  have hlater : ∀ {k k' : Construct}, k ∈ t.layout.sites → k' ∈ t.layout.sites → k'.index < k.index →
      k.Apart k' ∨ k.Within k' := by
    intro k k' hk hk' hlt
    cases hcovers : k'.covers k.index with
    | true => exact .inr (within_of_anchored h hk hk' hcovers)
    | false => exact .inl (apart_of_not_covers h hk hk' hlt hcovers)
  rcases Nat.lt_trichotomy k'.index k.index with hlt | heq | hlt
  · exact (hlater hk hk' hlt).imp_right .inl
  · cases hb : k.body with
    | none => exact .inl fun i hi => by simp [Construct.covers, hb] at hi
    | some b =>
        cases hb' : k'.body with
        | none => exact .inl fun i _ => by simp [Construct.covers, hb']
        | some b' =>
            rcases Nat.le_total b.last b'.last with hle | hle
            · exact .inr (.inl (within_of_index_eq h hk hk' hb hb' heq.symm hle))
            · exact .inr (.inr (within_of_index_eq h hk' hk hb' hb heq hle))
  · refine (hlater hk' hk hlt).imp (fun hapart i hi => ?_) .inr
    rw [← Bool.not_eq_true]
    intro hi'
    rw [hapart i hi'] at hi
    cases hi

/-! ### What is anchored in a body -/

/-- A construct anchored in a body is deeper than that of the body, because the rows there are, and has its
own body inside. -/
theorem within_of_covers (hc : c.Indented) (h : (ofChart c).layout.Laminar)
    (hk : k ∈ (ofChart c).layout.sites) (hk' : k' ∈ (ofChart c).layout.sites)
    (hcovers : k'.covers k.index = true) : k.Within k' ∧ k'.indent < k.indent := by
  refine ⟨within_of_anchored h hk hk' hcovers, ?_⟩
  obtain ⟨b', hb', hfirst, hlast⟩ := (Construct.covers_iff _ _).mp hcovers
  obtain ⟨r, hr, -, hindent⟩ := (registered_sites hc hk).row
  have hmaximal := Body.maximal_of_find ((registered_sites hc hk').body b' hb')
  exact Nat.lt_of_lt_of_le (hmaximal.deeper k.index r (decide_eq_true ⟨hfirst, hlast⟩) hr) hindent

/-! ### Parents -/

/-- A loop is directly around a construct when its body is the smallest that holds the anchor. -/
theorem directlyAround_iff_encloses (h : t.layout.Laminar) {p : Nat} {outer : Loop}
    (hp : t.loops[p]? = some outer) :
    t.layout.DirectlyAround outer.toConstruct k ↔ t.Encloses outer k.index := by
  have hos := mem_sites_of_loops (List.mem_of_getElem? hp)
  constructor
  · rintro ⟨hcovers, hnone⟩
    refine ⟨hcovers, fun l hl hl' => ?_⟩
    have hls := mem_sites_of_loops hl
    rcases Nat.lt_trichotomy l.index outer.index with hlt | heq | hlt
    · exact within_of_anchored h hos hls (h.inside_of_covers hls hos hl' hcovers hlt).2
    · obtain ⟨q, hq⟩ := List.getElem?_of_mem hl
      obtain rfl := h.loop_place_inj (getElem?_layout_loops hq) (getElem?_layout_loops hp) heq
      obtain rfl := Option.some.inj (hq.symm.trans hp)
      exact fun _ hi => hi
    · have := (h.inside_of_covers hos hls hcovers hl' hlt).2
      rw [hnone _ (mem_layout_loops hl) hl'] at this
      cases this
  · rintro ⟨hcovers, hsmallest⟩
    refine ⟨hcovers, fun e he hcovers' => ?_⟩
    obtain ⟨l, hl, rfl⟩ := List.mem_map.mp he
    rw [← Bool.not_eq_true]
    intro hinside
    -- The body of a loop does not hold its own anchor.
    obtain ⟨-, -, hlt, -⟩ := (h.covers_iff (mem_sites_of_loops hl)).mp
      (hsmallest l hl hcovers' l.index hinside)
    exact lt_irrefl _ hlt

/-- Every construct of a chart looks for its parent among the loops that were read. -/
theorem parent_of_mem_sites (hk : k ∈ (ofChart c).layout.sites) :
    k.parent = enclosing? (readLoops c) k.index k.indent := by
  rcases List.mem_append.mp hk with hk | hk
  · obtain ⟨e, he, rfl⟩ := List.mem_map.mp hk
    obtain ⟨l, hl, rfl⟩ := List.mem_map.mp he
    rw [loops_ofChart] at hl
    obtain ⟨l, -, rfl⟩ := List.mem_map.mp hl
    rfl
  · obtain ⟨e, he, rfl⟩ := List.mem_map.mp hk
    obtain ⟨b, hb, rfl⟩ := List.mem_map.mp he
    rw [conditionals_ofChart] at hb
    obtain ⟨b, -, rfl⟩ := List.mem_map.mp hb
    rfl

/-- The parent of a construct is the loop with the smallest body that holds its anchor. -/
theorem parent_eq_some_iff (hc : c.Indented) (h : (ofChart c).layout.Laminar)
    (hk : k ∈ (ofChart c).layout.sites) (p : Nat) :
    k.parent = some p ↔
      ∃ outer, (ofChart c).loops[p]? = some outer ∧ (ofChart c).Encloses outer k.index := by
  rw [parent_of_mem_sites hk, enclosing?_eq_some_iff h fun l hl hcovers =>
    (within_of_covers hc h hk (Layout.mem_sites_of_loop hl) hcovers).2]
  constructor
  · rintro ⟨e, he, haround⟩
    obtain ⟨outer, hp, rfl⟩ := Option.map_eq_some_iff.mp (List.getElem?_map ▸ he)
    exact ⟨outer, hp, (directlyAround_iff_encloses h hp).mp haround⟩
  · rintro ⟨outer, hp, hencloses⟩
    exact ⟨_, getElem?_layout_loops hp, (directlyAround_iff_encloses h hp).mpr hencloses⟩

/-- A construct has a parent when any loop body holds its anchor: the last of these loops is the innermost
one. -/
theorem isSome_parent_iff_covers (hc : c.Indented) (h : (ofChart c).layout.Laminar)
    (hk : k ∈ (ofChart c).layout.sites) :
    k.parent.isSome = true ↔ ∃ l ∈ (ofChart c).loops, l.covers k.index = true := by
  constructor
  · intro hsome
    obtain ⟨p, hp⟩ := Option.isSome_iff_exists.mp hsome
    obtain ⟨outer, houter, hencloses⟩ := (parent_eq_some_iff hc h hk p).mp hp
    exact ⟨outer, List.mem_of_getElem? houter, hencloses.holds⟩
  · rintro ⟨l, hl, hcovers⟩
    have hdeep := (within_of_covers hc h hk (mem_sites_of_loops hl) hcovers).2
    rw [parent_of_mem_sites hk, enclosing?, Option.isSome_map]
    rw [loops_ofChart] at hl
    obtain ⟨l, hread, rfl⟩ := List.mem_map.mp hl
    by_contra hnone
    have hfails := innermost?_eq_none_iff.mp (Option.not_isSome_iff_eq_none.mp hnone) l hread
    rw [Bool.and_eq_false_iff, decide_eq_false_iff_not] at hfails
    rcases hfails with hfails | hfails
    · exact hfails hdeep
    · rw [show l.covers k.index = true from hcovers] at hfails
      cases hfails

/-! ### Charts -/

/-- In the traversal of a chart every body is the longest run of rows right after its anchor that are deeper
than its construct; two bodies have no row in common, or one lies in the other; what is anchored in a body
has its own body inside and is deeper; and a construct has a parent when a loop body holds its anchor,
namely the loop with the smallest such body. -/
theorem bodies_nest (notes : Array Note) (declared : List (Int × Nat))
    (metadata : List (String × String)) (diagnostics : List Diagnostic) :
    let c := Chart.ofParts notes declared metadata diagnostics
    let t := ofChart c
    (∀ k ∈ t.layout.sites, (∃ r, c.rows[k.index]? = some r ∧ r.id = k.anchor) ∧
      ∀ b, k.body = some b → b.Maximal c.rows k.index k.indent) ∧
    (∀ k ∈ t.layout.sites, ∀ k' ∈ t.layout.sites, k.Apart k' ∨ k.Within k' ∨ k'.Within k) ∧
    (∀ k ∈ t.layout.sites, ∀ k' ∈ t.layout.sites, k'.covers k.index = true →
      k.Within k' ∧ k'.indent < k.indent) ∧
    ∀ k ∈ t.layout.sites,
      (k.parent.isSome = true ↔ ∃ l ∈ t.loops, l.covers k.index = true) ∧
      ∀ p, k.parent = some p ↔ ∃ outer, t.loops[p]? = some outer ∧ t.Encloses outer k.index := by
  intro c t
  have hc : c.Indented := Chart.indented_ofParts notes declared metadata diagnostics
  have hL : t.layout.Laminar :=
    laminar_ofChart hc (Chart.falling_ofParts notes declared metadata diagnostics)
  refine ⟨fun k hk => ?_, fun k hk k' hk' => apart_or_within hL hk hk',
    fun k hk k' hk' => within_of_covers hc hL hk hk', fun k hk =>
      ⟨isSome_parent_iff_covers hc hL hk, parent_eq_some_iff hc hL hk⟩⟩
  have hregistered := registered_sites hc hk
  obtain ⟨r, hr, hanchor, -⟩ := hregistered.row
  exact ⟨⟨r, hr, hanchor⟩, fun b hb => Body.maximal_of_find (hregistered.body b hb)⟩

end Traversal

end RhythmChart
