import RhythmChart.Proofs.Flow.Ending
import RhythmChart.Proofs.Flow.Untaken

/-! # Passes of an outermost loop

A loop that lies in no other loop plays the sum of its codes.  A pass is used up by navigation that comes
to the first row of the body.  A conditional at the row of the loop whose body is shorter may lead into the
middle of the body instead; then no pass is used up, and the body is played once more.

Main statements.

* `Traversal.exits`: how often a body is left at its end;
* `Traversal.leaves_inside`: what a step from a row of the body does;
* `Traversal.Phase`: how far a walk is with the loop;
* `Traversal.phase_visit`: every step keeps the books;
* `Traversal.exits_of_outermost`: how often the body is left, and when the loop is exhausted. -/

namespace RhythmChart

namespace Loop

/-- The sum of the codes of a loop, cut to 32 bits. -/
def codeSum (l : Loop) : Nat := l.codes.foldl addCounts 0

theorem codeSum_le (l : Loop) : l.codeSum ≤ Number.maxCount := by
  have := foldl_addCounts l.codes 0
  rw [Nat.zero_min] at this
  rw [codeSum, this]
  exact Nat.min_le_right _ _

end Loop

namespace Traversal

/-- Whether a step leaves a body at its end: it goes back to the first row of the body, or out of it. -/
def leavesBody (t : Traversal) (k : Construct) (nav : Navigation) : Bool :=
  t.isInside k nav.source &&
    nav.target.all fun next => !t.isInside k next || (t.rowIndex? next).any k.startsAt

/-- How often the body of a construct is left at its end. -/
def exits (t : Traversal) (k : Construct) (navs : List Navigation) : Nat :=
  navs.countP (t.leavesBody k)

/-- The first row of the body of a construct that is visited. -/
def entryRow? (t : Traversal) (k : Construct) (navs : List Navigation) : Option Int :=
  (navs.map Navigation.source).find? (t.isInside k)

/-- How often the body of an outermost loop is left when `entry` is the first row of it that is
visited. -/
def passTotal (t : Traversal) (l : Loop) (entry : Int) : Nat :=
  if (t.rowIndex? entry).any l.startsAt then l.codeSum else l.codeSum + 1

variable {t u v : Traversal} {i j : Nat} {row here next : Int} {navs : List Navigation}

/-! ### Counting -/

theorem entryRow?_snoc (k : Construct) (nav : Navigation) :
    t.entryRow? k (navs ++ [nav]) = (t.entryRow? k navs).or
      (if t.isInside k nav.source then some nav.source else none) := by
  unfold entryRow?
  rw [List.map_append, List.find?_append, List.map_singleton, List.find?_singleton]

theorem exits_snoc (k : Construct) (nav : Navigation) :
    t.exits k (navs ++ [nav]) = t.exits k navs + if t.leavesBody k nav then 1 else 0 := by
  unfold exits
  rw [List.countP_append, List.countP_singleton]

theorem entryRow?_snoc_outside {k : Construct} {nav : Navigation}
    (h : t.isInside k nav.source = false) : t.entryRow? k (navs ++ [nav]) = t.entryRow? k navs := by
  rw [entryRow?_snoc, h, if_neg Bool.false_ne_true, Option.or_none]

theorem exits_snoc_outside {k : Construct} {nav : Navigation} (h : t.isInside k nav.source = false) :
    t.exits k (navs ++ [nav]) = t.exits k navs := by
  rw [exits_snoc, leavesBody, h, Bool.false_and, if_neg Bool.false_ne_true, Nat.add_zero]

theorem exits_snoc_of_leaves (navs : List Navigation) {k : Construct} {nav : Navigation}
    (h : t.leavesBody k nav = true) :
    t.exits k (navs ++ [nav]) = t.exits k navs + 1 := by
  rw [exits_snoc, h, if_pos rfl]

theorem exits_snoc_of_stays (navs : List Navigation) {k : Construct} {nav : Navigation}
    (h : t.leavesBody k nav = false) :
    t.exits k (navs ++ [nav]) = t.exits k navs := by
  rw [exits_snoc, h, if_neg Bool.false_ne_true, Nat.add_zero]

/-! ### Steps -/

/-- A loop that is in no other loop. -/
structure Outermost (t : Traversal) (p : Nat) (l : Loop) (b : Body) : Prop where
  loop : t.loops[p]? = some l
  body : l.body = some b
  alone : ∀ m ∈ t.loops, m.covers l.index = false
  parent : l.parent = none

theorem Outermost.mem_sites {p : Nat} {l : Loop} {b : Body} (h : t.Outermost p l b) :
    l.toConstruct ∈ t.layout.sites := mem_sites_of_loops (List.mem_of_getElem? h.loop)

theorem Outermost.covers_iff {p : Nat} {l : Loop} {b : Body} (h : t.Outermost p l b)
    (hL : t.layout.Laminar) : l.covers i = true ↔ l.index < i ∧ i ≤ b.last :=
  hL.covers_body_iff h.mem_sites h.body

/-- Another loop around a row of the body is inside the body. -/
theorem Outermost.index_lt {p q : Nat} {l m : Loop} {b : Body} (h : t.Outermost p l b)
    (hL : t.layout.Laminar) (hm : t.loops[q]? = some m) (hne : q ≠ p) (hl : l.covers i = true)
    (hi : m.covers i = true) : l.index < m.index := by
  have hls := h.mem_sites
  have hmem := List.mem_of_getElem? hm
  rcases Nat.lt_trichotomy l.index m.index with hlt | heq | hlt
  · exact hlt
  · exact absurd (hL.loop_place_inj (getElem?_layout_loops hm) (getElem?_layout_loops h.loop) heq.symm)
      hne
  · have := (hL.inside_of_covers (mem_sites_of_loops hmem) hls hi hl hlt).2
    rw [h.alone m hmem] at this
    cases this

/-- A step from another row outside the body does not change the loop. -/
theorem getElem?_leaves_outside (hL : t.layout.Laminar) {p : Nat} {l : Loop} {nav : Navigation}
    (h : t.Leaves row i u nav) (hl : t.loops[p]? = some l) (hparent : l.parent = none)
    (hout : l.covers i = false) (hne : l.index ≠ i) : u.loops[p]? = some l := by
  have hnot : ∀ {skippers landing places}, t.Forward i skippers landing →
      (t.finishSkipped skippers).Exits i landing places →
      (t.finishSkipped skippers).loops[p]? = some l ∧ p ∉ places := by
    intro skippers landing places hforward hexits
    have hskipped := hforward.getElem?_finishSkipped hl hne
    refine ⟨hskipped, fun hp => ?_⟩
    obtain ⟨m, hm, hcovers, -⟩ := hexits.holds p hp
    obtain rfl := Option.some.inj (hskipped.symm.trans hm)
    rw [hout] at hcovers
    cases hcovers
  cases h with
  | @back skippers landing before after q m b hforward hexits =>
      obtain ⟨hskipped, hp⟩ := hnot hforward hexits
      have hp' : p ∉ before ++ [q] := by
        rw [List.mem_append, List.mem_singleton]
        rintro (hmem | rfl)
        · exact hp (List.mem_append_left _ hmem)
        · exact hp (List.mem_append_right _ List.mem_cons_self)
      rw [getElem?_nextPass, getElem?_closing_of_not_mem hp', hskipped, Option.map_some, hparent,
        if_neg (Option.some_ne_none q).symm]
  | @on skippers j places reason hforward hexits =>
      obtain ⟨hskipped, hp⟩ := hnot hforward hexits
      have hstart : l.startsAt j = false := by
        rw [← Bool.not_eq_true]
        intro hstarts
        have hmem := List.mem_of_getElem? hl
        obtain ⟨hsome, hj⟩ := (startsAt_iff hL hmem j).mp hstarts
        obtain ⟨b, hb⟩ := Option.isSome_iff_exists.mp hsome
        obtain ⟨hfirst, hord, -⟩ := hL.bodies _ (mem_sites_of_loops hmem) b hb
        have hcovers := (hL.covers_body_iff (mem_sites_of_loops hmem) hb).mpr
          ⟨show l.index < j by omega, by omega⟩
        exact hne (hL.index_of_ahead (hforward.ahead j rfl) (mem_sites_of_loops hmem) hcovers hout)
      rw [getElem?_enterBodies, getElem?_closing_of_not_mem hp, hskipped, Option.map_some, hstart,
        Bool.false_and, Bool.false_and, if_neg Bool.false_ne_true]
  | off hforward hexits =>
      obtain ⟨hskipped, hp⟩ := hnot hforward hexits
      rw [getElem?_closing_of_not_mem hp, hskipped]

theorem Outermost.finishSkipped {p : Nat} {l : Loop} {b : Body} (h : t.Outermost p l b)
    (hcovers : l.covers i = true) (hL : t.layout.Laminar) {skippers : List Skipper}
    {landing : Option Nat} (hforward : t.Forward i skippers landing) :
    (t.finishSkipped skippers).Outermost p l b where
  loop := by
    obtain ⟨hlt, -⟩ := (h.covers_iff hL).mp hcovers
    exact hforward.getElem?_finishSkipped h.loop (Nat.ne_of_lt hlt)
  body := h.body
  alone m hm := by
    obtain ⟨q, hq⟩ := List.getElem?_of_mem hm
    obtain ⟨m', hm', hsite, -⟩ := exists_loop_of_layout (t.layout_finishSkipped skippers).symm hq
    rw [← hsite]
    exact h.alone m' (List.mem_of_getElem? hm')
  parent := h.parent

/-- Another loop that holds a row of the body begins its own body later in it. -/
theorem Outermost.first_inside {p q : Nat} {l m : Loop} {b c : Body} (h : t.Outermost p l b)
    (hL : t.layout.Laminar) (hm : t.loops[q]? = some m) (hne : q ≠ p) (hc : m.body = some c)
    (hl : l.covers i = true) (hi : m.covers i = true) : b.first < c.first ∧ c.first ≤ b.last := by
  have hinside := h.index_lt hL hm hne hl hi
  have hms := mem_sites_of_loops (List.mem_of_getElem? hm)
  obtain ⟨hlt, -⟩ := (hL.covers_body_iff hms hc).mp hi
  obtain ⟨-, hlast⟩ := (h.covers_iff hL).mp hl
  obtain ⟨hfirst, -, -⟩ := hL.bodies _ h.mem_sites b h.body
  obtain ⟨hcfirst, -, -⟩ := hL.bodies _ hms c hc
  omega

/-- No loop that ends its pass before another one is around it, so that it is not the outermost. -/
theorem Outermost.not_mem_before {p q : Nat} {l m : Loop} {b : Body} (h : t.Outermost p l b)
    (hL : t.layout.Laminar) {landing : Option Nat} {before after : List Nat}
    (hexits : t.Exits i landing (before ++ q :: after)) (hm : t.loops[q]? = some m)
    (hl : l.covers i = true) (hi : m.covers i = true) : p ∉ before := by
  intro hp
  have hinner := (List.pairwise_append.mp hexits.inner).2.2 p hp q List.mem_cons_self l m h.loop hm
  have hne : q ≠ p := by
    rintro rfl
    obtain rfl := Option.some.inj (hm.symm.trans h.loop)
    exact lt_irrefl _ hinner
  exact Nat.lt_asymm hinner (h.index_lt hL hm hne hl hi)

/-- What a step from a row of the body does: the loop repeats, or the body is not left at its end, or the
loop is finished. -/
theorem leaves_inside (hL : t.layout.Laminar) (hgapless : t.layout.Gapless) {p : Nat} {l : Loop}
    {b : Body} (ho : t.Outermost p l b) (hrunning : l.visit = .running) {nav : Navigation}
    (h : t.Leaves row i u nav) (hcovers : l.covers i = true) :
    (nav.target = t.rows[b.first]? ∧ l.repeats = true ∧ u.loops[p]? = some l.finishPass) ∨
      (∃ j, nav.target = t.rows[j]? ∧ b.first < j ∧ j ≤ b.last ∧ u.loops[p]? = some l) ∨
      (l.repeats = false ∧ u.loops[p]? = some l.finishPass ∧
        (nav.target = none ∨ ∃ j, nav.target = t.rows[j]? ∧ b.last < j ∧ j < t.rows.size)) := by
  obtain ⟨hlt, hlast⟩ := (ho.covers_iff hL).mp hcovers
  obtain ⟨hfirst, -, -⟩ := hL.bodies _ ho.mem_sites b ho.body
  cases h with
  | @back skippers landing before after q m c hforward hexits hspent hm hmrunning hrepeats hc =>
      have ho' := ho.finishSkipped hcovers hL hforward
      have hL' : (t.finishSkipped skippers).layout.Laminar := (t.layout_finishSkipped skippers).symm ▸ hL
      obtain ⟨m', hm', hmcovers, -⟩ := hexits.holds q (List.mem_append_right _ List.mem_cons_self)
      obtain rfl := Option.some.inj (hm.symm.trans hm')
      rw [getElem?_nextPass, getElem?_closing, ho'.loop, Option.map_some, Option.map_some]
      by_cases hq : q = p
      · obtain rfl := hq
        obtain rfl := Option.some.inj (hm.symm.trans ho'.loop)
        obtain rfl := Option.some.inj (ho.body.symm.trans hc)
        have hcloses : q ∈ before ++ [q] ∧ m.visit = .running :=
          ⟨List.mem_append_right _ (List.mem_singleton_self q), hrunning⟩
        rw [if_pos hcloses, Loop.site_finishPass, ho.parent, if_neg (Option.some_ne_none q).symm]
        exact .inl ⟨rfl, hrepeats, rfl⟩
      · have hcloses : ¬(p ∈ before ++ [q] ∧ l.visit = .running) := by
          rintro ⟨hp, -⟩
          rcases List.mem_append.mp hp with hp | hp
          · exact ho'.not_mem_before hL' hexits hm hcovers hmcovers hp
          · exact hq (List.mem_singleton.mp hp).symm
        obtain ⟨hcfirst, hclast⟩ := ho'.first_inside hL' hm hq hc hcovers hmcovers
        rw [if_neg hcloses, ho.parent, if_neg (Option.some_ne_none q).symm]
        exact .inr (.inl ⟨c.first, rfl, hcfirst, hclast, rfl⟩)
  | @on skippers j places reason hforward hexits hspent =>
      have ho' := ho.finishSkipped hcovers hL hforward
      have hij := hL.lt_of_ahead (hforward.ahead j rfl)
      have henter : ∀ m : Loop, m.toConstruct = l.toConstruct →
          (m.startsAt j && !m.covers i && !m.blocksEntry) = false := by
        intro m hm
        rw [hm, hcovers, Bool.not_true, Bool.and_false, Bool.false_and]
      rw [getElem?_enterBodies, getElem?_closing, ho'.loop, Option.map_some, Option.map_some]
      cases hj : l.covers j with
      | true =>
          have hcloses : ¬(p ∈ places ∧ l.visit = .running) := by
            rintro ⟨hp, -⟩
            obtain ⟨m, hm, -, hnot⟩ := hexits.holds p hp
            obtain rfl := Option.some.inj (hm.symm.trans ho'.loop)
            rw [hnot j rfl] at hj
            cases hj
          rw [if_neg hcloses, henter l rfl, if_neg Bool.false_ne_true]
          exact .inr (.inl ⟨j, rfl, by omega, ((ho.covers_iff hL).mp hj).2, rfl⟩)
      | false =>
          have hp := hexits.all ((t.layout_finishSkipped skippers).symm ▸ hgapless) p l ho'.loop hcovers
            fun k hk => Option.some.inj hk ▸ hj
          have hjlast : b.last < j := by
            rw [← Bool.not_eq_true, ho.covers_iff hL] at hj
            omega
          have hcloses : p ∈ places ∧ l.visit = .running := ⟨hp, hrunning⟩
          rw [if_pos hcloses, henter _ (Loop.site_finishPass l), if_neg Bool.false_ne_true]
          exact .inr (.inr ⟨hspent p hp l ho'.loop hrunning, rfl,
            .inr ⟨j, rfl, hjlast, hforward.inRange j rfl⟩⟩)
  | @off skippers places reason hforward hexits hspent =>
      have ho' := ho.finishSkipped hcovers hL hforward
      have hp := hexits.all ((t.layout_finishSkipped skippers).symm ▸ hgapless) p l ho'.loop hcovers
        fun k hk => nomatch hk
      have hcloses : p ∈ places ∧ l.visit = .running := ⟨hp, hrunning⟩
      rw [getElem?_closing, ho'.loop, Option.map_some, if_pos hcloses]
      exact .inr (.inr ⟨hspent p hp l ho'.loop hrunning, rfl, .inl rfl⟩)

/-- Nothing leads back from past the body, or from its row, into the body. -/
theorem past_of_leaves (hL : t.layout.Laminar) {p : Nat} {l : Loop} {b : Body}
    (ho : t.Outermost p l b) {nav : Navigation} (h : t.Leaves row i u nav) (hi : b.last < i)
    (hnext : nav.target = some next) (hj : t.rows[j]? = some next) : b.last < j := by
  have hls := ho.mem_sites
  cases h with
  | @back skippers landing before after q m c hforward hexits hspent hm hrunning hrepeats hc =>
      obtain ⟨m', hm', hcovers, -⟩ := hexits.holds q (List.mem_append_right _ List.mem_cons_self)
      obtain rfl := Option.some.inj (hm.symm.trans hm')
      obtain ⟨n, hn, hsite, -⟩ := exists_loop_of_layout (t.layout_finishSkipped skippers).symm hm
      rw [← hsite] at hc hcovers
      have hnmem := List.mem_of_getElem? hn
      have hns := mem_sites_of_loops hnmem
      obtain ⟨hlt, hlast⟩ := (hL.covers_body_iff hns hc).mp hcovers
      obtain ⟨hfirst, hord, -⟩ := hL.bodies _ hns c hc
      obtain ⟨hfirst', hord', -⟩ := hL.bodies _ hls b ho.body
      obtain rfl := hL.index_inj hnext hj
      have halone : ¬(n.index < l.index ∧ l.index ≤ c.last) := fun hin => by
        have := ho.alone n hnmem
        rw [(hL.covers_body_iff hns hc).mpr hin] at this
        cases this
      have hne : n.index ≠ l.index := by
        intro heq
        obtain rfl := hL.loop_place_inj (getElem?_layout_loops hn) (getElem?_layout_loops ho.loop) heq
        obtain rfl := Option.some.inj (hn.symm.trans ho.loop)
        obtain rfl := Option.some.inj (hc.symm.trans ho.body)
        omega
      have hinside : l.index < n.index → n.index ≤ b.last → c.last ≤ b.last := fun h1 h2 =>
        (hL.inside _ hls b ho.body _ hns c hc h1 h2).2
      omega
  | on hforward =>
      obtain rfl := hL.index_inj hnext hj
      have := hL.lt_of_ahead (hforward.ahead _ rfl)
      omega
  | off => cases hnext

/-- From a row before the loop, navigation stays there, comes to the row of the loop or passes the body. -/
theorem ahead_of_leaves (hL : t.layout.Laminar) {p : Nat} {l : Loop} {b : Body}
    (ho : t.Outermost p l b) {nav : Navigation} (h : t.Leaves row i u nav) (hi : i < l.index)
    (hnext : nav.target = some next) (hj : t.rows[j]? = some next) : j ≤ l.index ∨ b.last < j := by
  have hls := ho.mem_sites
  cases h with
  | @back skippers landing before after q m c hforward hexits hspent hm hrunning hrepeats hc =>
      obtain ⟨m', hm', hcovers, -⟩ := hexits.holds q (List.mem_append_right _ List.mem_cons_self)
      obtain rfl := Option.some.inj (hm.symm.trans hm')
      obtain ⟨c', hc', hfirst, -⟩ := (Construct.covers_iff _ _).mp hcovers
      obtain rfl := Option.some.inj (hc.symm.trans hc')
      obtain rfl := hL.index_inj hnext hj
      omega
  | on hforward =>
      obtain rfl := hL.index_inj hnext hj
      exact hL.ahead_of_lt (hforward.ahead _ rfl) hls ho.body hi
  | off => cases hnext

/-- The body is entered from the row of the loop only if the loop has passes left, and that uses up a pass
only at the first row. -/
theorem leaves_anchor (hL : t.layout.Laminar) {p : Nat} {l : Loop} {b : Body}
    (ho : t.Outermost p l b) {nav : Navigation} (h : t.Leaves row l.index u nav)
    (hnext : nav.target = some next) (hj : t.rows[j]? = some next) :
    t.layout.Ahead l.index j ∧ (l.covers j = true → l.blocksEntry = false ∧
      u.loops[p]? = some (if l.startsAt j then l.enterBody else l)) := by
  have hmem := List.mem_of_getElem? ho.loop
  have hout := hL.not_covers_of_le (mem_sites_of_loops hmem) (Nat.le_refl _)
  cases h with
  | @back skippers landing before after q m c hforward hexits hspent hm =>
      -- No loop is around the row.
      obtain ⟨m', hm', hcovers, -⟩ := hexits.holds q (List.mem_append_right _ List.mem_cons_self)
      obtain ⟨n, hn, hsite, -⟩ := exists_loop_of_layout (t.layout_finishSkipped skippers).symm hm'
      rw [← hsite, ho.alone n (List.mem_of_getElem? hn)] at hcovers
      cases hcovers
  | @on skippers k places reason hforward hexits =>
      obtain rfl := hL.index_inj hnext hj
      refine ⟨hforward.ahead k rfl, fun hcovers => ?_⟩
      have hfree := blocksEntry_of_settled hmem hcovers hout (hforward.settled k rfl)
      have hskipped := hforward.blocked.getElem?_finishSkipped ho.loop fun _ => hfree
      have hp : p ∉ places := by
        intro hp
        obtain ⟨m, hm, haround, -⟩ := hexits.holds p hp
        obtain rfl := Option.some.inj (hskipped.symm.trans hm)
        rw [hout] at haround
        cases haround
      refine ⟨hfree, ?_⟩
      rw [getElem?_enterBodies, getElem?_closing_of_not_mem hp, hskipped, Option.map_some, hout, hfree,
        Bool.not_false, Bool.and_true, Bool.and_true]
  | off => cases hnext

/-! ### Phases -/

/-- The body of an outermost loop is entered at its first row, or right after the body of a conditional at
the row of the loop. -/
def EnteredAt (t : Traversal) (l : Loop) (entry : Int) : Prop :=
  (t.rowIndex? entry).any l.startsAt = true ∨
    ∃ c ∈ t.conditionals, c.anchor = l.anchor ∧ ∃ b, c.body = some b ∧ t.rowIndex? entry = some b.after

/-- The place that a step comes to. -/
def destination? (t : Traversal) (nav : Navigation) : Option Nat := nav.target.bind t.rowIndex?

/-- How far a walk is with an outermost loop, after the steps `navs` and before it visits the row at a
place, if it goes on: before the loop, in its body, past the body without having been in it, or past the
body and done. -/
inductive Phase (t : Traversal) (l₀ : Loop) (b : Body) :
    List Navigation → Loop → Option Nat → Prop where
  | ahead {navs : List Navigation} {i : Nat} (hi : i ≤ l₀.index)
      (hentry : t.entryRow? l₀.toConstruct navs = none) (hexits : t.exits l₀.toConstruct navs = 0) :
      Phase t l₀ b navs l₀ (some i)
  | inside {navs : List Navigation} {l : Loop} {i : Nat} (hfirst : b.first ≤ i) (hlast : i ≤ b.last)
      (hrunning : l.visit = .running) (hopen : l.exhausted = false)
      (hruns : l.runs = t.exits l₀.toConstruct navs)
      (htotal : ∀ entry, (t.entryRow? l₀.toConstruct navs).or t.rows[i]? = some entry →
        t.EnteredAt l₀ entry ∧
          t.passTotal l₀ entry = t.exits l₀.toConstruct navs + l.passesLeft + 1) :
      Phase t l₀ b navs l (some i)
  | missed {navs : List Navigation} {l : Loop} {place : Option Nat}
      (hplace : ∀ i, place = some i → b.last < i)
      (hentry : t.entryRow? l₀.toConstruct navs = none) : Phase t l₀ b navs l place
  | done {navs : List Navigation} {l : Loop} {place : Option Nat} {entry : Int}
      (hplace : ∀ i, place = some i → b.last < i)
      (hentry : t.entryRow? l₀.toConstruct navs = some entry) (hentered : t.EnteredAt l₀ entry)
      (hexhausted : l.exhausted = true) (hpos : 0 < t.passTotal l₀ entry)
      (hexits : t.exits l₀.toConstruct navs = t.passTotal l₀ entry)
      (hruns : l.runs = min (t.passTotal l₀ entry) Number.maxCount) : Phase t l₀ b navs l place

theorem passTotal_bounds (l : Loop) (entry : Int) :
    t.passTotal l entry ≤ Number.maxCount + 1 := by
  have := l.codeSum_le
  unfold passTotal
  split_ifs <;> omega

theorem getElem?_of_destination? {nav : Navigation} (h : t.destination? nav = some j) :
    ∃ next, nav.target = some next ∧ t.rows[j]? = some next := by
  obtain ⟨next, hnext, hj⟩ := Option.bind_eq_some_iff.mp h
  exact ⟨next, hnext, getElem?_of_rowIndex? hj⟩

theorem destination?_eq (hL : t.layout.Laminar) {nav : Navigation} (hnext : nav.target = t.rows[j]?)
    (hj : j < t.rows.size) : t.destination? nav = some j := by
  rw [destination?, hnext, Array.getElem?_eq_getElem hj, Option.bind_some]
  exact rowIndex?_eq_some hL (Array.getElem?_eq_getElem hj)

section Visits

variable {p : Nat} {l₀ l : Loop} {b : Body} {nav : Navigation}

/-- The loop in a later state. -/
theorem Outermost.of_layout (h : t.Outermost p l₀ b) (hlayout : u.layout = t.layout)
    (hl : u.loops[p]? = some l) : u.Outermost p l b ∧ l.toConstruct = l₀.toConstruct := by
  obtain ⟨m, hm, hsite, -⟩ := exists_loop_of_layout hlayout h.loop
  obtain rfl := Option.some.inj (hl.symm.trans hm)
  refine ⟨⟨hl, by rw [hsite, h.body], fun n hn => ?_, by rw [hsite, h.parent]⟩, hsite⟩
  obtain ⟨q, hq⟩ := List.getElem?_of_mem hn
  obtain ⟨n', hn', hsite', -⟩ := exists_loop_of_layout hlayout.symm hq
  rw [hsite, ← hsite', h.alone n' (List.mem_of_getElem? hn')]

theorem Outermost.enteredAt (ho : t.Outermost p l₀ b) (hL : t.layout.Laminar)
    (hahead : t.layout.Ahead l₀.index j) (hcovers : l₀.covers j = true)
    (hrow : t.rows[j]? = some row) : t.EnteredAt l₀ row := by
  have hmem := List.mem_of_getElem? ho.loop
  have hls := mem_sites_of_loops hmem
  rw [EnteredAt, rowIndex?_eq_some hL hrow, Option.any_some, startsAt_iff hL hmem]
  rcases hahead with rfl | ⟨k, hk, hindex, c, hc, rfl⟩
  · exact .inl ⟨by rw [ho.body]; rfl, rfl⟩
  · rcases List.mem_append.mp hk with hk | hk
    · -- The loop itself does not hold the row after its body.
      obtain ⟨e, he, rfl⟩ := List.mem_map.mp hk
      obtain ⟨q, hq⟩ := List.getElem?_of_mem he
      obtain rfl := hL.loop_place_inj hq (getElem?_layout_loops ho.loop) hindex
      obtain rfl := Option.some.inj (hq.symm.trans (getElem?_layout_loops ho.loop))
      obtain ⟨-, hle⟩ := (hL.covers_body_iff hls hc).mp hcovers
      unfold Body.after at hle
      omega
    · obtain ⟨e, he, rfl⟩ := List.mem_map.mp hk
      have hks := Layout.mem_sites_of_conditional he
      obtain ⟨d, hd, rfl⟩ := List.mem_map.mp he
      have hanchor := hL.anchors _ hks
      rw [hindex, hL.anchors _ hls] at hanchor
      exact .inr ⟨d, hd, (Option.some.inj hanchor).symm, c, hc, rfl⟩

theorem Outermost.lt_destination (ho : t.Outermost p l₀ b) (hL : t.layout.Laminar)
    (hlayout : u.layout = t.layout) (h : u.Leaves row i v nav) (hi : b.last < i) :
    ∀ j, t.destination? nav = some j → b.last < j := by
  intro j hj
  obtain ⟨next, hnext, hrow⟩ := getElem?_of_destination? hj
  obtain ⟨l, hl, -⟩ := exists_loop_of_layout hlayout ho.loop
  have hrows : u.rows = t.rows := congrArg Layout.rows hlayout
  exact past_of_leaves (hlayout.symm ▸ hL) (ho.of_layout hlayout hl).1 h hi hnext (hrows ▸ hrow)

/-- The loop does not change and nothing is counted while the walk is before the row of the loop. -/
theorem phase_before (hL : t.layout.Laminar) (ho : t.Outermost p l₀ b) (hlayout : u.layout = t.layout)
    (hrow : t.rows[i]? = some row) (hl : u.loops[p]? = some l₀) (h : u.Leaves row i v nav)
    (hi : i < l₀.index) (hentry : t.entryRow? l₀.toConstruct navs = none)
    (hexits : t.exits l₀.toConstruct navs = 0) :
    ∃ l', v.loops[p]? = some l' ∧ Phase t l₀ b (navs ++ [nav]) l' (t.destination? nav) := by
  have huL : u.layout.Laminar := hlayout.symm ▸ hL
  have hrows : u.rows = t.rows := congrArg Layout.rows hlayout
  have hout := hL.not_covers_of_le ho.mem_sites (Nat.le_of_lt hi)
  have hinside : t.isInside l₀.toConstruct nav.source = false := by
    rw [h.source, isInside_eq hL hrow, hout]
  have hentry' := (entryRow?_snoc_outside hinside).trans hentry
  refine ⟨l₀, getElem?_leaves_outside huL h hl ho.parent hout (Nat.ne_of_gt hi), ?_⟩
  cases hj : t.destination? nav with
  | none => exact .missed (fun j hj => nomatch hj) hentry'
  | some j =>
      obtain ⟨next, hnext, hnextrow⟩ := getElem?_of_destination? hj
      rcases ahead_of_leaves huL (ho.of_layout hlayout hl).1 h hi hnext (hrows ▸ hnextrow) with hle | hlt
      · exact .ahead hle hentry' ((exits_snoc_outside hinside).trans hexits)
      · exact .missed (fun k hk => Option.some.inj hk ▸ hlt) hentry'

/-- The row of the loop leads into the body, with a pass used up or not, or past it. -/
theorem phase_anchor (hL : t.layout.Laminar) (ho : t.Outermost p l₀ b) (hlayout : u.layout = t.layout)
    (hrow : t.rows[l₀.index]? = some row) (hl : u.loops[p]? = some l)
    (hgranted : l = { l₀ with passesLeft := l₀.codeSum, visit := .running })
    (hopen : l₀.exhausted = false) (hruns : l₀.runs = 0) (h : u.Leaves row l₀.index v nav)
    (hentry : t.entryRow? l₀.toConstruct navs = none)
    (hexits : t.exits l₀.toConstruct navs = 0) :
    ∃ l', v.loops[p]? = some l' ∧ Phase t l₀ b (navs ++ [nav]) l' (t.destination? nav) := by
  obtain ⟨hfirst, hord, hlast⟩ := hL.bodies _ ho.mem_sites b ho.body
  have huL : u.layout.Laminar := hlayout.symm ▸ hL
  have hrows : u.rows = t.rows := congrArg Layout.rows hlayout
  have hsite : l.toConstruct = l₀.toConstruct := by rw [hgranted]
  have hinside : t.isInside l₀.toConstruct nav.source = false := by
    rw [h.source, isInside_eq hL hrow, hL.not_covers_of_le ho.mem_sites (Nat.le_refl _)]
  have hentry' := (entryRow?_snoc_outside hinside).trans hentry
  have hexits' := (exits_snoc_outside hinside).trans hexits
  obtain ⟨m, hm, -⟩ := exists_loop_of_layout (h.layout.trans hlayout) ho.loop
  cases hj : t.destination? nav with
  | none => exact ⟨m, hm, .missed (fun j hj => nomatch hj) hentry'⟩
  | some j =>
      obtain ⟨next, hnext, hnextrow⟩ := getElem?_of_destination? hj
      rw [show l₀.index = l.index by rw [hsite]] at h
      obtain ⟨hahead, henters⟩ :=
        leaves_anchor huL (ho.of_layout hlayout hl).1 h hnext (hrows ▸ hnextrow)
      rw [hlayout, hsite] at hahead
      rw [hsite] at henters
      have hlt := hL.lt_of_ahead hahead
      cases hcovers : l₀.covers j with
      | false =>
          have hpast : b.last < j := by
            rw [← Bool.not_eq_true, ho.covers_iff hL] at hcovers
            omega
          exact ⟨m, hm, .missed (fun k hk => Option.some.inj hk ▸ hpast) hentry'⟩
      | true =>
          obtain ⟨hfree, hl'⟩ := henters hcovers
          obtain ⟨-, hjlast⟩ := (ho.covers_iff hL).mp hcovers
          have hpos : l₀.codeSum ≠ 0 := by
            intro hzero
            rw [hgranted, Loop.blocksEntry, hzero] at hfree
            simp at hfree
          refine ⟨_, hl', .inside (by omega) hjlast ?_ ?_ ?_ fun entry hor => ?_⟩
          · rw [hgranted]
            split_ifs <;> rfl
          · rw [hgranted]
            split_ifs <;> exact hopen
          · rw [hexits', ← hruns, hgranted]
            split_ifs <;> rfl
          · rw [hentry', Option.none_or, hnextrow] at hor
            obtain rfl := Option.some.inj hor
            refine ⟨ho.enteredAt hL hahead hcovers hnextrow, ?_⟩
            rw [passTotal, rowIndex?_eq_some hL hnextrow, Option.any_some, hexits', hgranted]
            split_ifs
            · change l₀.codeSum = 0 + (l₀.codeSum - 1) + 1
              omega
            · change l₀.codeSum + 1 = 0 + l₀.codeSum + 1
              omega

/-- Past the body the loop stays as it is, and nothing is counted. -/
theorem phase_past (hL : t.layout.Laminar) (ho : t.Outermost p l₀ b) (hlayout : u.layout = t.layout)
    (hrow : t.rows[i]? = some row) (hl : u.loops[p]? = some l) (h : u.Leaves row i v nav)
    (hi : b.last < i) (hphase : Phase t l₀ b navs l (some i)) :
    ∃ l', v.loops[p]? = some l' ∧ Phase t l₀ b (navs ++ [nav]) l' (t.destination? nav) := by
  obtain ⟨hfirst, hord, hlast⟩ := hL.bodies _ ho.mem_sites b ho.body
  have huL : u.layout.Laminar := hlayout.symm ▸ hL
  obtain ⟨hol, hsite⟩ := ho.of_layout hlayout hl
  have hout := hL.not_covers_of_past ho.mem_sites ho.body hi
  have hinside : t.isInside l₀.toConstruct nav.source = false := by
    rw [h.source, isInside_eq hL hrow, hout]
  have hentry : t.entryRow? l₀.toConstruct (navs ++ [nav]) = t.entryRow? l₀.toConstruct navs :=
    entryRow?_snoc_outside hinside
  have hexits : t.exits l₀.toConstruct (navs ++ [nav]) = t.exits l₀.toConstruct navs :=
    exits_snoc_outside hinside
  have hplace := ho.lt_destination hL hlayout h hi
  have hl' : v.loops[p]? = some l :=
    getElem?_leaves_outside huL h hl hol.parent (hsite ▸ hout) (by rw [hsite]; omega)
  refine ⟨l, hl', ?_⟩
  cases hphase with
  | ahead hle => omega
  | inside hfirst' hlast' => omega
  | missed _ hnone => exact .missed hplace (hentry.trans hnone)
  | done _ hsome hentered hexhausted hpos htotal hruns =>
      exact .done hplace (hentry.trans hsome) hentered hexhausted hpos (hexits.trans htotal) hruns

theorem leavesBody_eq (hL : t.layout.Laminar) (k : Construct) (hrow : t.rows[i]? = some nav.source)
    (hnext : nav.target = t.rows[j]?) (hj : j < t.rows.size) :
    t.leavesBody k nav = (k.covers i && (!k.covers j || k.startsAt j)) := by
  have hnextrow := Array.getElem?_eq_getElem hj
  rw [leavesBody, isInside_eq hL hrow, hnext, hnextrow, Option.all_some, isInside_eq hL hnextrow,
    rowIndex?_eq_some hL hnextrow, Option.any_some]

section Exits

variable (hL : t.layout.Laminar) (ho : t.Outermost p l₀ b) (hsource : t.rows[i]? = some nav.source)

include hL ho hsource

theorem Outermost.leavesBody_first (hcovers : l₀.covers i = true)
    (hnext : nav.target = t.rows[b.first]?) : t.leavesBody l₀.toConstruct nav = true := by
  obtain ⟨hstart, hord, hsize⟩ := hL.bodies _ ho.mem_sites b ho.body
  have hstarts : l₀.startsAt b.first = true :=
    (startsAt_iff hL (List.mem_of_getElem? ho.loop) b.first).mpr ⟨by rw [ho.body]; rfl, hstart⟩
  rw [leavesBody_eq hL _ hsource hnext (Nat.lt_of_le_of_lt hord hsize), hcovers, hstarts]
  simp

theorem Outermost.leavesBody_within (hnext : nav.target = t.rows[j]?) (hfirst : b.first < j)
    (hlast : j ≤ b.last) : t.leavesBody l₀.toConstruct nav = false := by
  obtain ⟨hstart, -, hsize⟩ := hL.bodies _ ho.mem_sites b ho.body
  have hnot : l₀.startsAt j = false := by
    rw [← Bool.not_eq_true, startsAt_iff hL (List.mem_of_getElem? ho.loop)]
    omega
  rw [leavesBody_eq hL _ hsource hnext (Nat.lt_of_le_of_lt hlast hsize), hnot,
    (ho.covers_iff hL).mpr ⟨by omega, hlast⟩]
  simp

theorem Outermost.leavesBody_past (hcovers : l₀.covers i = true)
    (hnext : nav.target = none ∨ ∃ j, nav.target = t.rows[j]? ∧ b.last < j ∧ j < t.rows.size) :
    t.leavesBody l₀.toConstruct nav = true := by
  rcases hnext with hnone | ⟨j, hnext, hjlast, hj⟩
  · rw [leavesBody, isInside_eq hL hsource, hcovers, hnone]
    rfl
  · rw [leavesBody_eq hL _ hsource hnext hj, hcovers, hL.not_covers_of_past ho.mem_sites ho.body hjlast]
    rfl

end Exits

/-- A loop without a loop around it is exhausted when it ends its last pass. -/
theorem Outermost.finishPass_of_spent (ho : t.Outermost p l b) (hrunning : l.visit = .running)
    (hspent : l.repeats = false) : l.finishPass = { l with
      runs := Loop.addCounts l.runs 1, visit := .finished, pointer := l.codes.length
      exhausted := true } := by
  rw [Loop.finishPass_of_spent hspent, Loop.finishVisit, if_pos hrunning, if_pos]
  rw [ho.parent]
  rfl

/-- In the body, each time that it is left at its end is a run of the loop, and the runs that are left are
those that the loop still grants. -/
theorem phase_inside (hL : t.layout.Laminar) (hgapless : t.layout.Gapless) (ho : t.Outermost p l₀ b)
    (hlayout : u.layout = t.layout) (hrow : t.rows[i]? = some row) (hl : u.loops[p]? = some l)
    (h : u.Leaves row i v nav) (hfirst : b.first ≤ i) (hlast : i ≤ b.last)
    (hrunning : l.visit = .running) (hopen : l.exhausted = false)
    (hruns : l.runs = t.exits l₀.toConstruct navs)
    (htotal : ∀ entry, (t.entryRow? l₀.toConstruct navs).or t.rows[i]? = some entry →
      t.EnteredAt l₀ entry ∧
        t.passTotal l₀ entry = t.exits l₀.toConstruct navs + l.passesLeft + 1) :
    ∃ l', v.loops[p]? = some l' ∧ Phase t l₀ b (navs ++ [nav]) l' (t.destination? nav) := by
  obtain ⟨hstart, hord, hsize⟩ := hL.bodies _ ho.mem_sites b ho.body
  have huL : u.layout.Laminar := hlayout.symm ▸ hL
  have hrows : u.rows = t.rows := congrArg Layout.rows hlayout
  obtain ⟨hol, hsite⟩ := ho.of_layout hlayout hl
  have hcovers : l₀.covers i = true := (ho.covers_iff hL).mpr ⟨by omega, hlast⟩
  have hsource : t.rows[i]? = some nav.source := by rw [h.source, hrow]
  have hentry : t.entryRow? l₀.toConstruct (navs ++ [nav]) =
      (t.entryRow? l₀.toConstruct navs).or t.rows[i]? := by
    rw [entryRow?_snoc, isInside_eq hL hsource, hcovers, if_pos rfl, hsource]
  -- From here on it is known where the body is entered.
  obtain ⟨entry, hsome⟩ : ∃ entry, (t.entryRow? l₀.toConstruct navs).or t.rows[i]? = some entry := by
    rw [hsource]
    cases t.entryRow? l₀.toConstruct navs with
    | none => exact ⟨_, rfl⟩
    | some first => exact ⟨first, rfl⟩
  obtain ⟨hentered, hknown⟩ := htotal entry hsome
  rw [hsome] at hentry
  have hbound := t.passTotal_bounds l₀ entry
  have hbefore : ∀ k, k ≤ b.last → k < t.rows.size := fun k hk => Nat.lt_of_le_of_lt hk hsize
  rcases leaves_inside huL (hlayout.symm ▸ hgapless) hol hrunning h (hsite ▸ hcovers) with
    ⟨hnext, hrepeats, hl'⟩ | ⟨j, hnext, hjfirst, hjlast, hl'⟩ | ⟨hspent, hl', hnext⟩
  · rw [hrows] at hnext
    have hexits := exits_snoc_of_leaves navs (ho.leavesBody_first hL hsource hcovers hnext)
    have hpos : 0 < l.passesLeft := of_decide_eq_true hrepeats
    rw [Loop.finishPass_of_repeats hrepeats] at hl'
    rw [destination?_eq hL hnext (hbefore _ hord)]
    refine ⟨_, hl', .inside (Nat.le_refl _) hord hrunning hopen ?_ fun e he => ?_⟩
    · rw [hexits, ← hruns]
      exact Nat.min_eq_left (by omega)
    · rw [hentry, Option.some_or] at he
      obtain rfl := Option.some.inj he
      rw [hexits, hknown]
      exact ⟨hentered, by dsimp only; omega⟩
  · rw [hrows] at hnext
    have hexits := exits_snoc_of_stays navs
      (ho.leavesBody_within hL hsource hnext hjfirst hjlast)
    rw [destination?_eq hL hnext (hbefore _ hjlast)]
    refine ⟨l, hl', .inside (Nat.le_of_lt hjfirst) hjlast hrunning hopen (hruns.trans hexits.symm)
      fun e he => ?_⟩
    rw [hentry, Option.some_or] at he
    obtain rfl := Option.some.inj he
    rw [hexits]
    exact ⟨hentered, hknown⟩
  · rw [hrows] at hnext
    have hzero : l.passesLeft = 0 := Nat.eq_zero_of_not_pos (of_decide_eq_false hspent)
    have hexits : t.exits l₀.toConstruct (navs ++ [nav]) = t.passTotal l₀ entry := by
      rw [exits_snoc_of_leaves navs (ho.leavesBody_past hL hsource hcovers hnext), hknown, hzero]
    rw [hol.finishPass_of_spent hrunning hspent] at hl'
    refine ⟨_, hl', .done (fun k hk => ?_) hentry hentered rfl (by omega) hexits ?_⟩
    · rcases hnext with hnone | ⟨j, hnext, hjlast, hj⟩
      · rw [destination?, hnone] at hk
        cases hk
      · rw [destination?_eq hL hnext hj] at hk
        exact Option.some.inj hk ▸ hjlast
    · rw [hknown, hzero]
      dsimp only
      rw [hruns]
      rfl

/-- Every visit keeps the books. -/
theorem phase_visit (hL : t.layout.Laminar) (hgapless : t.layout.Gapless) (ho : t.Outermost p l₀ b)
    (hfresh : l₀.exhausted = false ∧ l₀.pointer = 0 ∧ l₀.runs = 0) (hlayout : u.layout = t.layout)
    (hrow : t.rows[i]? = some here) (hl : u.loops[p]? = some l)
    (hphase : Phase t l₀ b navs l (some i)) :
    ∃ l', (u.visit here).1.loops[p]? = some l' ∧
      Phase t l₀ b (navs ++ [(u.visit here).2]) l' (t.destination? (u.visit here).2) := by
  have huL : u.layout.Laminar := hlayout.symm ▸ hL
  have hrows : u.rows = t.rows := congrArg Layout.rows hlayout
  have hleaves := leaves_visit huL (hrows.symm ▸ hrow)
  have harrive := (u.layout_arrive here).trans hlayout
  have hls := ho.mem_sites
  obtain ⟨hstart, hord, -⟩ := hL.bodies _ hls b ho.body
  have hsite := (ho.of_layout hlayout hl).2
  -- A visit of another row leaves the loop alone.
  have hother : i ≠ l₀.index → (u.arrive here).loops[p]? = some l := by
    intro hne
    refine getElem?_arrive hl fun hanchor => hne ?_
    rw [hsite] at hanchor
    exact hL.index_inj hrow (hanchor ▸ hL.anchors _ hls)
  cases hphase with
  | ahead hi hentry hexits =>
      rcases Nat.eq_or_lt_of_le hi with rfl | hlt
      · obtain ⟨hopen, hpointer, hruns⟩ := hfresh
        have hanchor : l₀.anchor = here :=
          Option.some.inj ((hL.anchors _ hls).symm.trans hrow)
        have hl' : (u.arrive here).loops[p]? = some l₀.encounter := by
          simp only [arrive, List.getElem?_map, hl, Option.map_some, if_pos hanchor]
        have hgranted : l₀.encounter =
            { l₀ with passesLeft := l₀.codeSum, visit := .running } := by
          rw [Loop.encounter, hopen, if_neg Bool.false_ne_true, Loop.granted, ho.parent, hpointer]
          rfl
        exact phase_anchor hL ho harrive hrow hl' hgranted hopen hruns hleaves hentry hexits
      · exact phase_before hL ho harrive hrow (hother (Nat.ne_of_lt hlt)) hleaves hlt hentry hexits
  | inside hfirst hlast hrunning hopen hruns htotal =>
      exact phase_inside hL hgapless ho harrive hrow (hother (by omega)) hleaves hfirst hlast hrunning
        hopen hruns htotal
  | missed hplace hentry =>
      have hi := hplace i rfl
      exact phase_past hL ho harrive hrow (hother (by omega)) hleaves hi (.missed hplace hentry)
  | done hplace hentry hentered hexhausted hpos hexits hruns =>
      have hi := hplace i rfl
      exact phase_past hL ho harrive hrow (hother (by omega)) hleaves hi
        (.done hplace hentry hentered hexhausted hpos hexits hruns)

/-! ### Walks -/

theorem entryRow?_append (k : Construct) (navs navs' : List Navigation) :
    t.entryRow? k (navs ++ navs') = (t.entryRow? k navs).or (t.entryRow? k navs') := by
  unfold entryRow?
  rw [List.map_append, List.find?_append]

/-- A walk that goes on from a row of a body begins there. -/
theorem entryRow?_walk_succ (hL : t.layout.Laminar) (hlayout : u.layout = t.layout)
    (hrow : t.rows[i]? = some here) {k : Construct} (hcovers : k.covers i = true) (n : Nat) :
    t.entryRow? k (u.walk (n + 1) here).2 = some here := by
  have huL : u.layout.Laminar := hlayout.symm ▸ hL
  have hrows : u.rows = t.rows := congrArg Layout.rows hlayout
  have hsource := (leaves_visit huL (hrows.symm ▸ hrow)).source
  have hinside : t.isInside k (u.visit here).2.source = true := by
    rw [hsource, isInside_eq hL hrow, hcovers]
  rw [walk]
  cases hnext : (u.visit here).2.target with
  | none =>
      dsimp only
      rw [hnext, entryRow?, List.map_singleton, List.find?_singleton, if_pos hinside, hsource]
  | some next =>
      dsimp only
      rw [hnext]
      dsimp only
      rw [entryRow?, List.map_cons, List.find?_cons_of_pos hinside, hsource]

/-- A walk past a body does not come to it again. -/
theorem entryRow?_walk_past (hL : t.layout.Laminar) (ho : t.Outermost p l₀ b)
    (hlayout : u.layout = t.layout) (hrow : t.rows[i]? = some here) (hi : b.last < i) (n : Nat) :
    t.entryRow? l₀.toConstruct (u.walk n here).2 = none := by
  induction n generalizing u i here with
  | zero => rfl
  | succ n ih =>
      have huL : u.layout.Laminar := hlayout.symm ▸ hL
      have hrows : u.rows = t.rows := congrArg Layout.rows hlayout
      have hleaves := leaves_visit huL (hrows.symm ▸ hrow)
      have harrive := (u.layout_arrive here).trans hlayout
      have hout : t.isInside l₀.toConstruct (u.visit here).2.source = false := by
        rw [hleaves.source, isInside_eq hL hrow, hL.not_covers_of_past ho.mem_sites ho.body hi]
      rw [walk]
      cases hnext : (u.visit here).2.target with
      | none =>
          dsimp only
          rw [hnext, entryRow?, List.map_singleton, List.find?_singleton, hout,
            if_neg Bool.false_ne_true]
      | some next =>
          obtain ⟨j, hj⟩ := hleaves.exists_row hnext
          have hjt : t.rows[j]? = some next := hrows ▸ hj
          have hpast := ho.lt_destination hL harrive hleaves hi j (by
            rw [destination?, hnext, Option.bind_some, rowIndex?_eq_some hL hjt])
          dsimp only
          rw [hnext]
          dsimp only
          rw [entryRow?, List.map_cons, List.find?_cons_of_neg (by rw [hout]; exact Bool.false_ne_true)]
          exact ih ((layout_visit huL (hrows.symm ▸ hrow)).trans hlayout) hjt hpast

/-- Walks keep the books. -/
theorem phase_comes (hL : t.layout.Laminar) (hgapless : t.layout.Gapless) (ho : t.Outermost p l₀ b)
    (hfresh : l₀.exhausted = false ∧ l₀.pointer = 0 ∧ l₀.runs = 0) (hrow : t.rows[0]? = some row)
    (h : Comes t row navs u here) :
    ∃ l j, u.loops[p]? = some l ∧ t.rows[j]? = some here ∧ Phase t l₀ b navs l (some j) := by
  induction h with
  | start => exact ⟨l₀, 0, ho.loop, hrow, .ahead (Nat.zero_le _) rfl rfl⟩
  | @step navs u here next h hnext ih =>
      obtain ⟨l, i, hl, hi, hphase⟩ := ih
      obtain ⟨hlayout, -⟩ := h.layout hL hrow
      have hrows : u.rows = t.rows := congrArg Layout.rows hlayout
      obtain ⟨l', hl', hphase'⟩ := phase_visit hL hgapless ho hfresh hlayout hi hl hphase
      obtain ⟨j, hj⟩ := (leaves_visit (hlayout.symm ▸ hL) (hrows.symm ▸ hi)).exists_row hnext
      have hjt : t.rows[j]? = some next := hrows ▸ hj
      rw [destination?, hnext, Option.bind_some, rowIndex?_eq_some hL hjt] at hphase'
      exact ⟨l', j, hl', hjt, hphase'⟩

/-- At the end of a walk that was in the body the loop is done. -/
theorem done_of_end (hL : t.layout.Laminar) (hgapless : t.layout.Gapless) (ho : t.Outermost p l₀ b)
    (hfresh : l₀.exhausted = false ∧ l₀.pointer = 0 ∧ l₀.runs = 0) (hrow : t.rows[0]? = some row)
    (h : Comes t row navs u here) (hend : (u.visit here).2.target = none) {entry : Int}
    (hentry : t.entryRow? l₀.toConstruct (navs ++ [(u.visit here).2]) = some entry) :
    t.EnteredAt l₀ entry ∧ 0 < t.passTotal l₀ entry ∧
      t.exits l₀.toConstruct (navs ++ [(u.visit here).2]) = t.passTotal l₀ entry ∧
      ∃ l, (u.visit here).1.loops[p]? = some l ∧ l.exhausted = true ∧
        l.runs = min (t.passTotal l₀ entry) Number.maxCount := by
  obtain ⟨l, i, hl, hi, hphase⟩ := phase_comes hL hgapless ho hfresh hrow h
  obtain ⟨l', hl', hphase'⟩ :=
    phase_visit hL hgapless ho hfresh (h.layout hL hrow).1 hi hl hphase
  rw [destination?, hend, Option.bind_none] at hphase'
  cases hphase' with
  | missed hplace hnone =>
      rw [hnone] at hentry
      cases hentry
  | done hplace hsome hentered hexhausted hpos hexits hruns =>
      obtain rfl := Option.some.inj (hsome.symm.trans hentry)
      exact ⟨hentered, hpos, hexits, l', hl', hexhausted, hruns⟩

/-- The loop is exhausted from the last exit on, and not before. -/
theorem exhausted_walk (hL : t.layout.Laminar) (hgapless : t.layout.Gapless)
    (ho : t.Outermost p l₀ b) (hfresh : l₀.exhausted = false ∧ l₀.pointer = 0 ∧ l₀.runs = 0)
    (hrow : t.rows[0]? = some row) (h : Comes t row navs u here)
    (hend : (u.visit here).2.target = none) {k n : Nat}
    (hwalk : t.walk (k + (n + 1)) row = ((u.visit here).1, navs ++ [(u.visit here).2])) {entry : Int}
    (hentry : t.entryRow? l₀.toConstruct (navs ++ [(u.visit here).2]) = some entry) :
    ∃ l, (t.walk k row).1.loops[p]? = some l ∧ l.exhausted =
      decide (t.passTotal l₀ entry ≤ t.exits l₀.toConstruct (t.walk k row).2) := by
  obtain ⟨-, hpos, hexits, lEnd, hlEnd, hexhausted, -⟩ :=
    done_of_end hL hgapless ho hfresh hrow h hend hentry
  rcases walk_cases t row k with ⟨there, hcomes, hmore⟩ | hmore
  · obtain ⟨hlayout, -⟩ := hcomes.layout hL hrow
    obtain ⟨l, i, hl, hi, hphase⟩ := phase_comes hL hgapless ho hfresh hrow hcomes
    have hrest := hmore (n + 1)
    rw [hwalk] at hrest
    rw [(Prod.mk.inj hrest).2, entryRow?_append] at hentry
    refine ⟨l, hl, ?_⟩
    generalize (t.walk k row).2 = before at hphase hentry ⊢
    cases hphase with
    | ahead hle hnone hzero =>
        rw [hfresh.1, hzero]
        exact (decide_eq_false (by omega)).symm
    | inside hfirst hlast hrunning hopen hruns htotal =>
        have hcovers := (Construct.covers_iff l₀.toConstruct i).mpr ⟨b, ho.body, hfirst, hlast⟩
        rw [entryRow?_walk_succ hL hlayout hi hcovers, ← hi] at hentry
        obtain ⟨-, htotal⟩ := htotal entry hentry
        rw [hopen]
        exact (decide_eq_false (by omega)).symm
    | missed hplace hnone =>
        rw [hnone, Option.none_or, entryRow?_walk_past hL ho hlayout hi (hplace i rfl)] at hentry
        cases hentry
    | done hplace hsome hentered hout hpos' hexits' hruns =>
        rw [hsome, Option.some_or] at hentry
        obtain rfl := Option.some.inj hentry
        rw [hout, hexits']
        exact (decide_eq_true (Nat.le_refl _)).symm
  · have hsame := hmore (n + 1)
    rw [hwalk] at hsame
    rw [← hsame]
    exact ⟨lEnd, hlEnd, by rw [hexhausted, hexits]; exact (decide_eq_true (Nat.le_refl _)).symm⟩

theorem loopAt?_eq (hL : t.layout.Laminar) (hl : t.loops[p]? = some l) :
    t.loopAt? l.anchor = some l := by
  unfold loopAt?
  cases hfind : t.loops.find? fun m => m.anchor == l.anchor with
  | none => exact absurd (List.find?_eq_none.mp hfind l (List.mem_of_getElem? hl)) (by simp)
  | some m =>
      have hmem := List.mem_of_find?_eq_some hfind
      obtain ⟨q, hq⟩ := List.getElem?_of_mem hmem
      have hanchor : m.anchor = l.anchor := by simpa using List.find?_some hfind
      have hindex := hL.anchors _ (mem_sites_of_loops hmem)
      rw [hanchor] at hindex
      obtain rfl := hL.loop_place_inj (getElem?_layout_loops hq) (getElem?_layout_loops hl)
        (hL.index_inj hindex (hL.anchors _ (mem_sites_of_loops (List.mem_of_getElem? hl))))
      exact hq.symm.trans hl

end Visits

/-! ### Charts -/

theorem gapless_ofChart {c : Chart} (hrows : c.Consecutive) : (ofChart c).layout.Gapless := by
  intro i id hi
  rw [getElem?_rows_ofChart] at hi
  obtain ⟨b, hb, rfl⟩ := Option.map_eq_some_iff.mp hi
  have hlt := (Array.getElem?_eq_some_iff.mp hb).1
  have ha := Array.getElem?_eq_getElem (show i < c.rows.size by omega)
  rw [getElem?_rows_ofChart, ha, Option.map_some, hrows.id_eq ha hb, Int.sub_add_cancel]

/-- In a chart a loop that lies in no body of a loop has no loop around it. -/
theorem outermost_ofChart {c : Chart} {p : Nat} {l : Loop} (hl : (ofChart c).loops[p]? = some l)
    {b : Body} (hb : l.body = some b)
    (halone : ∀ outer ∈ (ofChart c).loops, outer.covers l.index = false) :
    (ofChart c).Outermost p l b := by
  refine ⟨hl, hb, halone, ?_⟩
  have hmem := List.mem_of_getElem? hl
  rw [loops_ofChart] at hmem
  obtain ⟨m, hm, rfl⟩ := List.mem_map.mp hmem
  change enclosing? (readLoops c) m.index m.indent = none
  rw [enclosing?, innermost?_eq_none_iff.mpr]
  · rfl
  · intro outer houter
    have := halone { outer with parent := enclosing? (readLoops c) outer.index outer.indent } (by
      rw [loops_ofChart]
      exact List.mem_map.mpr ⟨outer, houter, rfl⟩)
    rw [Bool.and_eq_false_iff]
    exact .inr this

theorem runs_ofChart {c : Chart} (hc : c.Indented) {l : Loop} (hl : l ∈ (ofChart c).loops) :
    l.runs = 0 := by
  rw [loops_ofChart] at hl
  obtain ⟨l, hread, rfl⟩ := List.mem_map.mp hl
  obtain ⟨-, codes, -, heq⟩ := registered_readLoops hc hread
  rw [heq]
  rfl

/-- When the body of a loop that lies in no other loop is entered, it is left at its end as often as the
sum of its codes says, and once more if it is not entered at its first row.  The loop counts these runs,
and it is exhausted from the last exit on. -/
theorem exits_of_outermost (notes : Array Note) (declared : List (Int × Nat))
    (metadata : List (String × String)) (diagnostics : List Diagnostic) :
    let c := Chart.ofParts notes declared metadata diagnostics
    let t := ofChart c
    c.Consecutive → ∀ l ∈ t.loops, l.body.isSome →
      (∀ outer ∈ t.loops, outer.covers l.index = false) →
      ∃ enough, ∀ steps, enough ≤ steps → ∀ entry,
        t.entryRow? l.toConstruct (t.tour steps).2 = some entry →
        t.EnteredAt l entry ∧
        t.exits l.toConstruct (t.tour steps).2 = t.passTotal l entry ∧
        ((t.tour steps).1.loopAt? l.anchor).map Loop.runs =
          some (min (t.passTotal l entry) Number.maxCount) ∧
        ∀ k, ((t.tour k).1.loopAt? l.anchor).map Loop.exhausted =
          some (decide (t.passTotal l entry ≤ t.exits l.toConstruct (t.tour k).2)) := by
  intro c t hrows l hmem hbody halone
  have hc := Chart.indented_ofParts notes declared metadata diagnostics
  have hL : t.layout.Laminar :=
    laminar_ofChart hc (Chart.falling_ofParts notes declared metadata diagnostics)
  have hgapless : t.layout.Gapless := gapless_ofChart hrows
  obtain ⟨b, hb⟩ := Option.isSome_iff_exists.mp hbody
  obtain ⟨p, hp⟩ := List.getElem?_of_mem hmem
  have ho : t.Outermost p l b := outermost_ofChart hp hb halone
  have hfresh : l.exhausted = false ∧ l.pointer = 0 ∧ l.runs = 0 := by
    obtain ⟨hpointer, hexhausted⟩ := fresh_loops_ofChart hc hmem
    rw [← Option.not_isSome, hbody] at hexhausted
    exact ⟨hexhausted, hpointer, runs_ofChart hc hmem⟩
  unfold tour
  cases hfirst : t.firstRow? with
  | none => exact ⟨0, fun steps _ entry hentry => nomatch hentry⟩
  | some row =>
      have hrow : t.rows[0]? = some row := hfirst
      obtain ⟨navs, u, here, hcomes, hend, enough, henough⟩ := exists_end hL hrow
      refine ⟨enough, fun steps hsteps entry hentry => ?_⟩
      dsimp only at hentry ⊢
      rw [henough steps hsteps] at hentry ⊢
      obtain ⟨hentered, -, hexits, l', hl', -, hruns⟩ :=
        done_of_end hL hgapless ho hfresh hrow hcomes hend hentry
      -- The loop is found by its anchor, which no state changes.
      have hfound : ∀ {v : Traversal} {m : Loop}, v.layout = t.layout → v.loops[p]? = some m →
          v.loopAt? l.anchor = some m := by
        intro v m hlayout hm
        rw [← (ho.of_layout hlayout hm).2]
        exact loopAt?_eq (hlayout.symm ▸ hL) hm
      refine ⟨hentered, hexits, ?_, fun k => ?_⟩
      · have hlayout := layout_walk hL hrow steps
        rw [henough steps hsteps] at hlayout
        rw [hfound hlayout hl', Option.map_some, hruns]
      · obtain ⟨m, hm, hexhausted⟩ := exhausted_walk hL hgapless ho hfresh hrow hcomes hend
          (henough (k + (enough + 1)) (by omega)) hentry
        rw [hfound (layout_walk hL hrow k) hm, Option.map_some, hexhausted]

theorem entryRow?_slantedNotes (n : Nat) :
    let t := ofChart (Chart.ofParts slantedNotes [] [] [])
    t.entryRow? slantedLoop.toConstruct (t.tour (5 + n)).2 = some (-3) := by
  intro t
  have htour : t.tour (5 + n) = t.tour 5 := by
    have hend : ∃ nav ∈ (t.tour 5).2, nav.target = none := by
      rw [tour_slantedNotes]
      decide
    unfold tour at hend ⊢
    cases hfirst : t.firstRow? with
    | none => rfl
    | some row =>
        rw [hfirst] at hend
        exact walk_add_of_end hend n
  rw [htour, tour_slantedNotes]
  change (ofChart (Chart.ofParts slantedNotes [] [] [])).entryRow? _ _ = _
  rw [ofParts_slantedNotes]
  decide +kernel

/-- The one code of the loop is `1`, and its body is left twice. -/
theorem exits_slantedNotes :
    let c := Chart.ofParts slantedNotes [] [] []
    let t := ofChart c
    c.Consecutive ∧ ∃ steps, t.exits slantedLoop.toConstruct (t.tour steps).2 = 2 ∧
      ((t.tour steps).1.loopAt? (-1)).map Loop.runs = some 2 := by
  have hmem : slantedLoop ∈ (ofChart (Chart.ofParts slantedNotes [] [] [])).loops := by
    rw [loops_slantedNotes]
    exact List.mem_singleton_self _
  have halone : ∀ outer ∈ (ofChart (Chart.ofParts slantedNotes [] [] [])).loops,
      outer.covers slantedLoop.index = false := by
    rw [loops_slantedNotes]
    decide
  obtain ⟨hrows, htotal⟩ : (Chart.ofParts slantedNotes [] [] []).Consecutive ∧
      (ofChart (Chart.ofParts slantedNotes [] [] [])).passTotal slantedLoop (-3) = 2 := by
    rw [ofParts_slantedNotes]
    decide +kernel
  obtain ⟨enough, henough⟩ :=
    exits_of_outermost slantedNotes [] [] [] hrows slantedLoop hmem rfl halone
  obtain ⟨-, hexits, hruns, -⟩ :=
    henough (5 + enough) (Nat.le_add_left _ _) (-3) (entryRow?_slantedNotes enough)
  rw [htotal] at hexits hruns
  exact ⟨hrows, 5 + enough, hexits, hruns⟩

/-- A body is left more often than the sum of the codes says. -/
theorem exits_exceed_codes :
    let t := ofChart (Chart.ofParts slantedNotes [] [] [])
    ∃ l ∈ t.loops, (∀ outer ∈ t.loops, outer.covers l.index = false) ∧ l.codeSum = 1 ∧
      (∃ nav ∈ (t.tour 5).2, nav.target = none) ∧ t.exits l.toConstruct (t.tour 5).2 = 2 ∧
      ((t.tour 5).1.loopAt? l.anchor).map Loop.runs = some 2 := by
  rw [ofParts_slantedNotes]
  decide +kernel

end Traversal

end RhythmChart
