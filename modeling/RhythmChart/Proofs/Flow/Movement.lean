import RhythmChart.Proofs.Flow.Agreement
import RhythmChart.Proofs.Flow.Sites

/-! # Moving from row to row

Everything that leaving a row can do when no two bodies cross.  A skip may be followed by another one
here, when two constructs at one row have bodies of different lengths.

Main statements.

* `Traversal.Chained`: the chains of skips there are;
* `Traversal.Forward`: where a row leads when no loop repeats, and what is skipped on the way;
* `Traversal.Exits`: the loops that end a pass when the row is left, inner ones first;
* `Traversal.Parts`: how a row is left when some loops may repeat first;
* `Traversal.leaves_depart`: a departure goes back to the start of a body, on to a row or off the chart;
* `Traversal.Comes`: where a walk comes to;
* `Traversal.comes_of_walk`: a walk is cut anywhere. -/

namespace RhythmChart

namespace Layout

/-- Navigation from row `i` can come to row `j` without a loop that repeats: it is the next row, or the
one after the body of a construct at row `i`. -/
def Ahead (L : Layout) (i j : Nat) : Prop :=
  j = i + 1 ∨ ∃ k ∈ L.sites, k.index = i ∧ ∃ b, k.body = some b ∧ j = b.after

/-- The rows are numbered without a gap. -/
def Gapless (L : Layout) : Prop :=
  ∀ (i : Nat) (id : Int), L.rows[i + 1]? = some id → L.rows[i]? = some (id + 1)

variable {L : Layout} {i j : Nat} {k : Construct}

theorem Laminar.lt_of_ahead (hL : L.Laminar) (h : L.Ahead i j) : i < j := by
  rcases h with rfl | ⟨k, hk, rfl, b, hb, rfl⟩
  · omega
  · obtain ⟨hfirst, hord, -⟩ := hL.bodies k hk b hb
    unfold Body.after
    omega

/-- A body that is entered from row `i` belongs to a construct there. -/
theorem Laminar.index_of_ahead (hL : L.Laminar) (h : L.Ahead i j) (hk : k ∈ L.sites)
    (hj : k.covers j = true) (hi : k.covers i = false) : k.index = i := by
  have hle := hL.index_of_covers hk (hL.lt_of_ahead h) hj hi
  obtain ⟨b, hb, hlt, hlast⟩ := (hL.covers_iff hk).mp hj
  rcases h with rfl | ⟨k', hk', rfl, b', hb', rfl⟩
  · omega
  · by_contra hne
    unfold Body.after at hlt hlast
    have := (hL.inside k' hk' b' hb' k hk b hb (by omega) (by omega)).2
    omega

theorem ahead_after {b : Body} (hk : k ∈ L.sites) (hb : k.body = some b) :
    L.Ahead k.index b.after := .inr ⟨k, hk, rfl, b, hb, rfl⟩

/-- From before a construct, navigation comes to its row or before, or passes its body. -/
theorem Laminar.ahead_of_lt (hL : L.Laminar) (h : L.Ahead i j) {b : Body} (hk : k ∈ L.sites)
    (hb : k.body = some b) (hi : i < k.index) : j ≤ k.index ∨ b.last < j := by
  rcases h with rfl | ⟨k', hk', rfl, b', hb', rfl⟩
  · omega
  · rcases Nat.lt_or_ge b'.last k.index with hlt | hge
    · unfold Body.after
      omega
    · have := (hL.inside k' hk' b' hb' k hk b hb hi hge).2
      unfold Body.after
      omega

end Layout

namespace Loop

theorem passesLeft_finishVisit (l : Loop) : l.finishVisit.passesLeft = l.passesLeft := by
  unfold finishVisit
  split_ifs <;> rfl

end Loop

namespace Traversal

variable {t u : Traversal} {i j : Nat} {row : Int}

/-! ### Chains of skips -/

/-- The constructs at row `i` that skip row `j`. -/
theorem skipper?_some (hL : t.layout.Laminar) (hj : t.layout.Ahead i j) {s : Skipper} {place : Nat}
    (h : t.skipper? i j = some (s, place)) :
    (∃ p c b, s = .conditional p ∧ t.conditionals[p]? = some c ∧ c.index = i ∧ c.body = some b ∧
        j ≤ b.last ∧ place = b.after ∧ c.decision = .skip) ∨
      ∃ p l b, s = .loop p ∧ t.loops[p]? = some l ∧ l.index = i ∧ l.body = some b ∧ j ≤ b.last ∧
        place = b.after ∧ l.blocksEntry = true ∧ innermostSkipping? t.conditionals i j = none := by
  unfold skipper? at h
  cases hinner : innermostSkipping? t.conditionals i j with
  | some found =>
      obtain ⟨p, c⟩ := found
      rw [hinner] at h
      obtain ⟨rfl, rfl⟩ := Prod.mk.inj (Option.some.inj h)
      obtain ⟨hc, htest, -⟩ := innermost?_some hinner
      rw [Conditional.skips, Bool.and_assoc, Bool.and_eq_true, beq_iff_eq, Bool.and_eq_true,
        Bool.not_eq_true'] at htest
      have hk := mem_sites_of_conditionals (List.mem_of_getElem? hc)
      obtain ⟨b, hb, -, hlast⟩ := (hL.covers_iff hk).mp htest.2.1
      exact .inl ⟨p, c, b, rfl, hc, hL.index_of_ahead hj hk htest.2.1 htest.2.2, hb, hlast,
        by rw [hb]; rfl, htest.1⟩
  | none =>
      rw [hinner] at h
      dsimp only at h
      split at h
      next p l hloop =>
        obtain ⟨hl, htest, -⟩ := innermost?_some hloop
        rw [Bool.and_eq_true, Bool.and_eq_true, Bool.not_eq_true'] at htest
        have hk := mem_sites_of_loops (List.mem_of_getElem? hl)
        obtain ⟨b, hb, -, hlast⟩ := (hL.covers_iff hk).mp htest.1.1
        rw [hb, Option.map_some] at h
        obtain ⟨rfl, rfl⟩ := Prod.mk.inj (Option.some.inj h)
        exact .inr ⟨p, l, b, rfl, hl, hL.index_of_ahead hj hk htest.1.1 htest.1.2, hb, hlast, rfl,
          htest.2, rfl⟩
      next => cases h

theorem ahead_of_skipper? (hL : t.layout.Laminar) (hj : t.layout.Ahead i j) {s : Skipper}
    {place : Nat} (h : t.skipper? i j = some (s, place)) : t.layout.Ahead i place := by
  rcases skipper?_some hL hj h with ⟨p, c, b, -, hc, rfl, hb, -, rfl, -⟩ | ⟨p, l, b, -, hl, rfl, hb, -, rfl, -⟩
  · exact Layout.ahead_after (mem_sites_of_conditionals (List.mem_of_getElem? hc)) hb
  · exact Layout.ahead_after (mem_sites_of_loops (List.mem_of_getElem? hl)) hb

/-- Two conditionals at one row are the same, and so are two loops, so that after a conditional only a
loop skips. -/
theorem exists_loop_of_skipper? (hL : t.layout.Laminar) (hj : t.layout.Ahead i j) {s s' : Skipper}
    {place place' : Nat} (h : t.skipper? i j = some (s, place))
    (h' : t.skipper? i place = some (s', place')) :
    (∃ p, s = .conditional p) ∧ ∃ p, s' = .loop p := by
  have hplace := ahead_of_skipper? hL hj h
  rcases skipper?_some hL hj h with
      ⟨p, c, b, rfl, hc, hindex, hb, -, rfl, -⟩ | ⟨p, l, b, rfl, hl, hindex, hb, hle, rfl, -, hnone⟩ <;>
    rcases skipper?_some hL hplace h' with
      ⟨p', c', b', rfl, hc', hindex', hb', hle', -, hskip'⟩ | ⟨p', l', b', rfl, hl', hindex', hb', hle', -⟩
  · -- The body of the conditional ends before.
    obtain rfl := hL.conditional_place_inj (getElem?_layout_conditionals hc')
      (getElem?_layout_conditionals hc) (hindex'.trans hindex.symm)
    obtain rfl := Option.some.inj (hc.symm.trans hc')
    obtain rfl := Option.some.inj (hb.symm.trans hb')
    unfold Body.after at hle'
    omega
  · exact ⟨⟨p, rfl⟩, p', rfl⟩
  · -- The conditional would have skipped before the loop did.
    have hk' := mem_sites_of_conditionals (List.mem_of_getElem? hc')
    have hnot := innermost?_eq_none_iff.mp hnone c' (List.mem_of_getElem? hc')
    unfold Body.after at hle'
    have hlt := hL.lt_of_ahead hj
    rw [Conditional.skips, hskip', (hL.covers_body_iff hk' hb').mpr ⟨by omega, by omega⟩,
      hL.not_covers_of_le hk' (by omega)] at hnot
    cases hnot
  · obtain rfl := hL.loop_place_inj (getElem?_layout_loops hl') (getElem?_layout_loops hl)
      (hindex'.trans hindex.symm)
    obtain rfl := Option.some.inj (hl.symm.trans hl')
    obtain rfl := Option.some.inj (hb.symm.trans hb')
    unfold Body.after at hle'
    omega

/-- A loop among these skippers is at row `i` and blocks its body. -/
def Blocked (t : Traversal) (i : Nat) (skippers : List Skipper) : Prop :=
  ∀ p, .loop p ∈ skippers → ∃ l, t.loops[p]? = some l ∧ l.index = i ∧ l.blocksEntry = true

theorem blocked_nil (t : Traversal) (i : Nat) : t.Blocked i [] :=
  fun _ hp => absurd hp List.not_mem_nil

theorem blocked_cons (hL : t.layout.Laminar) (hj : t.layout.Ahead i j) {s : Skipper} {place : Nat}
    (h : t.skipper? i j = some (s, place)) {skippers : List Skipper} (hs : t.Blocked i skippers) :
    t.Blocked i (s :: skippers) := by
  intro p hp
  rcases List.mem_cons.mp hp with rfl | hp
  · rcases skipper?_some hL hj h with ⟨q, c, b, hs, -⟩ | ⟨q, l, b, hs, hl, hindex, -, -, -, hblocks, -⟩
    · cases hs
    · obtain rfl := Skipper.loop.inj hs
      exact ⟨l, hl, hindex, hblocks⟩
  · exact hs p hp

/-- Nothing skips after a loop. -/
theorem skipper?_after_loop (hL : t.layout.Laminar) (hj : t.layout.Ahead i j) {p place : Nat}
    (h : t.skipper? i j = some (.loop p, place)) : t.skipper? i place = none := by
  cases h' : t.skipper? i place with
  | none => rfl
  | some found =>
      obtain ⟨⟨q, hq⟩, -⟩ := exists_loop_of_skipper? hL hj h h'
      cases hq

/-- A chain ends where nothing skips, or off the chart. -/
theorem extendSkip_of_free {place : Nat} (h : place < t.rows.size → t.skipper? i place = none) (n : Nat) :
    t.extendSkip i (n + 1) place = (place, [], false) := by
  rw [extendSkip]
  split_ifs with hsize
  · rw [h hsize]
  · rfl

/-- The chains of skips from row `i` to row `j`, which end where nothing skips: a conditional and a loop at
row `i` are all that can skip. -/
inductive Chained (t : Traversal) (i j : Nat) : SkipChain → Prop where
  | once {s : Skipper} {place : Nat} (hskip : t.skipper? i j = some (s, place))
      (hfree : place < t.rows.size → t.skipper? i place = none) :
      Chained t i j ⟨reasonOf s, if place < t.rows.size then some place else none, [s], false⟩
  | twice {p q place last : Nat} (hskip : t.skipper? i j = some (.conditional p, place))
      (hskip' : t.skipper? i place = some (.loop q, last)) (hfree : t.skipper? i last = none) :
      Chained t i j ⟨.branchSkip, if last < t.rows.size then some last else none,
        [.conditional p, .loop q], false⟩

theorem chained_skipChain? (hL : t.layout.Laminar) (hj : t.layout.Ahead i j) {chain : SkipChain}
    (h : t.skipChain? i j = some chain) : t.Chained i j chain := by
  unfold skipChain? at h
  obtain ⟨⟨s, place⟩, hs, rfl⟩ := Option.map_eq_some_iff.mp h
  dsimp only
  rw [show maxSkips - 1 = maxSkips - 3 + 1 + 1 from rfl]
  by_cases hfree : place < t.rows.size → t.skipper? i place = none
  · rw [extendSkip_of_free hfree]
    exact .once hs hfree
  · obtain ⟨hsize, hsome⟩ := Classical.not_imp.mp hfree
    obtain ⟨⟨s', last⟩, hs'⟩ := Option.ne_none_iff_exists'.mp hsome
    obtain ⟨⟨p, rfl⟩, q, rfl⟩ := exists_loop_of_skipper? hL hj hs hs'
    have hlast := skipper?_after_loop hL (ahead_of_skipper? hL hj hs) hs'
    have hend : t.extendSkip i (maxSkips - 3 + 1 + 1) place = (last, [.loop q], false) := by
      rw [extendSkip, if_pos hsize, hs']
      dsimp only
      rw [extendSkip_of_free fun _ => hlast]
    rw [hend]
    exact .twice hs hs' hlast

/-- A row that nothing skips lies in no body of a conditional that is not taken, unless navigation starts in
that body. -/
theorem not_skips_of_settled {c : Conditional} (hc : c ∈ t.conditionals) (hcovers : c.covers j = true)
    (hout : c.covers i = false) (h : t.skipper? i j = none) : c.decision ≠ .skip := by
  intro hskip
  unfold skipper? at h
  cases hinner : innermostSkipping? t.conditionals i j with
  | some found =>
      rw [hinner] at h
      cases h
  | none =>
      have := innermost?_eq_none_iff.mp hinner c hc
      rw [Conditional.skips, hskip, hcovers, hout] at this
      cases this

/-- The same for the bodies of loops that block them. -/
theorem blocksEntry_of_settled {l : Loop} (hl : l ∈ t.loops) (hcovers : l.covers j = true)
    (hout : l.covers i = false) (h : t.skipper? i j = none) : l.blocksEntry = false := by
  rw [← Bool.not_eq_true]
  intro hblocks
  unfold skipper? at h
  split at h
  next => cases h
  next =>
    split at h
    next q m hfound =>
      obtain ⟨-, htest, -⟩ := innermost?_some hfound
      rw [Bool.and_eq_true, Bool.and_eq_true] at htest
      obtain ⟨b, hb, -⟩ := (Construct.covers_iff _ _).mp htest.1.1
      rw [hb] at h
      cases h
    next hnone =>
      have := innermost?_eq_none_iff.mp hnone l hl
      rw [hcovers, hout, hblocks] at this
      cases this

/-! ### The way forwards -/

/-- A way forwards from row `i`: what is skipped, and the row where it ends, if it does not lead off the
chart.  Nothing skips that row. -/
structure Forward (t : Traversal) (i : Nat) (skippers : List Skipper) (landing : Option Nat) : Prop where
  blocked : t.Blocked i skippers
  ahead : ∀ j, landing = some j → t.layout.Ahead i j
  inRange : ∀ j, landing = some j → j < t.rows.size
  settled : ∀ j, landing = some j → t.skipper? i j = none

theorem forward_of_ends {skippers : List Skipper} {last : Nat} (hblocked : t.Blocked i skippers)
    (hahead : t.layout.Ahead i last) (hfree : last < t.rows.size → t.skipper? i last = none) :
    t.Forward i skippers (if last < t.rows.size then some last else none) := by
  split_ifs with hsize
  · exact ⟨hblocked, fun j hj => Option.some.inj hj ▸ hahead, fun j hj => Option.some.inj hj ▸ hsize,
      fun j hj => Option.some.inj hj ▸ hfree hsize⟩
  · exact ⟨hblocked, nofun, nofun, nofun⟩

theorem forward_chain (hL : t.layout.Laminar) (hj : t.layout.Ahead i j) {chain : SkipChain}
    (h : t.skipChain? i j = some chain) :
    t.Forward i chain.skippers chain.landing ∧ chain.reason ≠ .loopBack := by
  cases chained_skipChain? hL hj h with
  | @once s place hskip hfree =>
      refine ⟨forward_of_ends (blocked_cons hL hj hskip (t.blocked_nil i))
        (ahead_of_skipper? hL hj hskip) hfree, ?_⟩
      cases s <;> exact Reason.noConfusion
  | twice hskip hskip' hfree =>
      have hplace := ahead_of_skipper? hL hj hskip
      exact ⟨forward_of_ends (blocked_cons hL hj hskip (blocked_cons hL hplace hskip' (t.blocked_nil i)))
        (ahead_of_skipper? hL hplace hskip') fun _ => hfree, Reason.noConfusion⟩

theorem forward_next {next : Option Nat} (hnext : ∀ j, next = some j → j = i + 1 ∧ j < t.rows.size)
    (h : next.bind (t.skipChain? i) = none) : t.Forward i [] next where
  blocked p hp := (nomatch hp)
  ahead j hj := .inl (hnext j hj).1
  inRange j hj := (hnext j hj).2
  settled j hj := by
    rw [hj, Option.bind_some] at h
    exact Option.map_eq_none_iff.mp h

/-! ### Ending passes -/

/-- The loops that end a pass when row `i` is left for the row `landing`, or for the end of the chart:
inner loops come first. -/
structure Exits (t : Traversal) (i : Nat) (landing : Option Nat) (places : List Nat) : Prop where
  holds : ∀ p ∈ places, ∃ l, t.loops[p]? = some l ∧ l.covers i = true ∧
    ∀ j, landing = some j → l.covers j = false
  inner : places.Pairwise fun p q =>
    ∀ l m, t.loops[p]? = some l → t.loops[q]? = some m → m.index < l.index
  all : t.layout.Gapless → ∀ p l, t.loops[p]? = some l → l.covers i = true →
    (∀ j, landing = some j → l.covers j = false) → p ∈ places

/-- Of two loops that hold a row the deeper one has its anchor later. -/
theorem inner_innermostFirst (hL : t.layout.Laminar) {test : Loop → Bool}
    (htest : ∀ l ∈ t.loops, test l = true → l.covers i = true) :
    (innermostFirst Loop.toConstruct test t.loops).Pairwise fun p q =>
      ∀ l m, t.loops[p]? = some l → t.loops[q]? = some m → m.index < l.index := by
  have hcovers : ∀ p ∈ innermostFirst Loop.toConstruct test t.loops, ∀ l, t.loops[p]? = some l →
      l.covers i = true := by
    intro p hp l hl
    obtain ⟨l', hl', htrue⟩ := (mem_innermostFirst p).mp hp
    obtain rfl := Option.some.inj (hl.symm.trans hl')
    exact htest l (List.mem_of_getElem? hl) htrue
  refine (pairwise_innermostFirst.and nodup_innermostFirst).imp_of_mem ?_
  rintro p q hp hq ⟨hdeep, hne⟩ l m hl hm
  rw [siteAt_of_getElem? hl, siteAt_of_getElem? hm, Construct.atOrInside_iff] at hdeep
  have hls := mem_sites_of_loops (List.mem_of_getElem? hl)
  have hms := mem_sites_of_loops (List.mem_of_getElem? hm)
  rcases Nat.lt_trichotomy m.index l.index with hlt | heq | hlt
  · exact hlt
  · exact absurd (hL.loop_place_inj (getElem?_layout_loops hl) (getElem?_layout_loops hm) heq.symm) hne
  · have := (hL.inside_of_covers hls hms (hcovers p hp l hl) (hcovers q hq m hm) hlt).1
    omega

theorem mem_exitedBy_iff {landing : Option Nat} {p : Nat} : p ∈ exitedBy t.loops i landing ↔
    ∃ l, t.loops[p]? = some l ∧ l.covers i = true ∧ ∀ j, landing = some j → l.covers j = false := by
  unfold exitedBy
  rw [mem_innermostFirst]
  refine exists_congr fun l => and_congr_right fun _ => ?_
  rw [Bool.and_eq_true]
  cases landing <;> simp

theorem exits_exitedBy (hL : t.layout.Laminar) (landing : Option Nat) :
    t.Exits i landing (exitedBy t.loops i landing) where
  holds _ hp := mem_exitedBy_iff.mp hp
  inner := inner_innermostFirst hL fun _ _ htest => (Bool.and_eq_true _ _ ▸ htest).1
  all _ _ l hl hcovers hout := mem_exitedBy_iff.mpr ⟨l, hl, hcovers, hout⟩

/-- A loop that holds a row but not the next one ends there. -/
theorem exits_endingAt (hL : t.layout.Laminar) {next : Option Nat}
    (hnext : ∀ j, next = some j → j = i + 1)
    (hlast : t.layout.Gapless → next = none → t.rows.size = i + 1) :
    t.Exits i next (endingAt t.loops i) where
  holds p hp := by
    obtain ⟨l, hl, hend⟩ := (mem_innermostFirst p).mp hp
    have hls := mem_sites_of_loops (List.mem_of_getElem? hl)
    obtain ⟨b, hb, rfl⟩ := (Construct.endsAt_iff _ _).mp hend
    obtain ⟨hfirst, hord, -⟩ := hL.bodies _ hls b hb
    refine ⟨l, hl, (Construct.covers_iff _ _).mpr ⟨b, hb, hord, Nat.le_refl _⟩, fun j hj => ?_⟩
    exact hL.not_covers_of_past hls hb (by rw [hnext j hj]; omega)
  inner := by
    refine inner_innermostFirst (i := i) hL fun l hl hend => ?_
    obtain ⟨b, hb, rfl⟩ := (Construct.endsAt_iff _ _).mp hend
    obtain ⟨hfirst, hord, -⟩ := hL.bodies _ (mem_sites_of_loops hl) b hb
    exact (Construct.covers_iff _ _).mpr ⟨b, hb, hord, Nat.le_refl _⟩
  all hgapless p l hl hcovers hout := by
    have hls := mem_sites_of_loops (List.mem_of_getElem? hl)
    obtain ⟨b, hb, hlt, hle⟩ := (hL.covers_iff hls).mp hcovers
    refine (mem_innermostFirst p).mpr ⟨l, hl, (Construct.endsAt_iff _ _).mpr ⟨b, hb, ?_⟩⟩
    cases next with
    | none =>
        have hsize := hlast hgapless rfl
        have : b.last < t.rows.size := (hL.bodies _ hls b hb).2.2
        omega
    | some j =>
        have hnot := hout j rfl
        rw [← Bool.not_eq_true, hL.covers_body_iff hls hb, hnext j rfl] at hnot
        omega

/-- The running loops at some places end a pass. -/
def closing (t : Traversal) (places : List Nat) : Traversal :=
  { t with
    loops := t.loops.mapIdx fun p l =>
      if p ∈ places ∧ l.visit = .running then l.finishPass else l }

theorem getElem?_closing (t : Traversal) (places : List Nat) (p : Nat) :
    (t.closing places).loops[p]? = (t.loops[p]?).map fun l =>
      if p ∈ places ∧ l.visit = .running then l.finishPass else l := List.getElem?_mapIdx

theorem eq_of_loops (hrows : t.rows = u.rows) (hconditionals : t.conditionals = u.conditionals)
    (hloops : ∀ p : Nat, t.loops[p]? = u.loops[p]?) : t = u := by
  cases t
  cases u
  obtain rfl := hrows
  obtain rfl := hconditionals
  obtain rfl := List.ext_getElem? hloops
  rfl

theorem closing_nil (t : Traversal) : t.closing [] = t := by
  refine eq_of_loops rfl rfl fun q => ?_
  rw [getElem?_closing]
  simp

theorem closing_cons {p : Nat} {places : List Nat} (hp : p ∉ places) :
    t.closing (p :: places) = (t.closing [p]).closing places := by
  refine eq_of_loops rfl rfl fun q => ?_
  rw [getElem?_closing, getElem?_closing, getElem?_closing, Option.map_map]
  refine congrArg (fun f => Option.map f _) (funext fun l => ?_)
  by_cases hq : q = p
  · subst hq
    simp [hp]
  · simp [hq]

theorem modifyLoop_finishPass {p : Nat} {l : Loop} (hl : t.loops[p]? = some l)
    (hrunning : l.visit = .running) : t.modifyLoop p Loop.finishPass = t.closing [p] := by
  refine eq_of_loops rfl rfl fun q => ?_
  rw [getElem?_modifyLoop, getElem?_closing]
  by_cases hq : p = q
  · subst hq
    simp [hl, hrunning]
  · simp [hq, Ne.symm hq]

theorem closing_of_not_running {p : Nat}
    (h : ∀ l, t.loops[p]? = some l → l.visit ≠ .running) : t.closing [p] = t := by
  refine eq_of_loops rfl rfl fun q => ?_
  rw [getElem?_closing]
  cases hq : t.loops[q]? with
  | none => rfl
  | some l =>
      by_cases hqp : q = p
      · subst hqp
        simp [h l hq]
      · simp [hqp]

/-- The running loops at these places have no pass left. -/
def Spent (t : Traversal) (places : List Nat) : Prop :=
  ∀ p ∈ places, ∀ l, t.loops[p]? = some l → l.visit = .running → l.repeats = false

theorem getElem?_closing_of_not_mem {p : Nat} {places : List Nat} (hp : p ∉ places) :
    (t.closing places).loops[p]? = t.loops[p]? := by
  rw [getElem?_closing]
  simp [hp]

theorem spent_cons {p : Nat} {places : List Nat} (hp : p ∉ places)
    (hspent : ∀ l, t.loops[p]? = some l → l.visit = .running → l.repeats = false)
    (h : (t.closing [p]).Spent places) : t.Spent (p :: places) := by
  intro q hmem l hl
  rcases List.mem_cons.mp hmem with rfl | hq
  · exact hspent l hl
  · refine h q hq l ?_
    have hne : q ∉ [p] := fun h => hp (List.mem_singleton.mp h ▸ hq)
    rw [getElem?_closing_of_not_mem hne, hl]

/-- Ending the passes of further loops, when the first one does not repeat. -/
theorem closePasses_cons {p : Nat} {places : List Nat}
    (hspent : ∀ l, t.loops[p]? = some l → l.visit = .running → l.repeats = false) :
    t.closePasses (p :: places) = (t.closing [p]).closePasses places := by
  rw [closePasses]
  cases hl : t.loops[p]? with
  | none =>
      dsimp only
      rw [closing_of_not_running fun l hl' => by rw [hl] at hl'; cases hl']
  | some l =>
      dsimp only
      split_ifs with hrunning
      · rw [hspent l hl hrunning, modifyLoop_finishPass hl hrunning]
      · rw [closing_of_not_running fun l' hl' => by
          obtain rfl := Option.some.inj (hl.symm.trans hl')
          exact hrunning]

/-- Passes end up to the first loop that repeats. -/
theorem closePasses_cases (t : Traversal) (places : List Nat) (hnodup : places.Nodup)
    (hbody : ∀ p ∈ places, ∀ l, t.loops[p]? = some l → l.body.isSome) :
    (t.closePasses places = (t.closing places, none) ∧ t.Spent places) ∨
      ∃ before p after l b, places = before ++ p :: after ∧ t.Spent before ∧
        t.loops[p]? = some l ∧ l.visit = .running ∧ l.repeats = true ∧ l.body = some b ∧
        t.closePasses places = ((t.closing (before ++ [p])).nextPass p, some b.first) := by
  induction places generalizing t with
  | nil => exact .inl ⟨by rw [closing_nil]; rfl, fun p hp => (nomatch hp)⟩
  | cons p places ih =>
      obtain ⟨hp, hrest⟩ := List.nodup_cons.mp hnodup
      by_cases hrepeats : ∃ l, t.loops[p]? = some l ∧ l.visit = .running ∧ l.repeats = true
      · obtain ⟨l, hl, hrunning, hagain⟩ := hrepeats
        obtain ⟨b, hb⟩ := Option.isSome_iff_exists.mp (hbody p List.mem_cons_self l hl)
        refine .inr ⟨[], p, places, l, b, rfl, fun q hq => (nomatch hq), hl, hrunning, hagain, hb, ?_⟩
        rw [closePasses, hl]
        dsimp only
        rw [if_pos hrunning, hagain, hb, modifyLoop_finishPass hl hrunning]
        rfl
      · have hspent : ∀ l, t.loops[p]? = some l → l.visit = .running → l.repeats = false := by
          intro l hl hrunning
          rw [← Bool.not_eq_true]
          exact fun hagain => hrepeats ⟨l, hl, hrunning, hagain⟩
        have hsame : ∀ q ∈ places, (t.closing [p]).loops[q]? = t.loops[q]? :=
          fun q hq => getElem?_closing_of_not_mem fun h => hp (List.mem_singleton.mp h ▸ hq)
        rw [closePasses_cons hspent]
        rcases ih (t.closing [p]) hrest (fun q hq l hl =>
          hbody q (List.mem_cons_of_mem _ hq) l (hsame q hq ▸ hl)) with
          ⟨heq, hrestSpent⟩ | ⟨before, q, after, l, b, rfl, hrestSpent, hl, hrunning, hagain, hb, heq⟩
        · exact .inl ⟨by rw [heq, closing_cons hp], spent_cons hp hspent hrestSpent⟩
        · refine .inr ⟨p :: before, q, after, l, b, rfl, ?_, ?_, hrunning, hagain, hb, ?_⟩
          · exact spent_cons (fun hmem => hp (List.mem_append_left _ hmem)) hspent hrestSpent
          · rw [← hsame q (List.mem_append_right _ List.mem_cons_self), hl]
          · have hnot : p ∉ before ++ [q] := fun hmem => hp (List.mem_append.mpr
              ((List.mem_append.mp hmem).imp_right fun h => by
                rw [List.mem_singleton.mp h]
                exact List.mem_cons_self))
            rw [heq, List.cons_append, closing_cons hnot]

/-! ### Frames -/

theorem exists_loop_of_layout (h : u.layout = t.layout) {p : Nat} {l : Loop}
    (hl : t.loops[p]? = some l) :
    ∃ m, u.loops[p]? = some m ∧ m.toConstruct = l.toConstruct ∧ m.codes = l.codes := by
  have hlayout := getElem?_layout_loops hl
  rw [← h] at hlayout
  simp only [layout, List.getElem?_map] at hlayout
  obtain ⟨m, hm, heq⟩ := Option.map_eq_some_iff.mp hlayout
  exact ⟨m, hm, (Prod.mk.inj heq).1, (Prod.mk.inj heq).2⟩

theorem exists_conditional_of_layout (h : u.layout = t.layout) {p : Nat} {c : Conditional}
    (hc : t.conditionals[p]? = some c) :
    ∃ d, u.conditionals[p]? = some d ∧ d.toConstruct = c.toConstruct ∧ d.codes = c.codes := by
  have hlayout := getElem?_layout_conditionals hc
  rw [← h] at hlayout
  simp only [layout, List.getElem?_map] at hlayout
  obtain ⟨d, hd, heq⟩ := Option.map_eq_some_iff.mp hlayout
  exact ⟨d, hd, (Prod.mk.inj heq).1, (Prod.mk.inj heq).2⟩

theorem layout_closing (t : Traversal) (places : List Nat) : (t.closing places).layout = t.layout := by
  unfold layout
  congr 1
  refine List.ext_getElem? fun q => ?_
  rw [List.getElem?_map, List.getElem?_map, getElem?_closing, Option.map_map]
  refine congrArg (fun f => Option.map f _) (funext fun l => ?_)
  dsimp only [Function.comp_apply]
  split_ifs <;> simp

theorem layout_finishSkipped (t : Traversal) (skippers : List Skipper) :
    (t.finishSkipped skippers).layout = t.layout := by
  unfold finishSkipped
  induction skippers generalizing t with
  | nil => rfl
  | cons s skippers ih =>
      rw [List.foldl_cons, ih]
      cases s with
      | conditional => rfl
      | loop p => exact t.layout_modifyLoop p Loop.site_finishVisit Loop.codes_finishVisit

theorem rows_finishSkipped (t : Traversal) (skippers : List Skipper) :
    (t.finishSkipped skippers).rows = t.rows := congrArg Layout.rows (t.layout_finishSkipped skippers)

theorem conditionals_finishSkipped (t : Traversal) (skippers : List Skipper) :
    (t.finishSkipped skippers).conditionals = t.conditionals := by
  unfold finishSkipped
  induction skippers generalizing t with
  | nil => rfl
  | cons s skippers ih =>
      rw [List.foldl_cons, ih]
      cases s <;> rfl

theorem getElem?_finishSkipped {p : Nat} {skippers : List Skipper} (hp : .loop p ∉ skippers) :
    (t.finishSkipped skippers).loops[p]? = t.loops[p]? := by
  unfold finishSkipped
  induction skippers generalizing t with
  | nil => rfl
  | cons s skippers ih =>
      rw [List.mem_cons, not_or] at hp
      rw [List.foldl_cons, ih hp.2]
      cases s with
      | conditional => rfl
      | loop q =>
          dsimp only
          rw [getElem?_modifyLoop]
          have hne : q ≠ p := fun h => hp.1 (h ▸ rfl)
          simp [hne]

/-- Only a loop at the row that blocks its body is skipped. -/
theorem Blocked.getElem?_finishSkipped {skippers : List Skipper} (h : t.Blocked i skippers) {p : Nat}
    {l : Loop} (hl : t.loops[p]? = some l) (hfree : l.index = i → l.blocksEntry = false) :
    (t.finishSkipped skippers).loops[p]? = some l := by
  rw [Traversal.getElem?_finishSkipped, hl]
  intro hp
  obtain ⟨l', hl', hindex, hblocks⟩ := h p hp
  obtain rfl := Option.some.inj (hl.symm.trans hl')
  rw [hfree hindex] at hblocks
  cases hblocks

theorem layout_enterBodies (t : Traversal) (start target : Nat) :
    (t.enterBodies start target).layout = t.layout := by
  unfold layout enterBodies
  congr 1
  rw [List.map_map]
  refine List.map_congr_left fun l _ => ?_
  dsimp only [Function.comp_apply]
  split_ifs <;> rfl

theorem getElem?_nextPass (t : Traversal) (place p : Nat) :
    (t.nextPass place).loops[p]? =
      (t.loops[p]?).map fun l => if l.parent = some place then l.advance else l := List.getElem?_map

theorem getElem?_enterBodies (t : Traversal) (start target p : Nat) :
    (t.enterBodies start target).loops[p]? = (t.loops[p]?).map fun l =>
      if l.startsAt target && !l.covers start && !l.blocksEntry then l.enterBody else l :=
  List.getElem?_map

/-- Visits of other rows do not reach a loop. -/
theorem getElem?_arrive {p : Nat} {l : Loop} (hl : t.loops[p]? = some l) (hne : l.anchor ≠ row) :
    (t.arrive row).loops[p]? = some l := by
  simp only [arrive, List.getElem?_map, hl, Option.map_some, if_neg hne]

/-! ### Departures -/

/-- What leaving row `i` does: a loop that repeats is followed back to the start of its body, or else
navigation goes on to a row, or off the chart. -/
inductive Leaves (t : Traversal) (row : Int) (i : Nat) : Traversal → Navigation → Prop where
  | back {skippers : List Skipper} {landing : Option Nat} {before after : List Nat} {p : Nat}
      {l : Loop} {b : Body} (hforward : t.Forward i skippers landing)
      (hexits : (t.finishSkipped skippers).Exits i landing (before ++ p :: after))
      (hspent : (t.finishSkipped skippers).Spent before)
      (hl : (t.finishSkipped skippers).loops[p]? = some l) (hrunning : l.visit = .running)
      (hrepeats : l.repeats = true) (hb : l.body = some b) :
      Leaves t row i (((t.finishSkipped skippers).closing (before ++ [p])).nextPass p)
        ⟨row, t.rows[b.first]?, .loopBack⟩
  | on {skippers : List Skipper} {j : Nat} {places : List Nat} {reason : Reason}
      (hforward : t.Forward i skippers (some j))
      (hexits : (t.finishSkipped skippers).Exits i (some j) places)
      (hspent : (t.finishSkipped skippers).Spent places) (hreason : reason ≠ .loopBack) :
      Leaves t row i (((t.finishSkipped skippers).closing places).enterBodies i j)
        ⟨row, t.rows[j]?, reason⟩
  | off {skippers : List Skipper} {places : List Nat} {reason : Reason}
      (hforward : t.Forward i skippers none)
      (hexits : (t.finishSkipped skippers).Exits i none places)
      (hspent : (t.finishSkipped skippers).Spent places) (hreason : reason ≠ .loopBack) :
      Leaves t row i ((t.finishSkipped skippers).closing places) ⟨row, none, reason⟩

theorem Exits.nodup {landing : Option Nat} {places : List Nat} (h : t.Exits i landing places) :
    places.Nodup := by
  refine h.inner.imp_of_mem ?_
  rintro p q hp - hinner rfl
  obtain ⟨l, hl, -⟩ := h.holds p hp
  exact lt_irrefl _ (hinner l l hl hl)

theorem Exits.isSome_body {landing : Option Nat} {places : List Nat} (h : t.Exits i landing places) :
    ∀ p ∈ places, ∀ l, t.loops[p]? = some l → l.body.isSome := by
  intro p hp l hl
  obtain ⟨l', hl', hcovers, -⟩ := h.holds p hp
  obtain rfl := Option.some.inj (hl.symm.trans hl')
  obtain ⟨b, hb, -⟩ := (Construct.covers_iff _ _).mp hcovers
  rw [hb]
  rfl

/-- How row `i` is left for the row at `landing`, or off the chart if there is none: the first of the loops
at `places` repeats that has passes left, or else all of them end a pass and navigation goes on. -/
inductive Parts (t : Traversal) (row : Int) (i : Nat) (places : List Nat) (landing : Option Nat)
    (onward ending : Reason) : Traversal × Navigation → Prop where
  | back {before after : List Nat} {p : Nat} {l : Loop} {b : Body}
      (hplaces : places = before ++ p :: after) (hspent : t.Spent before)
      (hl : t.loops[p]? = some l) (hrunning : l.visit = .running) (hrepeats : l.repeats = true)
      (hb : l.body = some b) :
      Parts t row i places landing onward ending
        ((t.closing (before ++ [p])).nextPass p, ⟨row, t.rows[b.first]?, .loopBack⟩)
  | on {j : Nat} (hland : landing = some j) (hspent : t.Spent places) :
      Parts t row i places landing onward ending
        ((t.closing places).enterBodies i j, ⟨row, t.rows[j]?, onward⟩)
  | off (hland : landing = none) (hspent : t.Spent places) :
      Parts t row i places landing onward ending (t.closing places, ⟨row, none, ending⟩)

theorem parts_departSkipping (hL : t.layout.Laminar) (row : Int) (i : Nat) (chain : SkipChain) :
    let s := t.finishSkipped chain.skippers
    s.Exits i chain.landing (exitedBy s.loops i chain.landing) ∧
      s.Parts row i (exitedBy s.loops i chain.landing) chain.landing chain.reason chain.reason
        (t.departSkipping row i chain) := by
  have hexits := exits_exitedBy (i := i) ((t.layout_finishSkipped chain.skippers).symm ▸ hL) chain.landing
  refine ⟨hexits, ?_⟩
  unfold departSkipping
  dsimp only
  rcases closePasses_cases _ _ hexits.nodup hexits.isSome_body with
    ⟨heq, hspent⟩ | ⟨before, p, after, l, b, hplaces, hspent, hl, hrunning, hrepeats, hb, heq⟩
  · rw [heq]
    cases hland : chain.landing with
    | none => exact .off rfl (hland ▸ hspent)
    | some j => exact .on rfl (hland ▸ hspent)
  · rw [heq]
    exact .back hplaces hspent hl hrunning hrepeats hb

theorem Parts.leaves (skippers : List Skipper) {places : List Nat} {landing : Option Nat}
    {onward ending : Reason} {r : Traversal × Navigation}
    (h : (t.finishSkipped skippers).Parts row i places landing onward ending r)
    (hforward : t.Forward i skippers landing)
    (hexits : (t.finishSkipped skippers).Exits i landing places) (honward : onward ≠ .loopBack)
    (hending : ending ≠ .loopBack) : t.Leaves row i r.1 r.2 := by
  cases h with
  | back hplaces hspent hl hrunning hrepeats hb =>
      rw [rows_finishSkipped]
      exact .back hforward (hplaces ▸ hexits) hspent hl hrunning hrepeats hb
  | on hland hspent =>
      subst hland
      rw [rows_finishSkipped]
      exact .on hforward hexits hspent honward
  | off hland hspent =>
      subst hland
      exact .off hforward hexits hspent hending

/-- The id below that of a row belongs to the next row, if to any. -/
theorem eq_succ_of_rowIndex? (hL : t.layout.Laminar) (hi : t.rows[i]? = some row)
    (hj : t.rowIndex? (row - 1) = some j) : j = i + 1 ∧ j < t.rows.size := by
  have hrow := getElem?_of_rowIndex? hj
  have hsize := (Array.getElem?_eq_some_iff.mp hrow).1
  refine ⟨?_, hsize⟩
  rcases Nat.lt_trichotomy j (i + 1) with hlt | heq | hlt
  · have hle : row ≤ row - 1 := by
      rcases Nat.eq_or_lt_of_le (Nat.le_of_lt_succ hlt) with rfl | hless
      · exact le_of_eq (Option.some.inj (hi.symm.trans hrow))
      · exact le_of_lt (hL.falling j i _ _ hless hrow hi)
    omega
  · exact heq
  · have hnext := Array.getElem?_eq_getElem (show i + 1 < t.rows.size by omega)
    have h1 := hL.falling i (i + 1) _ _ (Nat.lt_succ_self i) hi hnext
    have h2 := hL.falling (i + 1) j _ _ hlt hnext hrow
    omega

theorem size_of_rowIndex? (hL : t.layout.Laminar) (hgapless : t.layout.Gapless)
    (hi : t.rows[i]? = some row) (hnone : t.rowIndex? (row - 1) = none) : t.rows.size = i + 1 := by
  have hsize := (Array.getElem?_eq_some_iff.mp hi).1
  by_contra hne
  have hnext := Array.getElem?_eq_getElem (show i + 1 < t.rows.size by omega)
  have hrow := hgapless i _ hnext
  rw [show t.layout.rows[i]? = some row from hi] at hrow
  have heq := Option.some.inj hrow
  rw [show t.rows[i + 1] = row - 1 by omega] at hnext
  rw [rowIndex?_eq_some hL hnext] at hnone
  cases hnone

theorem parts_departPlainly (hL : t.layout.Laminar) (hi : t.rows[i]? = some row) :
    let next := t.rowIndex? (row - 1)
    t.Exits i next (endingAt t.loops i) ∧
      t.Parts row i (endingAt t.loops i) next .next .stop (t.departPlainly row i next) := by
  have hexits := exits_endingAt (i := i) hL (fun j hj => (eq_succ_of_rowIndex? hL hi hj).1) fun hgapless =>
    size_of_rowIndex? hL hgapless hi
  refine ⟨hexits, ?_⟩
  unfold departPlainly
  rcases closePasses_cases _ _ hexits.nodup hexits.isSome_body with
    ⟨heq, hspent⟩ | ⟨before, p, after, l, b, hplaces, hspent, hl, hrunning, hrepeats, hb, heq⟩
  · rw [heq]
    cases hnext : t.rowIndex? (row - 1) with
    | none => exact .off rfl hspent
    | some j =>
        dsimp only
        rw [← getElem?_of_rowIndex? hnext]
        exact .on rfl hspent
  · rw [heq]
    exact .back hplaces hspent hl hrunning hrepeats hb

/-- A departure skips the next row along a chain of skips, or does without. -/
theorem depart_ways (hL : t.layout.Laminar) (hi : t.rows[i]? = some row) :
    (∃ chain, t.rowIndex? (row - 1) = some (i + 1) ∧ t.skipChain? i (i + 1) = some chain ∧
        t.depart row = t.departSkipping row i chain) ∨
      (t.rowIndex? (row - 1)).bind (t.skipChain? i) = none ∧
        t.depart row = t.departPlainly row i (t.rowIndex? (row - 1)) := by
  have hrow := rowIndex?_eq_some hL hi
  cases hchain : (t.rowIndex? (row - 1)).bind (t.skipChain? i) with
  | some chain =>
      obtain ⟨j, hj, hskip⟩ := Option.bind_eq_some_iff.mp hchain
      obtain ⟨rfl, -⟩ := eq_succ_of_rowIndex? hL hi hj
      exact .inl ⟨chain, hj, hskip, depart_of_chain hrow hchain⟩
  | none => exact .inr ⟨rfl, depart_of_unchained hrow hchain⟩

/-- A departure goes back to the start of a body, on to a row or off the chart. -/
theorem leaves_depart (hL : t.layout.Laminar) (hi : t.rows[i]? = some row) :
    t.Leaves row i (t.depart row).1 (t.depart row).2 := by
  rcases depart_ways hL hi with ⟨chain, -, hchain, heq⟩ | ⟨hchain, heq⟩
  · obtain ⟨hforward, hreason⟩ := forward_chain hL (.inl rfl) hchain
    obtain ⟨hexits, hparts⟩ := parts_departSkipping hL row i chain
    rw [heq]
    exact hparts.leaves _ hforward hexits hreason hreason
  · obtain ⟨hexits, hparts⟩ := parts_departPlainly hL hi
    rw [heq]
    exact hparts.leaves [] (forward_next (fun j => eq_succ_of_rowIndex? hL hi) hchain) hexits
      Reason.noConfusion Reason.noConfusion

theorem Leaves.source {nav : Navigation} (h : t.Leaves row i u nav) : nav.source = row := by
  cases h <;> rfl

theorem Leaves.layout {nav : Navigation} (h : t.Leaves row i u nav) : u.layout = t.layout := by
  cases h with
  | back => rw [layout_nextPass, layout_closing, layout_finishSkipped]
  | on => rw [layout_enterBodies, layout_closing, layout_finishSkipped]
  | off => rw [layout_closing, layout_finishSkipped]

/-- Navigation comes to a row of the chart. -/
theorem Leaves.exists_row {nav : Navigation} (h : t.Leaves row i u nav) {next : Int}
    (hnext : nav.target = some next) : ∃ j : Nat, t.rows[j]? = some next := by
  cases h with
  | back => exact ⟨_, hnext⟩
  | on => exact ⟨_, hnext⟩
  | off => cases hnext

theorem leaves_visit (hL : t.layout.Laminar) (hi : t.rows[i]? = some row) :
    (t.arrive row).Leaves row i (t.visit row).1 (t.visit row).2 :=
  leaves_depart ((t.layout_arrive row).symm ▸ hL) hi

theorem layout_visit (hL : t.layout.Laminar) (hi : t.rows[i]? = some row) :
    (t.visit row).1.layout = t.layout := (leaves_visit hL hi).layout.trans (t.layout_arrive row)

/-! ### Walks -/

/-- The walk through a chart from its first row on. -/
def tour (steps : Nat) (t : Traversal) : Traversal × List Navigation :=
  match t.firstRow? with
  | some row => t.walk steps row
  | none => (t, [])

/-- Whether a row lies in the body of a construct. -/
def isInside (t : Traversal) (k : Construct) (row : Int) : Bool :=
  (t.rowIndex? row).any fun i => k.covers i

theorem isInside_eq (hL : t.layout.Laminar) (hi : t.rows[i]? = some row) (k : Construct) :
    t.isInside k row = k.covers i := by
  rw [isInside, rowIndex?_eq_some hL hi]
  rfl

/-- A walk that starts at `row` takes these steps, and with them comes to a state and a row. -/
inductive Comes (t : Traversal) (row : Int) : List Navigation → Traversal → Int → Prop where
  | start : Comes t row [] t row
  | step {navs : List Navigation} {u : Traversal} {here next : Int} (h : Comes t row navs u here)
      (hnext : (u.visit here).2.target = some next) :
      Comes t row (navs ++ [(u.visit here).2]) (u.visit here).1 next

variable {navs : List Navigation} {here next : Int}

theorem Comes.cons (hnext : (t.visit row).2.target = some next)
    (h : Comes (t.visit row).1 next navs u here) : Comes t row ((t.visit row).2 :: navs) u here := by
  induction h with
  | start => exact Comes.start.step hnext
  | step _ hafter ih => exact ih.step hafter

/-- A walk is at a row after all its steps and goes on from there, or it has ended with the last one. -/
theorem walk_cases (t : Traversal) (row : Int) (steps : Nat) :
    (∃ here, Comes t row (t.walk steps row).2 (t.walk steps row).1 here ∧
        ∀ more, t.walk (steps + more) row = (((t.walk steps row).1.walk more here).1,
          (t.walk steps row).2 ++ ((t.walk steps row).1.walk more here).2)) ∨
      ∀ more, t.walk (steps + more) row = t.walk steps row := by
  induction steps generalizing t row with
  | zero => exact .inl ⟨row, .start, fun more => by rw [Nat.zero_add]; rfl⟩
  | succ steps ih =>
      simp only [Nat.succ_add]
      simp only [walk]
      cases hnext : (t.visit row).2.target with
      | none => exact .inr fun more => rfl
      | some next =>
          rcases ih (t.visit row).1 next with ⟨here, hcomes, hmore⟩ | hmore
          · exact .inl ⟨here, hcomes.cons hnext, fun more => by dsimp only; rw [hmore]; rfl⟩
          · exact .inr fun more => by dsimp only; rw [hmore]

theorem Comes.isSome_target (h : Comes t row navs u here) : ∀ nav ∈ navs, nav.target.isSome := by
  induction h with
  | start => exact fun nav hnav => (nomatch hnav)
  | step _ hnext ih =>
      intro nav hnav
      rcases List.mem_append.mp hnav with hnav | hnav
      · exact ih nav hnav
      · rw [List.mem_singleton.mp hnav, hnext]
        rfl

/-- A walk that has led off the chart stays as it is. -/
theorem walk_add_of_end {steps : Nat} (h : ∃ nav ∈ (t.walk steps row).2, nav.target = none)
    (more : Nat) : t.walk (steps + more) row = t.walk steps row := by
  obtain ⟨nav, hnav, hend⟩ := h
  rcases t.walk_cases row steps with ⟨here, hcomes, -⟩ | hmore
  · have := hcomes.isSome_target nav hnav
    rw [hend] at this
    cases this
  · exact hmore more

/-- A walk is cut anywhere: the step there is the visit of the row it has come to. -/
theorem comes_of_walk {steps : Nat} {before rest : List Navigation} {nav : Navigation}
    (h : (t.walk steps row).2 = before ++ nav :: rest) :
    ∃ u here, Comes t row before u here ∧ (u.visit here).2 = nav := by
  induction steps generalizing t row before with
  | zero => simp [walk] at h
  | succ steps ih =>
      rw [walk] at h
      dsimp only at h
      cases hnext : (t.visit row).2.target with
      | none =>
          rw [hnext] at h
          obtain ⟨rfl, hnav⟩ : before = [] ∧ (t.visit row).2 = nav := by
            cases before with
            | nil => exact ⟨rfl, (List.cons.inj h).1⟩
            | cons => simp at h
          exact ⟨t, row, .start, hnav⟩
      | some next =>
          rw [hnext] at h
          cases before with
          | nil => exact ⟨t, row, .start, (List.cons.inj h).1⟩
          | cons first before =>
              obtain ⟨hfirst, hrest⟩ := List.cons.inj h
              obtain ⟨u, here, hcomes, hnav⟩ := ih hrest
              exact ⟨u, here, hfirst ▸ hcomes.cons hnext, hnav⟩

/-- A walk that starts at a row of the chart stays on its rows and does not change the layout. -/
theorem Comes.layout (hL : t.layout.Laminar) (hi : t.rows[i]? = some row)
    (h : Comes t row navs u here) : u.layout = t.layout ∧ ∃ j : Nat, u.rows[j]? = some here := by
  induction h with
  | start => exact ⟨rfl, i, hi⟩
  | @step navs u here next _ hnext ih =>
      obtain ⟨hlayout, j, hj⟩ := ih
      have huL : u.layout.Laminar := hlayout.symm ▸ hL
      have hsame := layout_visit huL hj
      refine ⟨hsame.trans hlayout, ?_⟩
      obtain ⟨k, hk⟩ := (leaves_visit huL hj).exists_row hnext
      have hrows : (u.visit here).1.rows = u.rows := congrArg Layout.rows hsame
      exact ⟨k, hrows ▸ hk⟩

theorem layout_walk (hL : t.layout.Laminar) (hi : t.rows[i]? = some row) (steps : Nat) :
    (t.walk steps row).1.layout = t.layout := by
  induction steps generalizing t i row with
  | zero => rfl
  | succ steps ih =>
      have hlayout := layout_visit hL hi
      rw [walk]
      cases hnext : (t.visit row).2.target with
      | none =>
          dsimp only
          rw [hnext]
          exact hlayout
      | some next =>
          obtain ⟨j, hj⟩ := (leaves_visit hL hi).exists_row hnext
          have hrows : (t.visit row).1.rows = t.rows := congrArg Layout.rows hlayout
          dsimp only
          rw [hnext]
          exact (ih (hlayout.symm ▸ hL) (hrows.symm ▸ hj)).trans hlayout

end Traversal

end RhythmChart
