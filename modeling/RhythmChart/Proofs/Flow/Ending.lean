import RhythmChart.Proofs.Flow.Movement

/-! # Walks end

A walk ends because every step forwards comes closer to the last row, and every step back uses up a pass
of a loop.  What a step back restores are the passes of the loops inside the one that repeats, so that
passes are compared by the rows of the loops, earlier rows first.

Main statements.

* `Loop.passesFrom`: the passes by which a loop can lead back without being visited again;
* `Traversal.passesFrom_on` and `Traversal.passesFrom_back`: what a step does to them;
* `Traversal.rank_lt`: every step lowers the rank;
* `Traversal.exists_end`: a walk ends. -/

namespace RhythmChart

namespace Loop

/-- The passes by which a loop can lead back when row `i` is played. -/
def passesFrom (l : Loop) (i : Nat) : Nat :=
  if l.covers i = true ∧ l.visit = .running then l.passesLeft else 0

theorem passesFrom_le (l : Loop) (i : Nat) : l.passesFrom i ≤ l.passesLeft := by
  unfold passesFrom
  split_ifs
  · exact Nat.le_refl _
  · exact Nat.zero_le _

theorem passesFrom_finishPass {l : Loop} (h : l.repeats = false) (i : Nat) :
    l.finishPass.passesFrom i = 0 := by
  have hle := l.finishPass.passesFrom_le i
  rw [finishPass_of_spent h, passesLeft_finishVisit] at hle
  have hzero : l.passesLeft = 0 := Nat.eq_zero_of_not_pos (of_decide_eq_false h)
  rw [finishPass_of_spent h]
  exact Nat.le_zero.mp (hzero ▸ hle)

theorem passesFrom_advance_le (l : Loop) (i : Nat) : l.advance.passesFrom i ≤ l.passesFrom i := by
  unfold advance
  split_ifs
  · exact Nat.le_refl _
  · exact Nat.le_trans (passesFrom_le _ i) (Nat.zero_le _)

theorem passesFrom_le_of_covers {l : Loop} (h : l.covers j = true → l.covers i = true) :
    l.passesFrom j ≤ l.passesFrom i := by
  unfold passesFrom
  split_ifs with hj hi
  · exact Nat.le_refl _
  · exact absurd ⟨h hj.1, hj.2⟩ hi
  · exact Nat.zero_le _
  · exact Nat.zero_le _

end Loop

namespace Traversal

variable {t u : Traversal} {i j : Nat} {row next : Int}

/-! ### Steps -/

/-- Only the loop at the row itself is changed by being skipped. -/
theorem Forward.getElem?_finishSkipped {skippers : List Skipper} {landing : Option Nat}
    (h : t.Forward i skippers landing) {p : Nat} {l : Loop} (hl : t.loops[p]? = some l)
    (hne : l.index ≠ i) : (t.finishSkipped skippers).loops[p]? = some l :=
  h.blocked.getElem?_finishSkipped hl fun heq => absurd heq hne

/-- No loop at rows before `bound` has more passes at row `j` of `u` than at row `i` of `t`. -/
def NoMorePasses (t u : Traversal) (i j bound : Nat) : Prop :=
  ∀ (p : Nat) (l l' : Loop), t.loops[p]? = some l → u.loops[p]? = some l' → l.index < bound →
    l'.passesFrom j ≤ l.passesFrom i

/-- A step forwards gives no passes to the loops at earlier rows. -/
theorem noMorePasses_on (hL : t.layout.Laminar) {skippers : List Skipper} {places : List Nat}
    (hforward : t.Forward i skippers (some j)) (hspent : (t.finishSkipped skippers).Spent places) :
    NoMorePasses t (((t.finishSkipped skippers).closing places).enterBodies i j) i j i := by
  intro p l l' hl hl' hindex
  have hlt := hL.lt_of_ahead (hforward.ahead j rfl)
  have hls := mem_sites_of_loops (List.mem_of_getElem? hl)
  have hskipped := hforward.getElem?_finishSkipped hl (Nat.ne_of_lt hindex)
  have hcovers : l.covers j = true → l.covers i = true := by
    rw [hL.covers_iff hls, hL.covers_iff hls]
    rintro ⟨b, hb, -, hlast⟩
    exact ⟨b, hb, hindex, by omega⟩
  rw [getElem?_enterBodies, getElem?_closing, hskipped, Option.map_some, Option.map_some] at hl'
  obtain rfl := Option.some.inj hl'
  have hstart : ∀ m : Loop, m.toConstruct = l.toConstruct → (m.startsAt j && !m.covers i) = false := by
    intro m hm
    rw [← Bool.not_eq_true, Bool.and_eq_true, Bool.not_eq_true', hm]
    rintro ⟨hstarts, hnot⟩
    obtain ⟨hsome, hj⟩ := (startsAt_iff hL (List.mem_of_getElem? hl) j).mp hstarts
    omega
  by_cases hcloses : p ∈ places ∧ l.visit = .running
  · rw [if_pos hcloses, hstart _ (Loop.site_finishPass l), Bool.false_and, if_neg Bool.false_ne_true,
      Loop.passesFrom_finishPass (hspent p hcloses.1 l hskipped hcloses.2)]
    exact Nat.zero_le _
  · rw [if_neg hcloses, hstart l rfl, Bool.false_and, if_neg Bool.false_ne_true]
    exact Loop.passesFrom_le_of_covers hcovers

/-- A step back gives no passes to the loops around the one that repeats. -/
theorem noMorePasses_back (hL : t.layout.Laminar) {skippers : List Skipper} {landing : Option Nat}
    {before after : List Nat} {p : Nat} {l : Loop} {b : Body}
    (hforward : t.Forward i skippers landing)
    (hexits : (t.finishSkipped skippers).Exits i landing (before ++ p :: after))
    (hl : (t.finishSkipped skippers).loops[p]? = some l) (hls : l.toConstruct ∈ t.layout.sites)
    (hb : l.body = some b) (hcovers : l.covers i = true) :
    NoMorePasses t (((t.finishSkipped skippers).closing (before ++ [p])).nextPass p) i b.first
      l.index := by
  intro q m m' hm hm' hindex
  obtain ⟨hlt, hlast⟩ := (hL.covers_body_iff hls hb).mp hcovers
  obtain ⟨hfirst, hord, -⟩ := hL.bodies _ hls b hb
  have hms := mem_sites_of_loops (List.mem_of_getElem? hm)
  have hskipped := hforward.getElem?_finishSkipped hm (by omega)
  have hq : q ∉ before ++ [p] := by
    intro hq
    rcases List.mem_append.mp hq with hq | hq
    · have := (List.pairwise_append.mp hexits.inner).2.2 q hq p List.mem_cons_self m l hskipped hl
      omega
    · obtain rfl := List.mem_singleton.mp hq
      obtain rfl := Option.some.inj (hl.symm.trans hskipped)
      exact lt_irrefl _ hindex
  have haround : m.covers b.first = true → m.covers i = true := by
    rw [hL.covers_iff hms, hL.covers_iff hms]
    rintro ⟨c, hc, -, hlast'⟩
    have := (hL.inside _ hms c hc _ hls b hb hindex (by omega)).2
    exact ⟨c, hc, by omega, by omega⟩
  rw [getElem?_nextPass, getElem?_closing_of_not_mem hq, hskipped, Option.map_some] at hm'
  obtain rfl := Option.some.inj hm'
  refine Nat.le_trans ?_ (Loop.passesFrom_le_of_covers haround)
  split_ifs
  · exact Loop.passesFrom_advance_le m _
  · exact Nat.le_refl _

/-- A step back uses up a pass of the loop that repeats. -/
theorem passesFrom_back {before : List Nat} {p : Nat} {l l' : Loop} (hl : t.loops[p]? = some l)
    (hl' : ((t.closing (before ++ [p])).nextPass p).loops[p]? = some l')
    (hrunning : l.visit = .running) (hrepeats : l.repeats = true) (hcovers : l.covers i = true) :
    l'.passesFrom j < l.passesFrom i := by
  have hpos : 0 < l.passesLeft := of_decide_eq_true hrepeats
  have hcloses : p ∈ before ++ [p] ∧ l.visit = .running :=
    ⟨List.mem_append_right _ (List.mem_singleton_self p), hrunning⟩
  rw [getElem?_nextPass, getElem?_closing, hl, Option.map_some, Option.map_some, if_pos hcloses,
    Loop.finishPass_of_repeats hrepeats] at hl'
  obtain rfl := Option.some.inj hl'
  have hbefore : l.passesFrom i = l.passesLeft := if_pos ⟨hcovers, hrunning⟩
  rw [hbefore]
  set again : Loop := { l with runs := Loop.addCounts l.runs 1, passesLeft := l.passesLeft - 1 }
  have hle : (if again.parent = some p then again.advance else again).passesFrom j ≤
      again.passesFrom j := by
    split_ifs
    · exact Loop.passesFrom_advance_le again j
    · exact Nat.le_refl _
  have hagain : again.passesFrom j ≤ l.passesLeft - 1 := Loop.passesFrom_le again j
  omega

/-! ### Ranks -/

/-- The passes from row `i` on of the loop at row `a`. -/
def passesAt (t : Traversal) (i a : Nat) : Nat :=
  (t.loops.find? fun l => l.index == a).elim 0 fun l => l.passesFrom i

/-- What the loop at row `a` can still add to a walk that is at row `i`.  There is no bound as long as the
walk can come to row `a`. -/
def pending (t : Traversal) (i a : Nat) : WithTop Nat := if i ≤ a then ⊤ else (t.passesAt i a : Nat)

/-- The rank of a walk through `n` rows that is at row `i`: what its loops can add, those at earlier rows
first, and then the rows ahead. -/
def rank (t : Traversal) (n i : Nat) : Lex (Lex (Fin n → WithTop Nat) × Nat) :=
  toLex (toLex fun a => t.pending i a, n - i)

theorem passesAt_eq (hL : t.layout.Laminar) {p : Nat} {l : Loop} (hl : t.loops[p]? = some l) :
    t.passesAt i l.index = l.passesFrom i := by
  unfold passesAt
  cases hfind : t.loops.find? fun m => m.index == l.index with
  | none => exact absurd (List.find?_eq_none.mp hfind l (List.mem_of_getElem? hl)) (by simp)
  | some m =>
      obtain ⟨q, hq⟩ := List.getElem?_of_mem (List.mem_of_find?_eq_some hfind)
      have hindex : m.index = l.index := by simpa using List.find?_some hfind
      obtain rfl := hL.loop_place_inj (getElem?_layout_loops hq) (getElem?_layout_loops hl) hindex
      obtain rfl := Option.some.inj (hq.symm.trans hl)
      rfl

theorem NoMorePasses.passesAt_le {bound a : Nat} (hL : t.layout.Laminar) (hlayout : u.layout = t.layout)
    (h : NoMorePasses t u i j bound) (ha : a < bound) : u.passesAt j a ≤ t.passesAt i a := by
  cases hfind : u.loops.find? fun m => m.index == a with
  | none =>
      rw [passesAt, hfind]
      exact Nat.zero_le _
  | some l' =>
      obtain ⟨p, hp⟩ := List.getElem?_of_mem (List.mem_of_find?_eq_some hfind)
      obtain ⟨l, hl, hsite, -⟩ := exists_loop_of_layout hlayout.symm hp
      have hindex : l'.index = a := by simpa using List.find?_some hfind
      have hsame : l.index = a := by rw [hsite, hindex]
      have hle := h p l l' hl hp (by omega)
      have ht : t.passesAt i a = l.passesFrom i := hsame ▸ passesAt_eq hL hl
      have hu : u.passesAt j a = l'.passesFrom j := hindex ▸ passesAt_eq (hlayout.symm ▸ hL) hp
      rwa [ht, hu]

theorem NoMorePasses.pending_le {bound a : Nat} (hL : t.layout.Laminar)
    (hlayout : u.layout = t.layout) (h : NoMorePasses t u i j bound) (hi : bound ≤ i) (hj : bound ≤ j)
    (ha : a < bound) : u.pending j a ≤ t.pending i a := by
  unfold pending
  rw [if_neg (by omega), if_neg (by omega)]
  exact WithTop.coe_le_coe.mpr (h.passesAt_le hL hlayout ha)

/-- Functions that agree, or fall, up to where one is smaller. -/
theorem toLex_lt_of_lt {n : Nat} {f g : Fin n → WithTop Nat} (a : Fin n)
    (hbefore : ∀ b < a, f b ≤ g b) (ha : f a < g a) : toLex f < toLex g := by
  by_contra h
  rcases eq_or_lt_of_le (not_lt.mp h) with heq | ⟨b, hsame, hb⟩
  · rw [toLex_inj] at heq
    rw [heq] at ha
    exact lt_irrefl _ ha
  · rcases lt_trichotomy b a with hlt | rfl | hlt
    · exact absurd hb (not_lt.mpr (hbefore b hlt))
    · exact absurd ha (not_lt.mpr hb.le)
    · rw [show f a = g a from (hsame a hlt).symm] at ha
      exact lt_irrefl _ ha

theorem rank_lt_of_on {n : Nat} (hL : t.layout.Laminar) (hlayout : u.layout = t.layout)
    (h : NoMorePasses t u i j i) (hij : i < j) (hj : j < n) : u.rank n j < t.rank n i := by
  have hpending : (fun a : Fin n => u.pending j a) ≤ fun a : Fin n => t.pending i a := by
    intro a
    rcases Nat.lt_or_ge a.1 i with hlt | hge
    · exact h.pending_le hL hlayout (Nat.le_refl i) (Nat.le_of_lt hij) hlt
    · exact le_top.trans_eq (if_pos hge).symm
  refine Prod.Lex.toLex_lt_toLex.mpr ?_
  rcases eq_or_lt_of_le (Pi.toLex_monotone hpending) with heq | hlt
  · exact .inr ⟨heq, by dsimp only; omega⟩
  · exact .inl hlt

theorem rank_lt_of_back {n p : Nat} {l l' : Loop} (hL : t.layout.Laminar)
    (hlayout : u.layout = t.layout) (hl : t.loops[p]? = some l) (hl' : u.loops[p]? = some l')
    (h : NoMorePasses t u i j l.index) (hi : l.index < i) (hj : l.index < j) (hn : i < n)
    (hless : l'.passesFrom j < l.passesFrom i) : u.rank n j < t.rank n i := by
  refine Prod.Lex.toLex_lt_toLex.mpr (.inl (toLex_lt_of_lt ⟨l.index, by omega⟩ (fun a ha => ?_) ?_))
  · exact h.pending_le hL hlayout (Nat.le_of_lt hi) (Nat.le_of_lt hj) ha
  · obtain ⟨m, hm, hsite, -⟩ := exists_loop_of_layout hlayout hl
    obtain rfl := Option.some.inj (hl'.symm.trans hm)
    have hu : u.passesAt j l.index = l'.passesFrom j := by
      rw [← hsite]
      exact passesAt_eq (hlayout.symm ▸ hL) hl'
    change u.pending j l.index < t.pending i l.index
    unfold pending
    rw [if_neg (by omega), if_neg (by omega), hu, passesAt_eq hL hl]
    exact WithTop.coe_lt_coe.mpr hless

/-- Every step lowers the rank. -/
theorem rank_visit (hL : t.layout.Laminar) (hi : t.rows[i]? = some row)
    (hnext : (t.visit row).2.target = some next) (hj : t.rows[j]? = some next) :
    (t.visit row).1.rank t.rows.size j < t.rank t.rows.size i := by
  have hsize := (Array.getElem?_eq_some_iff.mp hi).1
  have hsize' := (Array.getElem?_eq_some_iff.mp hj).1
  have hlayout := layout_visit hL hi
  have hleaves := leaves_visit hL hi
  have harrive := t.layout_arrive row
  have haL : (t.arrive row).layout.Laminar := harrive.symm ▸ hL
  -- The visit of the row itself changes no loop at an earlier row.
  have hbefore : ∀ (p : Nat) (l : Loop), t.loops[p]? = some l → l.index < i →
      (t.arrive row).loops[p]? = some l := by
    intro p l hl hlt
    refine getElem?_arrive hl fun hanchor => ?_
    have := hL.anchors _ (mem_sites_of_loops (List.mem_of_getElem? hl))
    rw [hanchor] at this
    have := hL.index_inj this hi
    omega
  generalize (t.visit row).1 = u at hlayout hleaves ⊢
  generalize (t.visit row).2 = nav at hnext hleaves
  cases hleaves with
  | @back skippers landing before after p l b hforward hexits hspent hl hrunning hrepeats hb =>
      obtain rfl := haL.index_inj hnext hj
      obtain ⟨l', hl', hcovers, -⟩ := hexits.holds p (List.mem_append_right _ List.mem_cons_self)
      obtain rfl := Option.some.inj (hl.symm.trans hl')
      obtain ⟨m, hm, hsite, -⟩ := exists_loop_of_layout
        (harrive.symm.trans ((t.arrive row).layout_finishSkipped skippers).symm) hl
      have hms := mem_sites_of_loops (List.mem_of_getElem? hm)
      obtain ⟨c, hc, hlt, -⟩ := (hL.covers_iff hms).mp (hsite ▸ hcovers)
      -- The loop that repeats is at an earlier row, so that it is the same before the step.
      obtain rfl := Option.some.inj (hl.symm.trans
        (hforward.getElem?_finishSkipped (hbefore p m hm hlt) (Nat.ne_of_lt hlt)))
      obtain ⟨hfirst, -, -⟩ := hL.bodies _ hms b hb
      obtain ⟨l', hl', -⟩ := exists_loop_of_layout hlayout hm
      have hmore := noMorePasses_back haL hforward hexits hl (harrive.symm ▸ hms) hb hcovers
      refine rank_lt_of_back hL hlayout hm hl' (fun q k k' hk hk' hless => ?_) hlt (by omega) hsize
        (passesFrom_back hl hl' hrunning hrepeats hcovers)
      exact hmore q k k' (hbefore q k hk (by omega)) hk' hless
  | on hforward hexits hspent =>
      obtain rfl := haL.index_inj hnext hj
      have hmore := noMorePasses_on haL hforward hspent
      refine rank_lt_of_on hL hlayout (fun p l l' hl hl' hlt => ?_) (haL.lt_of_ahead
        (hforward.ahead _ rfl)) hsize'
      exact hmore p l l' (hbefore p l hl hlt) hl' hlt
  | off => cases hnext

/-! ### The end -/

/-- A walk from a row of the chart ends: from some number of steps on it is the same, and its last step
leads off the chart. -/
theorem exists_end (hL : t.layout.Laminar) (hi : t.rows[i]? = some row) :
    ∃ navs u here, Comes t row navs u here ∧ (u.visit here).2.target = none ∧
      ∃ enough, ∀ steps, enough ≤ steps →
        t.walk steps row = ((u.visit here).1, navs ++ [(u.visit here).2]) := by
  generalize hn : t.rows.size = n
  generalize hr : t.rank n i = r
  induction r using WellFoundedLT.induction generalizing t i row with
  | ind r ih =>
      subst hr hn
      cases hnext : (t.visit row).2.target with
      | none =>
          refine ⟨[], t, row, .start, hnext, 1, fun steps hsteps => ?_⟩
          obtain ⟨n, rfl⟩ := Nat.exists_eq_add_of_le' hsteps
          rw [walk]
          dsimp only
          rw [hnext]
          rfl
      | some next =>
          have hlayout := layout_visit hL hi
          have hrows : (t.visit row).1.rows = t.rows := congrArg Layout.rows hlayout
          obtain ⟨j, hj⟩ := (leaves_visit hL hi).exists_row hnext
          have hless := rank_visit hL hi hnext hj
          obtain ⟨navs, u, here, hcomes, hend, enough, henough⟩ :=
            ih _ hless (hlayout.symm ▸ hL) (hrows ▸ hj) (congrArg Array.size hrows) rfl
          refine ⟨_, u, here, hcomes.cons hnext, hend, enough + 1, fun steps hsteps => ?_⟩
          obtain ⟨n, rfl⟩ := Nat.exists_eq_add_of_le' (Nat.le_trans (Nat.le_add_left 1 enough) hsteps)
          rw [walk]
          dsimp only
          rw [hnext]
          dsimp only
          rw [henough n (Nat.le_of_succ_le_succ hsteps)]
          rfl

end Traversal

end RhythmChart
