import RhythmChart.Proofs.Flow.Untaken

/-! # Chains of skips

A skip lands right after a body, where another construct may skip again.  Whatever is in the bodies, all of
these constructs are anchored at the row that is left, which has one conditional and one loop.  So a chain
of skips has two members at most and never comes near its bound.

Main statements.

* `Traversal.isAt_of_skipper?`: what skips is anchored at the row that is left;
* `Traversal.isAt_of_chained`: the same for whole chains;
* `Traversal.skippers_of_chained`: the chains there are;
* `Traversal.skipChain_short`: all of that for every chart, in every state. -/

namespace RhythmChart

namespace Traversal

variable {t : Traversal} {i j place : Nat} {row : Int} {s : Skipper}

/-- The conditional or the loop that skips is anchored at a row. -/
def IsAt (t : Traversal) (row : Int) : Skipper → Prop
  | .conditional p => ∃ c, t.conditionals[p]? = some c ∧ c.anchor = row
  | .loop p => ∃ l, t.loops[p]? = some l ∧ l.anchor = row

/-! ### One skip -/

theorem isAt_of_skipper? (hL : t.layout.Laminar) (hi : t.rows[i]? = some row) (hj : t.layout.Ahead i j)
    (h : t.skipper? i j = some (s, place)) : t.IsAt row s := by
  have hanchor : ∀ k ∈ t.layout.sites, k.index = i → k.anchor = row := by
    rintro k hk rfl
    exact Option.some.inj ((hL.anchors k hk).symm.trans hi)
  rcases skipper?_some hL hj h with ⟨p, c, b, rfl, hc, hindex, -⟩ | ⟨p, l, b, rfl, hl, hindex, -⟩
  · exact ⟨c, hc, hanchor _ (mem_sites_of_conditionals (List.mem_of_getElem? hc)) hindex⟩
  · exact ⟨l, hl, hanchor _ (mem_sites_of_loops (List.mem_of_getElem? hl)) hindex⟩

theorem lt_of_skipper? (hL : t.layout.Laminar) (hj : t.layout.Ahead i j)
    (h : t.skipper? i j = some (s, place)) : j < place := by
  rcases skipper?_some hL hj h with
      ⟨p, c, b, -, -, -, -, hle, rfl, -⟩ | ⟨p, l, b, -, -, -, -, hle, rfl, -⟩ <;>
    exact Nat.lt_succ_of_le hle

/-! ### Whole chains -/

theorem isAt_of_chained (hL : t.layout.Laminar) (hi : t.rows[i]? = some row) (hj : t.layout.Ahead i j)
    {chain : SkipChain} (h : t.Chained i j chain) : ∀ s ∈ chain.skippers, t.IsAt row s := by
  intro s hs
  cases h with
  | once hskip => exact List.mem_singleton.mp hs ▸ isAt_of_skipper? hL hi hj hskip
  | twice hskip hskip' =>
      rcases List.mem_pair.mp hs with rfl | rfl
      · exact isAt_of_skipper? hL hi hj hskip
      · exact isAt_of_skipper? hL hi (ahead_of_skipper? hL hj hskip) hskip'

theorem lt_of_chained (hL : t.layout.Laminar) (hj : t.layout.Ahead i j) {chain : SkipChain}
    (h : t.Chained i j chain) {last : Nat} (hlast : chain.landing = some last) : j < last := by
  cases h with
  | once hskip =>
      obtain ⟨-, hlast⟩ := Option.ite_none_right_eq_some.mp hlast
      exact Option.some.inj hlast ▸ lt_of_skipper? hL hj hskip
  | twice hskip hskip' =>
      obtain ⟨-, hlast⟩ := Option.ite_none_right_eq_some.mp hlast
      exact Option.some.inj hlast ▸ (lt_of_skipper? hL hj hskip).trans
        (lt_of_skipper? hL (ahead_of_skipper? hL hj hskip) hskip')

/-- A chain of skips is one conditional, one loop, or a conditional and then a loop, and is not cut. -/
theorem skippers_of_chained {chain : SkipChain} (h : t.Chained i j chain) :
    ((∃ p, chain.skippers = [.conditional p]) ∨ (∃ q, chain.skippers = [.loop q]) ∨
        ∃ p q, chain.skippers = [.conditional p, .loop q]) ∧ chain.cut = false := by
  cases h with
  | @once s =>
      cases s with
      | conditional p => exact ⟨.inl ⟨p, rfl⟩, rfl⟩
      | loop q => exact ⟨.inr (.inl ⟨q, rfl⟩), rfl⟩
  | @twice p q => exact ⟨.inr (.inr ⟨p, q, rfl⟩), rfl⟩

/-! ### Charts -/

/-- When a row of a chart is left for the next one and that is skipped, whatever the state of the constructs,
then all that skips is anchored at the row: one conditional, one loop, or first the conditional and then the
loop.  The bound on chains is not reached.  The place where the chain lands comes after the next row; it
lies in no body of an untaken conditional and in no body that its loop blocks, except for bodies that hold
the row that is left. -/
theorem skipChain_short (notes : Array Note) (declared : List (Int × Nat))
    (metadata : List (String × String)) (diagnostics : List Diagnostic) :
    ∀ t : Traversal, t.layout = (ofChart (Chart.ofParts notes declared metadata diagnostics)).layout →
      ∀ (row : Int) (i j : Nat) (chain : SkipChain), t.rowIndex? row = some i →
        t.rowIndex? (row - 1) = some j → t.skipChain? i j = some chain →
      ((∃ p, chain.skippers = [.conditional p]) ∨ (∃ q, chain.skippers = [.loop q]) ∨
          ∃ p q, chain.skippers = [.conditional p, .loop q]) ∧
        (∀ s ∈ chain.skippers, t.IsAt row s) ∧
        chain.cut = false ∧ chain.skippers.length < maxSkips ∧
        ∀ last, chain.landing = some last → j < last ∧ last < t.rows.size ∧
          (∀ c ∈ t.conditionals, c.decision = .skip → c.covers last = true → c.covers i = true) ∧
          ∀ l ∈ t.loops, l.blocksEntry = true → l.covers last = true → l.covers i = true := by
  intro t hlayout row i j chain hi hj hchain
  have hL : t.layout.Laminar := hlayout ▸
    laminar_ofChart (Chart.indented_ofParts notes declared metadata diagnostics)
      (Chart.falling_ofParts notes declared metadata diagnostics)
  have hrow := getElem?_of_rowIndex? hi
  obtain ⟨rfl, -⟩ := eq_succ_of_rowIndex? hL hrow hj
  have hchained := chained_skipChain? hL (.inl rfl) hchain
  obtain ⟨hcases, hcut⟩ := skippers_of_chained hchained
  obtain ⟨hforward, -⟩ := forward_chain hL (.inl rfl) hchain
  have hshort : chain.skippers.length < maxSkips := by
    rcases hcases with ⟨p, h⟩ | ⟨q, h⟩ | ⟨p, q, h⟩ <;> simp [h, maxSkips]
  refine ⟨hcases, isAt_of_chained hL hrow (.inl rfl) hchained, hcut, hshort, fun last hlast =>
    ⟨lt_of_chained hL (.inl rfl) hchained hlast, hforward.inRange last hlast, fun c hc hskip hcovers => ?_,
      fun l hl hblocks hcovers => ?_⟩⟩
  · by_contra hout
    exact not_skips_of_settled hc hcovers (Bool.eq_false_iff.mpr hout) (hforward.settled last hlast) hskip
  · by_contra hout
    have := blocksEntry_of_settled hl hcovers (Bool.eq_false_iff.mpr hout) (hforward.settled last hlast)
    rw [hblocks] at this
    cases this

/-- In a state of this chart in which the conditional is not taken and the loop is over, the body of the
conditional is skipped, and right after it the rest of the body of the loop. -/
theorem skipChain_slantedNotes :
    let t := ((ofChart (Chart.ofParts slantedNotes [] [] [])).arrive (-1)).finishSkipped [.loop 0]
    t.rowIndex? (-1) = some 0 ∧ t.rowIndex? (-1 - 1) = some 1 ∧
      t.skipChain? 0 1 = some ⟨.branchSkip, some 3, [.conditional 0, .loop 0], false⟩ := by
  rw [ofParts_slantedNotes]
  decide +kernel

/-- This chain is as long as chains get. -/
theorem skipChain_short_slantedNotes :
    let t := ((ofChart (Chart.ofParts slantedNotes [] [] [])).arrive (-1)).finishSkipped [.loop 0]
    t.skipChain? 0 1 = some ⟨.branchSkip, some 3, [.conditional 0, .loop 0], false⟩ ∧
      (∀ s ∈ [Skipper.conditional 0, .loop 0], t.IsAt (-1) s) ∧ 3 < t.rows.size ∧
      ∀ l ∈ t.loops, l.blocksEntry = true → l.covers 3 = true → l.covers 0 = true := by
  intro t
  obtain ⟨hi, hj, hchain⟩ := skipChain_slantedNotes
  have hlayout : t.layout = (ofChart (Chart.ofParts slantedNotes [] [] [])).layout :=
    (layout_finishSkipped _ _).trans (layout_arrive _ _)
  obtain ⟨-, hat, -, -, hland⟩ := skipChain_short slantedNotes [] [] [] t hlayout (-1) 0 1 _ hi hj hchain
  obtain ⟨-, hsize, -, hloops⟩ := hland 3 rfl
  exact ⟨hchain, hat, hsize, hloops⟩

end Traversal

end RhythmChart
