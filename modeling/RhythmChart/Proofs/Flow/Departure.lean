import RhythmChart.Proofs.Flow.Nesting

/-! # Leaving a row

What leaving a row does to a traversal with nested bodies.  Only the constructs at the row itself can
skip the next row, and one skip is enough; after it, or without it, the loops that end there are left.

Main statements.

* `Traversal.resume`: how a traversal goes on when rows up to one are dealt with;
* `Traversal.depart_skipping`: a construct at the row skips its body;
* `Traversal.depart_entering`: a loop at the row plays its body;
* `Traversal.depart_plainly`: there is neither. -/

namespace RhythmChart

namespace Traversal

variable {t : Traversal} {L : Layout} {i : Nat} {row : Int}

/-! ### Layouts do not change -/

theorem layout_modifyLoop (t : Traversal) (p : Nat) {f : Loop → Loop}
    (hsite : ∀ l, (f l).toConstruct = l.toConstruct) (hcodes : ∀ l, (f l).codes = l.codes) :
    (t.modifyLoop p f).layout = t.layout := by
  unfold layout modifyLoop
  congr 1
  refine List.ext_getElem? fun q => ?_
  rw [List.getElem?_map, List.getElem?_map, List.getElem?_modify]
  cases t.loops[q]? with
  | none => simp
  | some l =>
      simp only [Option.map_some]
      split_ifs <;> simp [hsite, hcodes]

theorem layout_map (t : Traversal) {f : Loop → Loop} {g : Conditional → Conditional}
    (hsite : ∀ l, (f l).toConstruct = l.toConstruct) (hcodes : ∀ l, (f l).codes = l.codes)
    (hsite' : ∀ b, (g b).toConstruct = b.toConstruct) (hcodes' : ∀ b, (g b).codes = b.codes) :
    ({ t with loops := t.loops.map f, conditionals := t.conditionals.map g } : Traversal).layout =
      t.layout := by
  unfold layout
  congr 1
  · rw [List.map_map]
    exact List.map_congr_left fun l _ => by simp [hsite, hcodes]
  · rw [List.map_map]
    exact List.map_congr_left fun b _ => by simp [hsite', hcodes']

end Traversal

namespace Loop

@[simp] theorem site_encounter (l : Loop) : l.encounter.toConstruct = l.toConstruct := by
  unfold encounter
  split_ifs <;> rfl

@[simp] theorem codes_encounter (l : Loop) : l.encounter.codes = l.codes := by
  unfold encounter
  split_ifs <;> rfl

@[simp] theorem site_finishVisit (l : Loop) : l.finishVisit.toConstruct = l.toConstruct := by
  unfold finishVisit
  split_ifs <;> rfl

@[simp] theorem codes_finishVisit (l : Loop) : l.finishVisit.codes = l.codes := by
  unfold finishVisit
  split_ifs <;> rfl

@[simp] theorem site_finishPass (l : Loop) : l.finishPass.toConstruct = l.toConstruct := by
  unfold finishPass
  dsimp only
  split_ifs
  · rfl
  · rw [site_finishVisit]

@[simp] theorem codes_finishPass (l : Loop) : l.finishPass.codes = l.codes := by
  unfold finishPass
  dsimp only
  split_ifs
  · rfl
  · rw [codes_finishVisit]

theorem finishPass_of_repeats {l : Loop} (h : l.repeats = true) :
    l.finishPass = { l with runs := addCounts l.runs 1, passesLeft := l.passesLeft - 1 } :=
  if_pos h

theorem finishPass_of_spent {l : Loop} (h : l.repeats = false) :
    l.finishPass = finishVisit { l with runs := addCounts l.runs 1 } :=
  if_neg (Bool.eq_false_iff.mp h)

/-- A loop that was met runs, unless it is exhausted. -/
theorem visit_encounter (l : Loop) : l.encounter.exhausted = true ∨ l.encounter.visit = .running := by
  unfold encounter
  split_ifs with hout
  · exact .inl hout
  · exact .inr rfl

@[simp] theorem site_enterBody (l : Loop) : l.enterBody.toConstruct = l.toConstruct := rfl

@[simp] theorem codes_enterBody (l : Loop) : l.enterBody.codes = l.codes := rfl

@[simp] theorem site_advance (l : Loop) : l.advance.toConstruct = l.toConstruct := by
  unfold advance
  split_ifs <;> rfl

@[simp] theorem codes_advance (l : Loop) : l.advance.codes = l.codes := by
  unfold advance
  split_ifs <;> rfl

end Loop

namespace Conditional

@[simp] theorem site_encounter (b : Conditional) : b.encounter.toConstruct = b.toConstruct := by
  unfold encounter
  split_ifs <;> rfl

@[simp] theorem codes_encounter (b : Conditional) : b.encounter.codes = b.codes := by
  unfold encounter
  split_ifs <;> rfl

end Conditional

namespace Traversal

variable {t : Traversal} {L : Layout} {i : Nat} {row : Int}

theorem layout_arrive (t : Traversal) (row : Int) : (t.arrive row).layout = t.layout := by
  refine t.layout_map ?_ ?_ ?_ ?_ <;> intro x <;> split_ifs <;> simp

theorem layout_nextPass (t : Traversal) (place : Nat) : (t.nextPass place).layout = t.layout := by
  refine t.layout_map ?_ ?_ ?_ ?_ <;> intro x <;> split_ifs <;> simp [Conditional.reset]

theorem layout_closePasses (t : Traversal) (places : List Nat) :
    (t.closePasses places).1.layout = t.layout := by
  induction places generalizing t with
  | nil => rfl
  | cons p places ih =>
      have hpass : (t.modifyLoop p Loop.finishPass).layout = t.layout :=
        t.layout_modifyLoop p Loop.site_finishPass Loop.codes_finishPass
      unfold closePasses
      split
      · exact ih t
      · split_ifs
        · dsimp only
          split
          · exact (layout_nextPass _ p).trans hpass
          · exact (ih _).trans hpass
        · exact ih t

/-! ### Rows -/

theorem getElem?_of_rowIndex? {row : Int} {j : Nat} (h : t.rowIndex? row = some j) :
    t.rows[j]? = some row := by
  unfold rowIndex? at h
  dsimp only at h
  split at h
  next id hid =>
    split_ifs at h with heq
    obtain rfl := Option.some.inj h
    rw [hid, heq]
  next => cases h

theorem rowIndex?_eq_some (hL : t.layout.Laminar) (hi : t.rows[i]? = some row) :
    t.rowIndex? row = some i := by
  obtain ⟨hsize, hrow⟩ := Array.getElem?_eq_some_iff.mp hi
  have hbound : boundary (fun id => decide (t.rows[i] < id)) t.rows 0 t.rows.size = i :=
    boundary_of_falling (f := fun id => id) (fun j k hj hk hjk => hL.falling j k _ _ hjk
      (Array.getElem?_eq_getElem hj) (Array.getElem?_eq_getElem hk)) hsize
  rw [hrow] at hbound
  unfold rowIndex?
  dsimp only
  rw [hbound, hi]
  exact if_pos rfl

theorem rowIndex?_next (hL : t.layout.Nested) (hi : t.rows[i]? = some row) :
    t.rowIndex? (row - 1) = if i + 1 < t.rows.size then some (i + 1) else none := by
  split_ifs with hlt
  · have hnext := Array.getElem?_eq_getElem hlt
    have hrow := hL.rows i _ hnext
    rw [show t.layout.rows[i]? = some row from hi] at hrow
    refine rowIndex?_eq_some hL.laminar ?_
    rw [hnext, Option.some.inj hrow, Int.add_sub_cancel]
  · cases hj : t.rowIndex? (row - 1) with
    | none => rfl
    | some j =>
        have hrow := getElem?_of_rowIndex? hj
        have hj := (Array.getElem?_eq_some_iff.mp hrow).1
        obtain ⟨d, rfl⟩ := Nat.exists_eq_add_of_le (show j ≤ i by omega)
        have := hL.getElem?_add hi
        rw [show t.layout.rows[j]? = some (row - 1) from hrow] at this
        have := Option.some.inj this
        omega

/-! ### Constructs at a row -/

theorem mem_layout_loops {l : Loop} (h : l ∈ t.loops) : (l.toConstruct, l.codes) ∈ t.layout.loops :=
  List.mem_map.mpr ⟨l, h, rfl⟩

theorem mem_layout_conditionals {b : Conditional} (h : b ∈ t.conditionals) :
    (b.toConstruct, b.codes) ∈ t.layout.conditionals := List.mem_map.mpr ⟨b, h, rfl⟩

theorem mem_sites_of_loops {l : Loop} (h : l ∈ t.loops) : l.toConstruct ∈ t.layout.sites :=
  Layout.mem_sites_of_loop (mem_layout_loops h)

theorem mem_sites_of_conditionals {b : Conditional} (h : b ∈ t.conditionals) :
    b.toConstruct ∈ t.layout.sites := Layout.mem_sites_of_conditional (mem_layout_conditionals h)

theorem getElem?_layout_loops {p : Nat} {l : Loop} (h : t.loops[p]? = some l) :
    t.layout.loops[p]? = some (l.toConstruct, l.codes) := by
  simp only [layout, List.getElem?_map, h, Option.map_some]

theorem getElem?_layout_conditionals {p : Nat} {b : Conditional} (h : t.conditionals[p]? = some b) :
    t.layout.conditionals[p]? = some (b.toConstruct, b.codes) := by
  simp only [layout, List.getElem?_map, h, Option.map_some]

/-- A body that holds the next row but not this one is that of a construct at this row. -/
theorem index_of_next (hL : t.layout.Laminar) {k : Construct} (hk : k ∈ t.layout.sites)
    (h : (k.covers (i + 1) && !k.covers i) = true) : k.index = i := by
  rw [Bool.and_eq_true, Bool.not_eq_true'] at h
  obtain ⟨b, -, hlt, -⟩ := (hL.covers_iff hk).mp h.1
  have := hL.index_of_covers hk (Nat.lt_succ_self i) h.1 h.2
  omega

theorem covers_next (hL : t.layout.Laminar) {k : Construct} (hk : k ∈ t.layout.sites) {b : Body}
    (hb : k.body = some b) : (k.covers (k.index + 1) && !k.covers k.index) = true := by
  obtain ⟨hfirst, hord, -⟩ := hL.bodies k hk b hb
  rw [(hL.covers_body_iff hk hb).mpr ⟨by omega, by omega⟩, hL.not_covers_of_le hk (Nat.le_refl _)]
  rfl

/-! ### Skipping -/

/-- No conditional at row `i` skips its body. -/
def Unskipped (t : Traversal) (i : Nat) : Prop :=
  ∀ b ∈ t.conditionals, b.index = i → b.body.isSome → b.decision ≠ .skip

/-- Something at row `i` skips its body `b`. -/
inductive SkipsAt (t : Traversal) (i : Nat) (b : Body) : Skipper → Prop where
  | conditional (p : Nat) (c : Conditional) (hc : t.conditionals[p]? = some c) (hindex : c.index = i)
      (hbody : c.body = some b) (hskip : c.decision = .skip) : SkipsAt t i b (.conditional p)
  | loop (p : Nat) (l : Loop) (hl : t.loops[p]? = some l) (hindex : l.index = i)
      (hbody : l.body = some b) (hblocks : l.blocksEntry = true) (hunskipped : t.Unskipped i) :
      SkipsAt t i b (.loop p)

theorem SkipsAt.exists_site {b : Body} {s : Skipper} (h : t.SkipsAt i b s) :
    ∃ k ∈ t.layout.sites, k.index = i ∧ k.body = some b := by
  cases h with
  | conditional p c hc hindex hbody =>
      exact ⟨c.toConstruct, mem_sites_of_conditionals (List.mem_of_getElem? hc), hindex, hbody⟩
  | loop p l hl hindex hbody =>
      exact ⟨l.toConstruct, mem_sites_of_loops (List.mem_of_getElem? hl), hindex, hbody⟩

theorem innermostSkipping?_eq_none (hL : t.layout.Nested) (h : t.Unskipped i) :
    innermostSkipping? t.conditionals i (i + 1) = none := by
  refine innermost?_eq_none_iff.mpr fun c hc => ?_
  rw [← Bool.not_eq_true]
  intro htest
  rw [Conditional.skips, Bool.and_assoc, Bool.and_eq_true, beq_iff_eq] at htest
  have hindex := index_of_next hL.laminar (mem_sites_of_conditionals hc) htest.2
  obtain ⟨b, hb, -⟩ := (hL.covers_iff (mem_sites_of_conditionals hc)).mp
    (Bool.and_eq_true _ _ ▸ htest.2).1
  exact h c hc hindex (by rw [hb]; rfl) htest.1

theorem skipper?_of_skipsAt (hL : t.layout.Nested) {b : Body} {s : Skipper} (h : t.SkipsAt i b s) :
    t.skipper? i (i + 1) = some (s, b.after) := by
  unfold skipper?
  cases h with
  | conditional p c hc hindex hbody hskip =>
      have hmem := mem_sites_of_conditionals (List.mem_of_getElem? hc)
      have hinner : innermostSkipping? t.conditionals i (i + 1) = some (p, c) := by
        refine innermost?_eq_some hc ?_ fun q c' hc' htest => ?_
        · rw [Conditional.skips, Bool.and_assoc, hskip, ← hindex]
          exact covers_next hL.laminar hmem hbody
        · rw [Conditional.skips, Bool.and_assoc, Bool.and_eq_true] at htest
          have hindex' := index_of_next hL.laminar
            (mem_sites_of_conditionals (List.mem_of_getElem? hc')) htest.2
          exact hL.conditional_place_inj (getElem?_layout_conditionals hc')
            (getElem?_layout_conditionals hc) (hindex'.trans hindex.symm)
      rw [hinner]
      simp only [hbody, Option.map_some, Option.getD_some]
  | loop p l hl hindex hbody hblocks hunskipped =>
      have hmem := mem_sites_of_loops (List.mem_of_getElem? hl)
      rw [innermostSkipping?_eq_none hL hunskipped]
      dsimp only
      rw [innermost?_eq_some hl ?_ fun q l' hl' htest => ?_]
      · simp only [hbody, Option.map_some]
      · rw [hblocks, Bool.and_true, ← hindex]
        exact covers_next hL.laminar hmem hbody
      · rw [Bool.and_eq_true] at htest
        have hindex' := index_of_next hL.laminar (mem_sites_of_loops (List.mem_of_getElem? hl')) htest.1
        exact hL.loop_place_inj (getElem?_layout_loops hl') (getElem?_layout_loops hl)
          (hindex'.trans hindex.symm)

/-- After one skip nothing else skips. -/
theorem skipper?_eq_none {start target : Nat}
    (h : ∀ k ∈ t.layout.sites, k.covers target = true → k.covers start = true) :
    t.skipper? start target = none := by
  unfold skipper?
  have hconditionals : innermostSkipping? t.conditionals start target = none := by
    refine innermost?_eq_none_iff.mpr fun c hc => ?_
    rw [← Bool.not_eq_true, Bool.and_eq_true, Bool.not_eq_true', Conditional.skips, Bool.and_eq_true]
    rintro ⟨⟨-, hcovers⟩, hnot⟩
    rw [h _ (mem_sites_of_conditionals hc) hcovers] at hnot
    cases hnot
  have hloops : innermost? Loop.toConstruct
      (fun l => l.covers target && !l.covers start && l.blocksEntry) t.loops = none := by
    refine innermost?_eq_none_iff.mpr fun l hl => ?_
    rw [← Bool.not_eq_true, Bool.and_eq_true, Bool.and_eq_true, Bool.not_eq_true']
    rintro ⟨⟨hcovers, hnot⟩, -⟩
    rw [h _ (mem_sites_of_loops hl) hcovers] at hnot
    cases hnot
  rw [hconditionals]
  dsimp only
  rw [hloops]

theorem covers_of_covers_after (hL : t.layout.Nested) {k : Construct} (hk : k ∈ t.layout.sites)
    {b : Body} (hb : k.body = some b) {k' : Construct} (hk' : k' ∈ t.layout.sites)
    (h : k'.covers b.after = true) : k'.covers k.index = true := by
  obtain ⟨hfirst, hord, -⟩ := hL.bodies k hk b hb
  by_contra hnot
  rw [Bool.not_eq_true] at hnot
  have hlt : k.index < b.after := by
    unfold Body.after
    omega
  rw [hL.covers_after hk hb hk' (hL.index_of_covers hk' hlt h hnot)] at h
  cases h

theorem skipChain?_of_skipsAt (hL : t.layout.Nested) {b : Body} {s : Skipper}
    (h : t.SkipsAt i b s) :
    t.skipChain? i (i + 1) =
      some ⟨reasonOf s, if b.after < t.rows.size then some b.after else none, [s], false⟩ := by
  obtain ⟨k, hk, rfl, hb⟩ := h.exists_site
  have hnone : t.skipper? k.index b.after = none :=
    skipper?_eq_none fun k' hk' => covers_of_covers_after hL hk hb hk'
  unfold skipChain?
  rw [skipper?_of_skipsAt hL h, Option.map_some]
  have hextend : t.extendSkip k.index (maxSkips - 1) b.after = (b.after, [], false) := by
    rw [show maxSkips - 1 = 254 + 1 from rfl, extendSkip]
    split_ifs
    · rw [hnone]
    · rfl
  dsimp only
  rw [hextend]

theorem skipChain?_eq_none (hL : t.layout.Nested) (hunskipped : t.Unskipped i)
    (hloop : ∀ l ∈ t.loops, l.index = i → l.body.isSome → l.blocksEntry = false) :
    t.skipChain? i (i + 1) = none := by
  unfold skipChain? skipper?
  rw [innermostSkipping?_eq_none hL hunskipped]
  dsimp only
  have hinner : innermost? Loop.toConstruct
      (fun l => l.covers (i + 1) && !l.covers i && l.blocksEntry) t.loops = none := by
    refine innermost?_eq_none_iff.mpr fun l hl => ?_
    rw [← Bool.not_eq_true, Bool.and_eq_true]
    rintro ⟨hcovers, hblocks⟩
    have hindex := index_of_next hL.laminar (mem_sites_of_loops hl) hcovers
    obtain ⟨b, hb, -⟩ := (hL.covers_iff (mem_sites_of_loops hl)).mp
      (Bool.and_eq_true _ _ ▸ hcovers).1
    rw [hloop l hl hindex (by rw [hb]; rfl)] at hblocks
    cases hblocks
  rw [hinner]
  rfl

/-! ### Leaving loops -/

/-- How a traversal at row `i` goes on when the rows up to `e` are dealt with: a loop that ends there
and has passes left begins again, else the next row is played.  Gives the row that is played next, if
there is one. -/
def resume (t : Traversal) (i e : Nat) : Traversal × Option Int :=
  match t.closePasses (t.layout.leaving i e) with
  | (t, some back) => (t, t.rows[back]?)
  | (t, none) => (t, t.rows[e + 1]?)

theorem leaving_eq (t : Traversal) (i e : Nat) : t.layout.leaving i e =
    innermostFirst Loop.toConstruct (fun l => l.covers i && l.endsAt e) t.loops :=
  innermostFirst_map _ _ _

theorem endingAt_eq (hL : t.layout.Nested) (i : Nat) : endingAt t.loops i = t.layout.leaving i i := by
  rw [leaving_eq]
  refine innermostFirst_congr fun l hl => ?_
  rw [Bool.eq_iff_iff, Bool.and_eq_true]
  refine ⟨fun hend => ⟨?_, hend⟩, And.right⟩
  obtain ⟨b, hb, rfl⟩ := (Construct.endsAt_iff _ _).mp hend
  obtain ⟨hfirst, hord, -⟩ := hL.bodies _ (mem_sites_of_loops hl) b hb
  exact (Construct.covers_iff _ _).mpr ⟨b, hb, hord, Nat.le_refl _⟩

/-- A loop around a construct that does not hold the row after its body ends with that body. -/
theorem exitedBy_eq (hL : t.layout.Nested) {k : Construct} (hk : k ∈ t.layout.sites) {b : Body}
    (hb : k.body = some b) :
    exitedBy t.loops k.index (if b.after < t.rows.size then some b.after else none) =
      t.layout.leaving k.index b.last := by
  rw [leaving_eq]
  refine innermostFirst_congr fun l hl => ?_
  have hls := mem_sites_of_loops hl
  obtain ⟨hfirst, hord, hsize⟩ := hL.bodies k hk b hb
  change b.last < t.rows.size at hsize
  rw [Bool.eq_iff_iff, Bool.and_eq_true, Bool.and_eq_true]
  refine and_congr_right fun hcovers => ?_
  obtain ⟨b', hb', hlt, hle⟩ := (hL.covers_iff hls).mp hcovers
  have hinside := (hL.inside _ hls b' hb' _ hk b hb hlt hle).2
  obtain ⟨-, -, hsize'⟩ := hL.bodies _ hls b' hb'
  change b'.last < t.rows.size at hsize'
  have hend : l.endsAt b.last = true ↔ b'.last = b.last := by
    rw [Construct.endsAt_iff]
    constructor
    · rintro ⟨c, hc, hlast⟩
      obtain rfl := Option.some.inj (hb'.symm.trans hc)
      exact hlast
    · exact fun hlast => ⟨b', hb', hlast⟩
  have hafter : l.covers b.after = true ↔ b.last < b'.last := by
    rw [hL.laminar.covers_body_iff hls hb']
    unfold Body.after
    omega
  rw [hend]
  split_ifs with hrow
  · rw [Option.all_some, Bool.not_eq_true', ← Bool.not_eq_true, hafter]
    omega
  · unfold Body.after at hrow
    simp only [Option.all_none, true_iff]
    omega

theorem rows_closePasses (t : Traversal) (places : List Nat) :
    (t.closePasses places).1.rows = t.rows := congrArg Layout.rows (t.layout_closePasses places)

/-- Bodies are not entered at a row where none begins. -/
theorem enterBodies_eq_self {start target : Nat}
    (h : ∀ l ∈ t.loops, (l.startsAt target && !l.covers start) = false) :
    t.enterBodies start target = t := by
  unfold enterBodies
  have hmap : t.loops.map (fun l =>
      if l.startsAt target && !l.covers start && !l.blocksEntry then l.enterBody else l) = t.loops := by
    refine (List.map_congr_left fun l hl => ?_).trans (List.map_id _)
    rw [h l hl, Bool.false_and, if_neg Bool.false_ne_true]
    rfl
  rw [hmap]

theorem startsAt_iff (hL : t.layout.Laminar) {l : Loop} (hl : l ∈ t.loops) (j : Nat) :
    l.startsAt j = true ↔ l.body.isSome ∧ j = l.index + 1 := by
  unfold Construct.startsAt
  cases hb : l.body with
  | none => simp
  | some b =>
      obtain ⟨hfirst, -, -⟩ := hL.bodies _ (mem_sites_of_loops hl) b hb
      rw [Option.any_some, beq_iff_eq]
      simp only [Option.isSome_some, true_and]
      omega

/-- No body begins right after another one that is skipped. -/
theorem enterBodies_after (hL : t.layout.Nested) {k : Construct} (hk : k ∈ t.layout.sites)
    {b : Body} (hb : k.body = some b) : t.enterBodies k.index b.after = t := by
  obtain ⟨hfirst, hord, -⟩ := hL.bodies k hk b hb
  refine enterBodies_eq_self fun l hl => ?_
  have hls := mem_sites_of_loops hl
  rw [← Bool.not_eq_true, Bool.and_eq_true, Bool.not_eq_true', startsAt_iff hL.laminar hl]
  rintro ⟨⟨hsome, hstart⟩, hnot⟩
  obtain ⟨b', hb'⟩ := Option.isSome_iff_exists.mp hsome
  obtain ⟨hfirst', hord', -⟩ := hL.bodies _ hls b' hb'
  have hcovers : l.covers b.after = true :=
    (hL.laminar.covers_body_iff hls hb').mpr ⟨by omega, by omega⟩
  rw [covers_of_covers_after hL hk hb hls hcovers] at hnot
  cases hnot

/-! ### Departures -/

/-- A departure whose navigation starts at `row`, ends in a state and goes on to the row given. -/
def LeadsTo (row : Int) (d : Traversal × Navigation) (r : Traversal × Option Int) : Prop :=
  d.1 = r.1 ∧ d.2.source = row ∧ d.2.target = r.2

theorem depart_of_chain {chain : SkipChain} (hrow : t.rowIndex? row = some i)
    (hchain : (t.rowIndex? (row - 1)).bind (t.skipChain? i) = some chain) :
    t.depart row = t.departSkipping row i chain := by
  unfold depart
  rw [hrow]
  dsimp only
  rw [hchain]

theorem depart_of_unchained (hrow : t.rowIndex? row = some i)
    (hchain : (t.rowIndex? (row - 1)).bind (t.skipChain? i) = none) :
    t.depart row = t.departPlainly row i (t.rowIndex? (row - 1)) := by
  unfold depart
  rw [hrow]
  dsimp only
  rw [hchain]

/-- A construct at the row skips its body; what skips ends its visit, and the loops that end with that
body are left. -/
theorem depart_skipping (hL : t.layout.Nested) (hi : t.rows[i]? = some row) {b : Body} {s : Skipper}
    (h : t.SkipsAt i b s) :
    LeadsTo row (t.depart row) ((t.finishSkipped [s]).resume i b.last) := by
  obtain ⟨k, hk, rfl, hb⟩ := h.exists_site
  obtain ⟨hfirst, hord, hsize⟩ := hL.bodies k hk b hb
  change b.last < t.rows.size at hsize
  have hlayout : (t.finishSkipped [s]).layout = t.layout := by
    cases s with
    | conditional => rfl
    | loop p => exact t.layout_modifyLoop p Loop.site_finishVisit Loop.codes_finishVisit
  have hchain : (t.rowIndex? (row - 1)).bind (t.skipChain? k.index) =
      some ⟨reasonOf s, if b.after < t.rows.size then some b.after else none, [s], false⟩ := by
    rw [rowIndex?_next hL hi, if_pos (by omega), Option.bind_some, skipChain?_of_skipsAt hL h]
  rw [depart_of_chain (rowIndex?_eq_some hL.laminar hi) hchain]
  unfold departSkipping
  dsimp only
  set q := t.finishSkipped [s] with hq
  have hqL : q.layout.Nested := hlayout.symm ▸ hL
  have hqrows : q.rows = t.rows := congrArg Layout.rows hlayout
  have hexited := exitedBy_eq hqL (hlayout.symm ▸ hk) hb
  rw [hqrows] at hexited
  rw [hexited]
  unfold resume
  have hrows := q.rows_closePasses (q.layout.leaving k.index b.last)
  have hlayout' := q.layout_closePasses (q.layout.leaving k.index b.last)
  generalize q.closePasses (q.layout.leaving k.index b.last) = closed at hrows hlayout'
  obtain ⟨closed, back⟩ := closed
  change closed.rows = q.rows at hrows
  change closed.layout = q.layout at hlayout'
  cases back with
  | some back => exact ⟨rfl, rfl, rfl⟩
  | none =>
      dsimp only
      rw [hrows, hqrows]
      split_ifs with hafter
      · dsimp only
        rw [enterBodies_after (hlayout'.symm ▸ hqL) (hlayout'.symm ▸ hlayout.symm ▸ hk) hb]
        exact ⟨rfl, rfl, rfl⟩
      · refine ⟨rfl, rfl, (Array.getElem?_eq_none ?_).symm⟩
        exact Nat.le_of_not_lt hafter

/-- A row that skips nothing is left plainly. -/
theorem depart_eq_departPlainly (hL : t.layout.Nested) (hi : t.rows[i]? = some row)
    (hchain : t.skipChain? i (i + 1) = none) :
    t.depart row =
      t.departPlainly row i (if i + 1 < t.rows.size then some (i + 1) else none) := by
  have hnext := rowIndex?_next hL hi
  rw [← hnext]
  refine depart_of_unchained (rowIndex?_eq_some hL.laminar hi) ?_
  rw [hnext]
  split_ifs
  · rw [Option.bind_some, hchain]
  · rfl

/-- Without a loop that plays its body, the loops that end at the row are left. -/
theorem depart_plainly (hL : t.layout.Nested) (hi : t.rows[i]? = some row)
    (hunskipped : t.Unskipped i) (hloop : t.layout.loop? i = none) :
    LeadsTo row (t.depart row) (t.resume i i) := by
  have hbodies : ∀ l ∈ t.loops, l.index = i → l.body.isSome → False := by
    intro l hl hindex hsome
    obtain ⟨b, hb⟩ := Option.isSome_iff_exists.mp hsome
    have := hL.loop?_eq_some (mem_layout_loops hl) hb
    rw [show (l.toConstruct, l.codes).1.index = i from hindex, hloop] at this
    cases this
  rw [depart_eq_departPlainly hL hi (skipChain?_eq_none hL hunskipped fun l hl hindex hsome =>
    (hbodies l hl hindex hsome).elim)]
  unfold departPlainly resume
  rw [endingAt_eq hL]
  have hrows := t.rows_closePasses (t.layout.leaving i i)
  have hlayout := t.layout_closePasses (t.layout.leaving i i)
  generalize t.closePasses (t.layout.leaving i i) = closed at hrows hlayout
  obtain ⟨closed, back⟩ := closed
  change closed.rows = t.rows at hrows
  change closed.layout = t.layout at hlayout
  cases back with
  | some back => exact ⟨rfl, rfl, rfl⟩
  | none =>
      dsimp only
      rw [hrows]
      split_ifs with hnext
      · dsimp only
        have henter : closed.enterBodies i (i + 1) = closed := by
          refine enterBodies_eq_self fun l hl => ?_
          have hcL : closed.layout.Nested := hlayout.symm ▸ hL
          rw [← Bool.not_eq_true, Bool.and_eq_true, startsAt_iff hcL.laminar hl]
          rintro ⟨⟨hsome, hstart⟩, -⟩
          obtain ⟨b, hb⟩ := Option.isSome_iff_exists.mp hsome
          have := hcL.loop?_eq_some (mem_layout_loops hl) hb
          rw [show (l.toConstruct, l.codes).1.index = i from (Nat.succ.inj hstart).symm, hlayout,
            hloop] at this
          cases this
        rw [henter]
        refine ⟨rfl, rfl, ?_⟩
        have hid := Array.getElem?_eq_getElem hnext
        have hrow := hL.rows i _ hid
        rw [show t.layout.rows[i]? = some row from hi] at hrow
        dsimp only
        rw [hid, Option.some.inj hrow, Int.add_sub_cancel]
      · exact ⟨rfl, rfl, (Array.getElem?_eq_none (Nat.le_of_not_lt hnext)).symm⟩

theorem map_ite_eq_modify {α : Type} {xs : List α} {p : Nat} {f : α → α} {test : α → Bool}
    (h : ∀ (q : Nat) (x : α), xs[q]? = some x → (test x = true ↔ q = p)) :
    xs.map (fun x => if test x then f x else x) = xs.modify p f := by
  refine List.ext_getElem? fun q => ?_
  rw [List.getElem?_map, List.getElem?_modify]
  cases hq : xs[q]? with
  | none => simp
  | some x =>
      have := h q x hq
      by_cases hp : q = p
      · simp [this.mpr hp, hp]
      · have htest : test x = false := by
          rw [← Bool.not_eq_true]
          exact fun htest => hp (this.mp htest)
        simp [htest, Ne.symm hp]

/-- A loop at the row that has passes left plays its body. -/
theorem depart_entering (hL : t.layout.Nested) (hi : t.rows[i]? = some row)
    (hunskipped : t.Unskipped i) {p : Nat} {l : Loop} (hl : t.loops[p]? = some l)
    (hindex : l.index = i) {b : Body} (hb : l.body = some b) (hblocks : l.blocksEntry = false) :
    LeadsTo row (t.depart row) (t.modifyLoop p Loop.enterBody, t.rows[b.first]?) := by
  have hmem := List.mem_of_getElem? hl
  have hls := mem_sites_of_loops hmem
  obtain ⟨hfirst, hord, hsize⟩ := hL.bodies _ hls b hb
  change b.last < t.rows.size at hsize
  have hplace : ∀ (q : Nat) (l' : Loop), t.loops[q]? = some l' → l'.index = i → q = p :=
    fun q l' hl' hindex' => hL.loop_place_inj (getElem?_layout_loops hl') (getElem?_layout_loops hl)
      (hindex'.trans hindex.symm)
  have hchain : t.skipChain? i (i + 1) = none := by
    refine skipChain?_eq_none hL hunskipped fun l' hl' hindex' _ => ?_
    obtain ⟨q, hq⟩ := List.getElem?_of_mem hl'
    obtain rfl := hplace q l' hq hindex'
    obtain rfl := Option.some.inj (hq.symm.trans hl)
    exact hblocks
  have hleaving : t.layout.leaving i i = [] := by
    rw [List.eq_nil_iff_forall_not_mem]
    intro q hq
    obtain ⟨k, hk, htest⟩ := (mem_innermostFirst q).mp hq
    rw [Bool.and_eq_true] at htest
    have hks := Layout.mem_sites_of_loop (List.mem_of_getElem? hk)
    obtain ⟨b', hb', hlt, hle⟩ := (hL.covers_iff hks).mp htest.1
    obtain ⟨c, hc, hend⟩ := (Construct.endsAt_iff _ _).mp htest.2
    obtain rfl := Option.some.inj (hb'.symm.trans hc)
    have := (hL.inside _ hks b' hb' _ hls b hb (by omega) (by omega)).2
    omega
  rw [depart_eq_departPlainly hL hi hchain, if_pos (by omega)]
  unfold departPlainly
  rw [endingAt_eq hL, hleaving]
  have henter : t.enterBodies i (i + 1) = t.modifyLoop p Loop.enterBody := by
    unfold enterBodies modifyLoop
    rw [map_ite_eq_modify fun q l' hl' => ?_]
    rw [Bool.and_eq_true, Bool.and_eq_true, Bool.not_eq_true', Bool.not_eq_true',
      startsAt_iff hL.laminar (List.mem_of_getElem? hl')]
    constructor
    · rintro ⟨⟨⟨-, hstart⟩, -⟩, -⟩
      exact hplace q l' hl' (Nat.succ.inj hstart).symm
    · rintro rfl
      obtain rfl := Option.some.inj (hl'.symm.trans hl)
      exact ⟨⟨⟨by rw [hb]; rfl, by omega⟩,
        hL.laminar.not_covers_of_le hls (Nat.le_of_eq hindex.symm)⟩, hblocks⟩
  dsimp only [closePasses]
  rw [henter]
  refine ⟨rfl, rfl, ?_⟩
  have hid := Array.getElem?_eq_getElem (show i + 1 < t.rows.size by omega)
  have hrow := hL.rows i _ hid
  rw [show t.layout.rows[i]? = some row from hi] at hrow
  have hnext : b.first = i + 1 := by omega
  dsimp only
  rw [hnext, hid, Option.some.inj hrow, Int.add_sub_cancel]

end Traversal

end RhythmChart
