import RhythmChart.Proofs.Flow.Answers

/-! # Leaving out constructs without a body

A construct without a body takes a place in its table, is encountered and is looked at in every search, but
it does nothing.  When all of these are left out, the others move up in their tables, and the traversal goes
the same way.

Main statements.

* `newPlace`: the place that a construct moves up to;
* `innermost?_thinned`, `innermostFirst_thinned`: searches find the same constructs;
* `Traversal.thin`: the traversal with only the constructs that have a body;
* `Traversal.depart_thin`: it leaves a row in the same way;
* `Traversal.walk_thin`: and takes the same walk. -/

namespace RhythmChart

/-! ### Tables -/

section Tables

variable {α β : Type} {keep : α → Bool} {adjust : α → β} {xs : List α}

/-- The place of a construct in a table when only some are kept: the number of those before it. -/
def newPlace (keep : α → Bool) (xs : List α) (p : Nat) : Nat := (xs.take p).countP keep

theorem newPlace_cons_succ (x : α) (xs : List α) (p : Nat) :
    newPlace keep (x :: xs) (p + 1) = newPlace keep xs p + if keep x then 1 else 0 := List.countP_cons

theorem newPlace_map (keep : β → Bool) (f : α → β) (xs : List α) (p : Nat) :
    newPlace keep (xs.map f) p = newPlace (fun x => keep (f x)) xs p := by
  rw [newPlace, newPlace, ← List.map_take, List.countP_map]
  rfl

/-- What comes later is moved to a later place. -/
theorem newPlace_lt {p q : Nat} {x : α} (hp : xs[p]? = some x) (hx : keep x = true) (hlt : p < q) :
    newPlace keep xs p < newPlace keep xs q := by
  have hnext : newPlace keep xs (p + 1) = newPlace keep xs p + 1 := by
    rw [newPlace, newPlace, List.take_add_one, hp, List.countP_append, Option.toList_some,
      List.countP_singleton, if_pos hx]
  have hle : newPlace keep xs (p + 1) ≤ newPlace keep xs q := (List.take_sublist_take_left hlt).countP_le
  omega

theorem newPlace_inj {p q : Nat} {x y : α} (hp : xs[p]? = some x) (hx : keep x = true)
    (hq : xs[q]? = some y) (hy : keep y = true) : newPlace keep xs p = newPlace keep xs q ↔ p = q := by
  refine ⟨fun heq => ?_, fun heq => heq ▸ rfl⟩
  rcases Nat.lt_trichotomy p q with hlt | hsame | hlt
  · exact absurd heq (Nat.ne_of_lt (newPlace_lt hp hx hlt))
  · exact hsame
  · exact absurd heq.symm (Nat.ne_of_lt (newPlace_lt hq hy hlt))

/-- A table in which only some constructs are kept, each of them adjusted. -/
def thinned (keep : α → Bool) (adjust : α → β) (xs : List α) : List β := (xs.filter keep).map adjust

theorem thinned_cons_of_pos {x : α} (h : keep x = true) :
    thinned keep adjust (x :: xs) = adjust x :: thinned keep adjust xs := by
  rw [thinned, List.filter_cons_of_pos h]
  rfl

theorem thinned_cons_of_neg {x : α} (h : keep x = false) :
    thinned keep adjust (x :: xs) = thinned keep adjust xs := by
  rw [thinned, List.filter_cons_of_neg (Bool.eq_false_iff.mp h)]
  rfl

theorem getElem?_thinned {p : Nat} {x : α} (hp : xs[p]? = some x) (hx : keep x = true) :
    (thinned keep adjust xs)[newPlace keep xs p]? = some (adjust x) := by
  induction xs generalizing p with
  | nil => cases hp
  | cons y ys ih =>
      cases p with
      | zero =>
          obtain rfl := Option.some.inj hp
          rw [thinned_cons_of_pos hx]
          rfl
      | succ p =>
          rw [newPlace_cons_succ]
          cases hy : keep y with
          | true =>
              rw [thinned_cons_of_pos hy]
              exact ih hp
          | false =>
              rw [thinned_cons_of_neg hy]
              exact ih hp

theorem thinned_modify {f : α → α} {g : β → β} {p : Nat} {x : α} (hp : xs[p]? = some x)
    (hx : keep x = true) (hf : keep (f x) = true) (hg : adjust (f x) = g (adjust x)) :
    thinned keep adjust (xs.modify p f) = (thinned keep adjust xs).modify (newPlace keep xs p) g := by
  induction xs generalizing p with
  | nil => cases hp
  | cons y ys ih =>
      cases p with
      | zero =>
          obtain rfl := Option.some.inj hp
          rw [List.modify_zero_cons, thinned_cons_of_pos hf, thinned_cons_of_pos hx, hg]
          rfl
      | succ p =>
          rw [List.modify_succ_cons, newPlace_cons_succ]
          cases hy : keep y with
          | true => rw [thinned_cons_of_pos hy, thinned_cons_of_pos hy, ih hp]; rfl
          | false => rw [thinned_cons_of_neg hy, thinned_cons_of_neg hy, ih hp]; rfl

theorem thinned_map {f : α → α} {g : β → β} (hf : ∀ x, keep (f x) = keep x)
    (hg : ∀ x ∈ xs, adjust (f x) = g (adjust x)) :
    thinned keep adjust (xs.map f) = (thinned keep adjust xs).map g := by
  rw [thinned, thinned, List.filter_map, List.map_map, List.map_map]
  simp only [Function.comp_def, hf]
  exact List.map_congr_left fun x hx => hg x (List.mem_filter.mp hx).1

section Searches

variable {site : α → Construct} {site' : β → Construct} {test : α → Bool} {test' : β → Bool}

/-- A search finds the same constructs when some are left out: what it looks for is kept, and what is kept
stays as deep as it is and is looked for as before. -/
structure Findable (site : α → Construct) (site' : β → Construct) (test : α → Bool) (test' : β → Bool)
    (keep : α → Bool) (adjust : α → β) (xs : List α) : Prop where
  depth : ∀ x y, (site' (adjust x)).atOrInside (site' (adjust y)) = (site x).atOrInside (site y)
  tested : ∀ x ∈ xs, test' (adjust x) = test x
  kept : ∀ x ∈ xs, test x = true → keep x = true

theorem Findable.tail {x : α} (h : Findable site site' test test' keep adjust (x :: xs)) :
    Findable site site' test test' keep adjust xs :=
  ⟨h.depth, fun y hy => h.tested y (List.mem_cons_of_mem _ hy),
    fun y hy => h.kept y (List.mem_cons_of_mem _ hy)⟩

theorem place_succ {x : α} {i j : Nat} {place : Nat → Nat}
    (hplace : ∀ d, place (i + d) = j + newPlace keep (x :: xs) d) (d : Nat) :
    place (i + 1 + d) = (j + if keep x then 1 else 0) + newPlace keep xs d := by
  rw [Nat.add_assoc, Nat.add_comm 1 d, hplace, newPlace_cons_succ]
  omega

/-- The innermost construct is found at its new place.  Places are counted from `i` before and from `j`
after. -/
theorem innermostFrom_thinned (h : Findable site site' test test' keep adjust xs) {i j : Nat}
    {place : Nat → Nat} (hplace : ∀ d, place (i + d) = j + newPlace keep xs d)
    (best : Option (Nat × α)) :
    innermostFrom site' test' (thinned keep adjust xs) j (best.map (Prod.map place adjust)) =
      (innermostFrom site test xs i best).map (Prod.map place adjust) := by
  induction xs generalizing i j best with
  | nil => rfl
  | cons x xs ih =>
      have hrest := ih h.tail (place_succ hplace)
      cases hx : keep x with
      | true =>
          have hhere : place i = j := hplace 0
          have hbetter : (test' (adjust x) && (best.map (Prod.map place adjust)).all fun b =>
              (site' b.2).atOrInside (site' (adjust x))) =
                (test x && best.all fun b => (site b.2).atOrInside (site x)) := by
            rw [h.tested x List.mem_cons_self]
            cases best with
            | none => rfl
            | some b => exact congrArg (test x && ·) (h.depth b.2 x)
          rw [if_pos hx] at hrest
          rw [thinned_cons_of_pos hx, innermostFrom, innermostFrom, hbetter, ← hrest]
          split_ifs
          · rw [Option.map_some, Prod.map_apply, hhere]
          · rfl
      | false =>
          have hfails : test x = false := by simpa [hx] using h.kept x List.mem_cons_self
          rw [if_neg (Bool.eq_false_iff.mp hx), Nat.add_zero] at hrest
          rw [thinned_cons_of_neg hx, hrest, innermostFrom, hfails, Bool.false_and]
          rfl

theorem innermost?_thinned (h : Findable site site' test test' keep adjust xs) :
    innermost? site' test' (thinned keep adjust xs) =
      (innermost? site test xs).map (Prod.map (newPlace keep xs) adjust) :=
  innermostFrom_thinned h (fun d => by rw [Nat.zero_add, Nat.zero_add]) none

theorem indicesFrom_thinned (h : Findable site site' test test' keep adjust xs) {i j : Nat}
    {place : Nat → Nat} (hplace : ∀ d, place (i + d) = j + newPlace keep xs d) :
    indicesFrom test' (thinned keep adjust xs) j = (indicesFrom test xs i).map place := by
  induction xs generalizing i j with
  | nil => rfl
  | cons x xs ih =>
      have hrest := ih h.tail (place_succ hplace)
      cases hx : keep x with
      | true =>
          have hhere : place i = j := hplace 0
          rw [if_pos hx] at hrest
          rw [thinned_cons_of_pos hx, indicesFrom, indicesFrom, h.tested x List.mem_cons_self, hrest]
          split_ifs
          · rw [List.map_cons, hhere]
          · rfl
      | false =>
          have hfails : test x = false := by simpa [hx] using h.kept x List.mem_cons_self
          rw [if_neg (Bool.eq_false_iff.mp hx), Nat.add_zero] at hrest
          rw [thinned_cons_of_neg hx, hrest, indicesFrom, hfails]
          rfl

theorem innermostFirst_thinned (h : Findable site site' test test' keep adjust xs) :
    innermostFirst site' test' (thinned keep adjust xs) =
      (innermostFirst site test xs).map (newPlace keep xs) := by
  have hplaces : indicesFrom test' (thinned keep adjust xs) 0 =
      (indicesFrom test xs 0).map (newPlace keep xs) :=
    indicesFrom_thinned h fun d => by rw [Nat.zero_add, Nat.zero_add]
  rw [innermostFirst, innermostFirst, hplaces]
  refine (List.map_mergeSort fun p hp q hq => ?_).symm
  obtain ⟨d, x, rfl, hx, hxtest⟩ := (mem_indicesFrom _ _).mp hp
  obtain ⟨e, y, rfl, hy, hytest⟩ := (mem_indicesFrom _ _).mp hq
  rw [Nat.zero_add, Nat.zero_add, getElem?_thinned hx (h.kept x (List.mem_of_getElem? hx) hxtest),
    getElem?_thinned hy (h.kept y (List.mem_of_getElem? hy) hytest), hx, hy]
  exact (h.depth y x).symm

end Searches

end Tables

/-! ### Constructs -/

namespace Construct

/-- Whether the construct has a body. -/
def acts (k : Construct) : Bool := k.body.isSome

theorem acts_of_covers {k : Construct} {i : Nat} (h : k.covers i = true) : k.acts = true := by
  obtain ⟨b, hb, -⟩ := (covers_iff k i).mp h
  rw [acts, hb]
  rfl

theorem acts_of_endsAt {k : Construct} {i : Nat} (h : k.endsAt i = true) : k.acts = true := by
  obtain ⟨b, hb, -⟩ := (endsAt_iff k i).mp h
  rw [acts, hb]
  rfl

end Construct

namespace Loop

/-- The loop when the loops of the table have moved. -/
def relocate (place : Nat → Nat) (l : Loop) : Loop := { l with parent := l.parent.map place }

variable (place : Nat → Nat) (l : Loop)

theorem encounter_relocate : (l.relocate place).encounter = l.encounter.relocate place := by
  have hgranted : (l.relocate place).granted = l.granted := by
    unfold granted relocate
    rw [Option.isSome_map]
    rfl
  unfold encounter
  rw [hgranted]
  split_ifs <;> simp_all [relocate]

theorem finishVisit_relocate : (l.relocate place).finishVisit = l.finishVisit.relocate place := by
  unfold finishVisit relocate
  simp only [Option.isNone_map]
  split_ifs <;> rfl

theorem finishPass_relocate : (l.relocate place).finishPass = l.finishPass.relocate place := by
  cases hrepeats : l.repeats with
  | true =>
      rw [finishPass_of_repeats hrepeats, finishPass_of_repeats (l := l.relocate place) hrepeats]
      rfl
  | false =>
      rw [finishPass_of_spent hrepeats, finishPass_of_spent (l := l.relocate place) hrepeats,
        ← finishVisit_relocate]
      rfl

theorem advance_relocate : (l.relocate place).advance = l.advance.relocate place := by
  unfold advance relocate
  split_ifs <;> rfl

end Loop

namespace Conditional

/-- The conditional when the loops of the table have moved. -/
def relocate (place : Nat → Nat) (b : Conditional) : Conditional := { b with parent := b.parent.map place }

theorem encounter_relocate (place : Nat → Nat) (b : Conditional) :
    (b.relocate place).encounter = b.encounter.relocate place := by
  unfold encounter relocate
  split_ifs <;> rfl

end Conditional

/-- Parents are loops with a body. -/
def Layout.Sheltered (L : Layout) : Prop :=
  ∀ k ∈ L.sites, ∀ p, k.parent = some p → ∃ e, L.loops[p]? = some e ∧ e.1.acts = true

namespace Traversal

variable {t u : Traversal} {i j : Nat} {row : Int}

/-! ### States -/

/-- The new place of a loop when those without a body are left out. -/
def loopPlace (t : Traversal) : Nat → Nat := newPlace (fun l => l.acts) t.loops

/-- The new place of what skips. -/
def moved (t : Traversal) : Skipper → Skipper
  | .conditional p => .conditional (newPlace (fun b => b.acts) t.conditionals p)
  | .loop p => .loop (t.loopPlace p)

/-- The traversal with only the constructs that have a body. -/
def thin (t : Traversal) : Traversal :=
  { t with
    loops := thinned (fun l => l.acts) (Loop.relocate t.loopPlace) t.loops
    conditionals := thinned (fun b => b.acts) (Conditional.relocate t.loopPlace) t.conditionals }

theorem loopPlace_layout (t : Traversal) : t.loopPlace = newPlace (fun e => e.1.acts) t.layout.loops := by
  funext p
  rw [layout, newPlace_map]
  rfl

theorem loopPlace_congr (h : u.layout = t.layout) : u.loopPlace = t.loopPlace := by
  rw [loopPlace_layout, loopPlace_layout, h]

theorem moved_congr (h : u.layout = t.layout) : u.moved = t.moved := by
  funext s
  cases s with
  | loop p => rw [moved, moved, loopPlace_congr h]
  | conditional p =>
      have hrank : ∀ t : Traversal, newPlace (fun b : Conditional => b.acts) t.conditionals p =
          newPlace (fun e => e.1.acts) t.layout.conditionals p := by
        intro t
        rw [layout, newPlace_map]
      rw [moved, moved, hrank, hrank, h]

/-- The loop at a place has a body. -/
def ActsAt (t : Traversal) (p : Nat) : Prop := ∃ l, t.loops[p]? = some l ∧ l.acts = true

theorem ActsAt.congr {p : Nat} (hp : t.ActsAt p) (h : u.layout = t.layout) : u.ActsAt p := by
  obtain ⟨l, hl, hacts⟩ := hp
  obtain ⟨m, hm, hsite, -⟩ := exists_loop_of_layout h hl
  exact ⟨m, hm, hsite.symm ▸ hacts⟩

theorem getElem?_loops_thin {p : Nat} {l : Loop} (hp : t.loops[p]? = some l) (hl : l.acts = true) :
    t.thin.loops[t.loopPlace p]? = some (l.relocate t.loopPlace) := getElem?_thinned hp hl

/-- Changing the constructs of a traversal that are kept, if they keep their bodies. -/
theorem thin_map {f F : Loop → Loop} {g G : Conditional → Conditional}
    (hf : ∀ l, (f l).toConstruct = l.toConstruct) (hg : ∀ b, (g b).toConstruct = b.toConstruct)
    (hF : ∀ l ∈ t.loops, (f l).relocate t.loopPlace = F (l.relocate t.loopPlace))
    (hG : ∀ b ∈ t.conditionals, (g b).relocate t.loopPlace = G (b.relocate t.loopPlace)) :
    ({ t with loops := t.loops.map f, conditionals := t.conditionals.map g } : Traversal).thin =
      { t.thin with loops := t.thin.loops.map F, conditionals := t.thin.conditionals.map G } := by
  have hplace : ({ t with loops := t.loops.map f, conditionals := t.conditionals.map g } :
      Traversal).loopPlace = t.loopPlace := by
    funext p
    rw [loopPlace, loopPlace, newPlace_map]
    simp only [hf]
  unfold thin
  rw [hplace]
  dsimp only
  rw [thinned_map (fun l => by rw [hf]) hF, thinned_map (fun b => by rw [hg]) hG]

theorem arrive_thin (t : Traversal) (row : Int) : t.thin.arrive row = (t.arrive row).thin := by
  refine (thin_map ?_ ?_ ?_ ?_).symm
  · intro l
    split_ifs <;> simp
  · intro b
    split_ifs <;> simp
  · intro l _
    rw [apply_ite (Loop.relocate t.loopPlace), ← Loop.encounter_relocate]
    rfl
  · intro b _
    rw [apply_ite (Conditional.relocate t.loopPlace), ← Conditional.encounter_relocate]
    rfl

theorem enterBodies_thin (t : Traversal) (start target : Nat) :
    t.thin.enterBodies start target = (t.enterBodies start target).thin := by
  have hmap := thin_map (t := t) (g := id) (G := id)
    (f := fun l => if l.startsAt target && !l.covers start && !l.blocksEntry then l.enterBody else l)
    (F := fun l => if l.startsAt target && !l.covers start && !l.blocksEntry then l.enterBody else l)
    (fun l => by split_ifs <;> rfl) (fun b => rfl)
    (fun l _ => apply_ite (Loop.relocate t.loopPlace) _ _ _) (fun b _ => rfl)
  rw [List.map_id, List.map_id] at hmap
  exact hmap.symm

/-- What is directly inside a loop stays directly inside it. -/
theorem nextPass_thin (ht : t.layout.Sheltered) {p : Nat} (hp : t.ActsAt p) :
    t.thin.nextPass (t.loopPlace p) = (t.nextPass p).thin := by
  obtain ⟨l, hl, hlacts⟩ := hp
  have hparent : ∀ k ∈ t.layout.sites, k.parent.map t.loopPlace = some (t.loopPlace p) ↔ k.parent = some p := by
    intro k hk
    cases hq : k.parent with
    | none => simp
    | some q =>
        obtain ⟨e, he, hacts⟩ := ht k hk q hq
        rw [Option.map_some, Option.some.injEq, Option.some.injEq, loopPlace_layout]
        exact newPlace_inj he hacts (getElem?_layout_loops hl) hlacts
  refine (thin_map ?_ ?_ ?_ ?_).symm
  · intro l
    split_ifs <;> simp
  · intro b
    split_ifs <;> rfl
  · intro m hm
    rw [apply_ite (Loop.relocate t.loopPlace), ← Loop.advance_relocate]
    exact if_congr (hparent _ (mem_sites_of_loops hm)).symm rfl rfl
  · intro b hb
    rw [apply_ite (Conditional.relocate t.loopPlace)]
    exact if_congr (hparent _ (mem_sites_of_conditionals hb)).symm rfl rfl

theorem modifyLoop_thin {f : Loop → Loop} (hsite : ∀ l, (f l).toConstruct = l.toConstruct)
    (hcodes : ∀ l, (f l).codes = l.codes)
    (hf : ∀ (place : Nat → Nat) (l : Loop), f (l.relocate place) = (f l).relocate place) {p : Nat}
    (hp : t.ActsAt p) : t.thin.modifyLoop (t.loopPlace p) f = (t.modifyLoop p f).thin := by
  obtain ⟨l, hl, hacts⟩ := hp
  have hrank := loopPlace_congr (t.layout_modifyLoop p hsite hcodes)
  unfold thin
  rw [hrank]
  unfold modifyLoop
  dsimp only
  congr 1
  exact (thinned_modify hl hacts (by rw [hsite]; exact hacts) (hf _ l).symm).symm

/-! ### Skips -/

/-- What skips a row from another has a body. -/
theorem actsAt_of_skipper? {p place : Nat} (h : t.skipper? i j = some (.loop p, place)) :
    t.ActsAt p := by
  unfold skipper? at h
  split at h
  next => cases h
  next =>
    split at h
    next q l hfound =>
      obtain ⟨b, -, hsame⟩ := Option.map_eq_some_iff.mp h
      obtain rfl := Skipper.loop.inj (Prod.mk.inj hsame).1
      obtain ⟨hl, htest, -⟩ := innermost?_some hfound
      rw [Bool.and_eq_true, Bool.and_eq_true] at htest
      exact ⟨l, hl, Construct.acts_of_covers htest.1.1⟩
    next => cases h

theorem skipper?_thin (t : Traversal) (start target : Nat) :
    t.thin.skipper? start target = (t.skipper? start target).map (Prod.map t.moved id) := by
  have hconditional : innermostSkipping? t.thin.conditionals start target =
      (innermostSkipping? t.conditionals start target).map
        (Prod.map (newPlace (fun b => b.acts) t.conditionals) (Conditional.relocate t.loopPlace)) := by
    refine innermost?_thinned ⟨fun _ _ => rfl, fun _ _ => rfl, fun b _ htest => ?_⟩
    rw [Conditional.skips, Bool.and_eq_true, Bool.and_eq_true] at htest
    exact Construct.acts_of_covers htest.1.2
  have hloop : innermost? Loop.toConstruct
      (fun l => l.covers target && !l.covers start && l.blocksEntry) t.thin.loops =
        (innermost? Loop.toConstruct
          (fun l => l.covers target && !l.covers start && l.blocksEntry) t.loops).map
            (Prod.map t.loopPlace (Loop.relocate t.loopPlace)) := by
    refine innermost?_thinned ⟨fun _ _ => rfl, fun _ _ => rfl, fun l _ htest => ?_⟩
    rw [Bool.and_eq_true, Bool.and_eq_true] at htest
    exact Construct.acts_of_covers htest.1.1
  unfold skipper?
  rw [hconditional]
  cases innermostSkipping? t.conditionals start target with
  | some found => rfl
  | none =>
      dsimp only [Option.map_none]
      rw [hloop]
      cases innermost? Loop.toConstruct
          (fun l => l.covers target && !l.covers start && l.blocksEntry) t.loops with
      | none => rfl
      | some found =>
          exact (Option.map_map (Prod.map t.moved id)
            (fun b => ((.loop found.1, b.after) : Skipper × Nat)) found.2.body).symm

theorem extendSkip_thin (t : Traversal) (start steps place : Nat) :
    t.thin.extendSkip start steps place =
      ((t.extendSkip start steps place).1, (t.extendSkip start steps place).2.1.map t.moved,
        (t.extendSkip start steps place).2.2) := by
  induction steps generalizing place with
  | zero => rfl
  | succ steps ih =>
      rw [extendSkip, extendSkip, skipper?_thin]
      change (if place < t.rows.size then _ else _) = _
      split_ifs
      · cases t.skipper? start place with
        | none => rfl
        | some found =>
            dsimp only [Option.map_some, Prod.map_apply, id_eq]
            rw [ih]
            rfl
      · rfl

/-- The chain of skips when what skips has moved. -/
def movedChain (t : Traversal) (chain : SkipChain) : SkipChain :=
  { chain with skippers := chain.skippers.map t.moved }

theorem skipChain?_thin (t : Traversal) (start target : Nat) :
    t.thin.skipChain? start target = (t.skipChain? start target).map t.movedChain := by
  unfold skipChain?
  rw [skipper?_thin]
  cases t.skipper? start target with
  | none => rfl
  | some found =>
      obtain ⟨s, place⟩ := found
      dsimp only [Option.map_some, Prod.map_apply, id_eq]
      rw [extendSkip_thin]
      cases s <;> rfl

theorem finishSkipped_thin {skippers : List Skipper}
    (h : ∀ p, .loop p ∈ skippers → t.ActsAt p) :
    t.thin.finishSkipped (skippers.map t.moved) = (t.finishSkipped skippers).thin := by
  induction skippers generalizing t with
  | nil => rfl
  | cons s skippers ih =>
      cases s with
      | conditional p => exact ih fun q hq => h q (List.mem_cons_of_mem _ hq)
      | loop p =>
          have hlayout := t.layout_modifyLoop p Loop.site_finishVisit Loop.codes_finishVisit
          have hrest := ih (t := t.modifyLoop p Loop.finishVisit) fun q hq =>
            (h q (List.mem_cons_of_mem _ hq)).congr hlayout
          rw [moved_congr hlayout, ← modifyLoop_thin Loop.site_finishVisit Loop.codes_finishVisit
            Loop.finishVisit_relocate (h p List.mem_cons_self)] at hrest
          exact hrest

/-! ### Passes -/

theorem exitedBy_thin (t : Traversal) (start : Nat) (landing : Option Nat) :
    exitedBy t.thin.loops start landing = (exitedBy t.loops start landing).map t.loopPlace := by
  refine innermostFirst_thinned ⟨fun _ _ => rfl, fun _ _ => rfl, fun l _ htest => ?_⟩
  rw [Bool.and_eq_true] at htest
  exact Construct.acts_of_covers htest.1

theorem endingAt_thin (t : Traversal) (i : Nat) :
    endingAt t.thin.loops i = (endingAt t.loops i).map t.loopPlace :=
  innermostFirst_thinned ⟨fun _ _ => rfl, fun _ _ => rfl, fun _ _ htest => Construct.acts_of_endsAt htest⟩

theorem closePasses_thin (ht : t.layout.Sheltered) {places : List Nat} (h : ∀ p ∈ places, t.ActsAt p) :
    t.thin.closePasses (places.map t.loopPlace) =
      ((t.closePasses places).1.thin, (t.closePasses places).2) := by
  induction places generalizing t with
  | nil => rfl
  | cons p places ih =>
      have hp := h p List.mem_cons_self
      have hrest : ∀ q ∈ places, t.ActsAt q := fun q hq => h q (List.mem_cons_of_mem _ hq)
      obtain ⟨l, hl, hacts⟩ := h p List.mem_cons_self
      have hvisit : (l.relocate t.loopPlace).visit = l.visit := rfl
      rw [List.map_cons, closePasses, closePasses, getElem?_loops_thin hl hacts, hl]
      dsimp only
      rw [hvisit]
      split_ifs
      · have hlayout := t.layout_modifyLoop p Loop.site_finishPass Loop.codes_finishPass
        have hclosed := modifyLoop_thin Loop.site_finishPass Loop.codes_finishPass
          Loop.finishPass_relocate hp
        have hrepeats : (l.relocate t.loopPlace).repeats = l.repeats := rfl
        have hbody : (l.relocate t.loopPlace).body = l.body := rfl
        obtain ⟨b, hb⟩ := Option.isSome_iff_exists.mp hacts
        rw [hclosed, hrepeats, hbody, hb, ← loopPlace_congr hlayout]
        cases l.repeats with
        | true =>
            exact congrArg (·, some b.first) (nextPass_thin (hlayout.symm ▸ ht) (hp.congr hlayout))
        | false => exact ih (hlayout.symm ▸ ht) fun q hq => (hrest q hq).congr hlayout
      · exact ih ht hrest

/-! ### Departures -/

theorem departSkipping_thin (ht : t.layout.Sheltered) {chain : SkipChain}
    (h : ∀ p, .loop p ∈ chain.skippers → t.ActsAt p) :
    t.thin.departSkipping row i (t.movedChain chain) =
      ((t.departSkipping row i chain).1.thin, (t.departSkipping row i chain).2) := by
  have hlayout := t.layout_finishSkipped chain.skippers
  have hexited : ∀ p ∈ exitedBy (t.finishSkipped chain.skippers).loops i chain.landing,
      (t.finishSkipped chain.skippers).ActsAt p := by
    intro p hp
    obtain ⟨l, hl, htest⟩ := (mem_innermostFirst p).mp hp
    exact ⟨l, hl, Construct.acts_of_covers (Bool.and_eq_true _ _ ▸ htest).1⟩
  have hclose := closePasses_thin (hlayout.symm ▸ ht) hexited
  rw [← exitedBy_thin, ← finishSkipped_thin h] at hclose
  unfold departSkipping
  dsimp only [movedChain]
  rw [hclose]
  rcases (t.finishSkipped chain.skippers).closePasses
    (exitedBy (t.finishSkipped chain.skippers).loops i chain.landing) with ⟨u, back⟩
  cases back with
  | some back => rfl
  | none =>
      cases chain.landing with
      | none => rfl
      | some place => exact congrArg (·, _) (enterBodies_thin u i place)

theorem departPlainly_thin (ht : t.layout.Sheltered) (next : Option Nat) :
    t.thin.departPlainly row i next =
      ((t.departPlainly row i next).1.thin, (t.departPlainly row i next).2) := by
  have hending : ∀ p ∈ endingAt t.loops i, t.ActsAt p := by
    intro p hp
    obtain ⟨l, hl, htest⟩ := (mem_innermostFirst p).mp hp
    exact ⟨l, hl, Construct.acts_of_endsAt htest⟩
  unfold departPlainly
  rw [endingAt_thin, closePasses_thin ht hending]
  rcases t.closePasses (endingAt t.loops i) with ⟨u, back⟩
  cases back with
  | some back => rfl
  | none =>
      cases next with
      | none => rfl
      | some place => exact congrArg (·, _) (enterBodies_thin u i place)

/-- The loops of a chain of skips have bodies. -/
theorem Chained.actsAt {chain : SkipChain} (h : t.Chained i j chain) {p : Nat}
    (hp : .loop p ∈ chain.skippers) : t.ActsAt p := by
  cases h with
  | once hskip _ =>
      obtain rfl := List.mem_singleton.mp hp
      exact actsAt_of_skipper? hskip
  | twice _ hskip _ =>
      rcases List.mem_cons.mp hp with hp | hp
      · cases hp
      · obtain rfl := Skipper.loop.inj (List.mem_singleton.mp hp)
        exact actsAt_of_skipper? hskip

/-- Leaving a row goes the same way without the constructs that have no body. -/
theorem depart_thin (hL : t.layout.Laminar) (ht : t.layout.Sheltered) (row : Int) :
    t.thin.depart row = ((t.depart row).1.thin, (t.depart row).2) := by
  have hindex : ∀ id, t.thin.rowIndex? id = t.rowIndex? id := fun _ => rfl
  cases hrow : t.rowIndex? row with
  | none =>
      unfold depart
      rw [hindex, hrow]
  | some i =>
      have hskips : (t.thin.rowIndex? (row - 1)).bind (t.thin.skipChain? i) =
          ((t.rowIndex? (row - 1)).bind (t.skipChain? i)).map t.movedChain := by
        rw [hindex]
        cases t.rowIndex? (row - 1) with
        | none => rfl
        | some j => exact skipChain?_thin t i j
      cases hchain : (t.rowIndex? (row - 1)).bind (t.skipChain? i) with
      | none =>
          rw [hchain] at hskips
          rw [depart_of_unchained hrow hchain, depart_of_unchained (t := t.thin) hrow hskips]
          exact departPlainly_thin ht _
      | some chain =>
          rw [hchain] at hskips
          rw [depart_of_chain hrow hchain, depart_of_chain (t := t.thin) hrow hskips]
          obtain ⟨j, hj, hj'⟩ := Option.bind_eq_some_iff.mp hchain
          obtain ⟨rfl, -⟩ := eq_succ_of_rowIndex? hL (getElem?_of_rowIndex? hrow) hj
          exact departSkipping_thin ht fun p hp => (chained_skipChain? hL (.inl rfl) hj').actsAt hp

/-- A state of a traversal in which bodies are nested and parents have bodies; so they are in all later
states. -/
structure Sound (t : Traversal) : Prop where
  laminar : t.layout.Laminar
  sheltered : t.layout.Sheltered

theorem Sound.visit (h : t.Sound) (row : Int) : (t.visit row).1.Sound := by
  have harrive := t.layout_arrive row
  have hlayout : (t.visit row).1.layout = t.layout :=
    (layout_depart (harrive.symm ▸ h.laminar) row).trans harrive
  exact ⟨hlayout.symm ▸ h.laminar, hlayout.symm ▸ h.sheltered⟩

theorem visit_thin (h : t.Sound) (row : Int) :
    t.thin.visit row = ((t.visit row).1.thin, (t.visit row).2) := by
  have harrive := t.layout_arrive row
  rw [visit, arrive_thin]
  exact depart_thin (harrive.symm ▸ h.laminar) (harrive.symm ▸ h.sheltered) row

theorem walk_thin (h : t.Sound) (steps : Nat) (row : Int) :
    t.thin.walk steps row = ((t.walk steps row).1.thin, (t.walk steps row).2) := by
  induction steps generalizing t row with
  | zero => rfl
  | succ steps ih =>
      rw [walk, walk, visit_thin h]
      dsimp only
      cases (t.visit row).2.target with
      | none => rfl
      | some next =>
          dsimp only
          rw [ih (h.visit row)]

theorem tour_thin (h : t.Sound) (steps : Nat) :
    (t.thin.tour steps).2 = (t.tour steps).2 := by
  have hfirst : t.thin.firstRow? = t.firstRow? := rfl
  unfold tour
  rw [hfirst]
  cases t.firstRow? with
  | none => rfl
  | some row =>
      dsimp only
      rw [walk_thin h]

end Traversal

end RhythmChart
