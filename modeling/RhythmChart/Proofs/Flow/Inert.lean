import RhythmChart.Proofs.Flow.Enclosure
import RhythmChart.Proofs.Flow.Thinning
import RhythmChart.Proofs.Outline
import RhythmChart.Proofs.Rows

/-! # Codes that have no effect

A loop or a conditional without a body does nothing, so that the codes of its note can be taken away.  But a
row has one loop and one conditional, those of its first notes with codes, and a construct without a body
keeps the other notes of its row from starting one: if one of these has a body, the codes have to stay.

Main statements.

* `firstPerAnchor_flatMap`: a table has the first construct of each row;
* `Chart.cleared`, `Chart.trimmed`: the chart without all codes that start no body, and without those that
  keep no other note from starting one;
* `Traversal.thin_assemble`: the constructs with a body make up a traversal of their own;
* `Traversal.thin_trimmed`: a trimmed chart has the same constructs with a body;
* `Planner.visits_trimmed`: it is played in the same way. -/

namespace RhythmChart

/-! ### Tables by rows -/

section Tables

variable {α β : Type} {site : α → Construct}

/-- Nothing is added for anchors that are taken. -/
theorem foldl_insert?_of_taken {table xs : List α}
    (h : ∀ x ∈ xs, ∃ y ∈ table, (site y).anchor = (site x).anchor) :
    xs.foldl (fun table x => (insert? site table x).getD table) table = table := by
  induction xs with
  | nil => rfl
  | cons x xs ih =>
      obtain ⟨y, hy, hsame⟩ := h x List.mem_cons_self
      have htaken : (table.any fun y => (site y).anchor == (site x).anchor) = true :=
        List.any_eq_true.mpr ⟨y, hy, beq_iff_eq.mpr hsame⟩
      rw [List.foldl_cons, insert?, if_pos htaken]
      exact ih fun z hz => h z (List.mem_cons_of_mem _ hz)

/-- When constructs are listed by rows, the table has the first one of each row. -/
theorem firstPerAnchor_flatMap {rows : List β} {f : β → List α} {anchor : β → Int}
    (hanchor : ∀ r ∈ rows, ∀ x ∈ f r, (site x).anchor = anchor r) (hnodup : (rows.map anchor).Nodup) :
    firstPerAnchor site (rows.flatMap f) = rows.filterMap fun r => (f r).head? := by
  suffices ∀ table : List α, (∀ r ∈ rows, ∀ y ∈ table, (site y).anchor ≠ anchor r) →
      (rows.flatMap f).foldl (fun table x => (insert? site table x).getD table) table =
        table ++ rows.filterMap fun r => (f r).head? from this [] fun _ _ _ hy => (nomatch hy)
  induction rows with
  | nil => exact fun table _ => (List.append_nil table).symm
  | cons r rows ih =>
      intro table hfree
      obtain ⟨hr, hrest⟩ := List.nodup_cons.mp hnodup
      have ih := ih (fun s hs => hanchor s (List.mem_cons_of_mem _ hs)) hrest
      rw [List.flatMap_cons, List.foldl_append]
      cases hf : f r with
      | nil =>
          rw [List.filterMap_cons_none (by rw [hf]; rfl)]
          exact ih table fun s hs => hfree s (List.mem_cons_of_mem _ hs)
      | cons x xs =>
          have hx := hanchor r List.mem_cons_self x (hf ▸ List.mem_cons_self)
          have hnew : insert? site table x = some (table ++ [x]) := by
            refine if_neg fun htaken => ?_
            obtain ⟨y, hy, hsame⟩ := List.any_eq_true.mp htaken
            exact hfree r List.mem_cons_self y hy ((beq_iff_eq.mp hsame).trans hx)
          have hothers : ∀ z ∈ xs, ∃ y ∈ table ++ [x], (site y).anchor = (site z).anchor := fun z hz =>
            ⟨x, List.mem_append_right _ List.mem_cons_self,
              hx.trans (hanchor r List.mem_cons_self z (hf ▸ List.mem_cons_of_mem _ hz)).symm⟩
          rw [List.filterMap_cons_some (by rw [hf]; rfl), List.foldl_cons, hnew, Option.getD_some,
            foldl_insert?_of_taken hothers, ih (table ++ [x]), List.append_assoc, List.singleton_append]
          intro s hs y hy
          rcases List.mem_append.mp hy with hy | hy
          · exact hfree s (List.mem_cons_of_mem _ hs) y hy
          · rw [List.mem_singleton.mp hy, hx]
            exact fun heq => hr (heq ▸ List.mem_map_of_mem hs)

theorem filter_head?_of_idle {acts : α → Bool} {xs : List α} (h : ∀ x ∈ xs, acts x = false) :
    xs.head?.filter acts = none := by
  cases xs with
  | nil => rfl
  | cons x xs => exact Option.filter_some_neg (h x List.mem_cons_self)

/-- Which of the items makes something first matters only if that acts.  So items can be left out, unless
that is the first one to make something and another one makes something that acts. -/
theorem filter_head?_filterMap {make : β → Option α} {acts : α → Bool} {drop : β → Bool} {items : List β}
    (hfirst : ∀ m ∈ (items.filter fun m => (make m).isSome).head?, drop m = true →
      ∀ m' ∈ items, ∀ x, make m' = some x → acts x = false) :
    ((items.filterMap fun m => if drop m then none else make m).head?).filter acts =
      ((items.filterMap make).head?).filter acts := by
  cases hmakes : items.filter fun m => (make m).isSome with
  | nil =>
      have hnone : ∀ m ∈ items, make m = none := fun m hm =>
        Option.not_isSome_iff_eq_none.mp (List.filter_eq_nil_iff.mp hmakes m hm)
      rw [List.filterMap_eq_nil_iff.mpr hnone, List.filterMap_eq_nil_iff.mpr fun m hm => by
        rw [hnone m hm, ite_self]]
  | cons m rest =>
      cases hdrop : drop m with
      | true =>
          have hidle := hfirst m (by rw [hmakes]; rfl) hdrop
          rw [filter_head?_of_idle, filter_head?_of_idle]
          · intro x hx
            obtain ⟨m', hm', hmake⟩ := List.mem_filterMap.mp hx
            exact hidle m' hm' x hmake
          · intro x hx
            obtain ⟨m', hm', hmake⟩ := List.mem_filterMap.mp hx
            split_ifs at hmake
            exact hidle m' hm' x hmake
      | false =>
          -- The items before make nothing, and the first one that does is kept.
          obtain ⟨before, after, rfl, hbefore, hm, -⟩ := List.filter_eq_cons_iff.mp hmakes
          obtain ⟨x, hx⟩ := Option.isSome_iff_exists.mp hm
          have hnone : ∀ b ∈ before, make b = none := fun b hb =>
            Option.not_isSome_iff_eq_none.mp (hbefore b hb)
          have hskip : ∀ b ∈ before, (if drop b then none else make b) = none := fun b hb => by
            rw [hnone b hb, ite_self]
          rw [List.filterMap_append, List.filterMap_append, List.filterMap_eq_nil_iff.mpr hnone,
            List.filterMap_eq_nil_iff.mpr hskip, List.nil_append, List.nil_append,
            List.filterMap_cons_some hx, List.filterMap_cons_some (by rw [hdrop, hx]; rfl)]
          rfl

end Tables

/-! ### Clearing codes -/

namespace Note

/-- Whether the note has loop codes. -/
def startsLoop (n : Note) : Bool := !n.loopCodes.isEmpty

/-- Whether the note has conditional codes. -/
def startsConditional (n : Note) : Bool := !n.branchCodes.isEmpty

/-- The note, with its loop codes or its conditional codes taken away. -/
def without (loops conditionals : Bool) (n : Note) : Note :=
  { n with
    loopCodes := if loops then [] else n.loopCodes
    branchCodes := if conditionals then [] else n.branchCodes }

end Note

namespace Chart

/-- The body of the loop that a note starts. -/
def loopBody? (c : Chart) (n : Note) : Option Body :=
  (c.rowIndex? n.row).bind fun i => bodyOf? (Body.findTimed c.rows i n.indent)

/-- The body of the conditional that a note starts. -/
def conditionalBody? (c : Chart) (n : Note) : Option Body :=
  (c.rowIndex? n.row).bind fun i => bodyOf? (Body.find c.rows i n.indent)

/-- The chart with each note changed; the rows stay as they are. -/
def mapNotes (c : Chart) (f : Nat → Note → Note) : Chart := { c with notes := c.notes.mapIdx f }

/-- The chart without the loop codes and the conditional codes that start something without a body. -/
def cleared (c : Chart) : Chart :=
  c.mapNotes fun _ n => n.without (c.loopBody? n).isNone (c.conditionalBody? n).isNone

/-- Whether note `i` is the first in its row with codes, while one with codes there has a body. -/
def shadows (c : Chart) (coded : Note → Bool) (body? : Note → Option Body) (i : Nat) (n : Note) : Bool :=
  let group := (c.notesAt n.row).filter fun m => coded m.2
  (group.head?.any fun m => m.1 == i) && group.any fun m => (body? m.2).isSome

/-- Whether the codes of note `i` can be taken away: there is no body, and no other note waits for its
place. -/
def sheds (c : Chart) (coded : Note → Bool) (body? : Note → Option Body) (i : Nat) (n : Note) : Bool :=
  (body? n).isNone && !c.shadows coded body? i n

/-- The chart without the codes that can be taken away. -/
def trimmed (c : Chart) : Chart :=
  c.mapNotes fun i n => n.without (c.sheds Note.startsLoop c.loopBody? i n)
    (c.sheds Note.startsConditional c.conditionalBody? i n)

theorem notesOf_mapNotes (c : Chart) (f : Nat → Note → Note) (r : Row) :
    (c.mapNotes f).notesOf r = (c.notesOf r).map fun m => (m.1, f m.1 m.2) := by
  unfold notesOf mapNotes
  rw [List.map_filterMap]
  refine List.filterMap_congr fun i _ => ?_
  rw [Array.getElem?_mapIdx, Option.map_map, Option.map_map]
  rfl

/-- The rows of a chart fall, hold their own notes, and are no deeper than these. -/
structure Ordered (c : Chart) : Prop where
  falling : c.Falling
  indented : c.Indented
  owned : ∀ r ∈ c.rows, ∀ m ∈ c.notesOf r, m.2.row = r.id

theorem ordered_ofParts (notes : Array Note) (declared : List (Int × Nat))
    (metadata : List (String × String)) (diagnostics : List Diagnostic) :
    (ofParts notes declared metadata diagnostics).Ordered where
  falling := falling_ofParts _ _ _ _
  indented := indented_ofParts _ _ _ _
  owned r hr m hm := by
    obtain ⟨i, hi, hm⟩ := List.mem_filterMap.mp hm
    obtain ⟨n, hn, hrow⟩ := ((arranged_ofParts notes declared metadata diagnostics).2.2.rows r hr).own i hi
    rw [hn] at hm
    obtain rfl := Option.some.inj hm
    exact hrow

theorem Ordered.mapNotes {c : Chart} (hc : c.Ordered) {f : Nat → Note → Note}
    (hf : ∀ i n, (f i n).row = n.row ∧ (f i n).indent = n.indent) : (c.mapNotes f).Ordered where
  falling := hc.falling
  indented r hr m hm := by
    rw [notesOf_mapNotes] at hm
    obtain ⟨own, hown, rfl⟩ := List.mem_map.mp hm
    exact (hf own.1 own.2).2 ▸ hc.indented r hr own hown
  owned r hr m hm := by
    rw [notesOf_mapNotes] at hm
    obtain ⟨own, hown, rfl⟩ := List.mem_map.mp hm
    exact (hf own.1 own.2).1 ▸ hc.owned r hr own hown

theorem Ordered.trimmed {c : Chart} (hc : c.Ordered) : c.trimmed.Ordered :=
  hc.mapNotes fun _ _ => ⟨rfl, rfl⟩

end Chart

/-! ### Reading constructs -/

namespace Traversal

/-- How constructs of one kind are read from a chart: `make` gives one for each note with codes of that kind,
with the body that belongs to the note. -/
structure Reads {α : Type} (c : Chart) (site : α → Construct) (make : Row × Nat × Note → Option α)
    (coded : Note → Bool) (body? : Note → Option Body) : Prop where
  coded : ∀ r i n, (make (r, i, n)).isSome = coded n
  anchor : ∀ r i n x, make (r, i, n) = some x → (site x).anchor = r.id
  body : ∀ r i n x, c.rows[i]? = some r → n.row = r.id → make (r, i, n) = some x →
    (site x).body = body? n

variable {c : Chart}

theorem rowIndex?_of_row (hc : c.Falling) {r : Row} {i : Nat} {n : Note} (hr : c.rows[i]? = some r)
    (hn : n.row = r.id) : c.rowIndex? n.row = some i :=
  hc.rowIndex?_eq_some_iff.mpr ⟨r, hr, hn.symm⟩

/-- Kinds of constructs that are made of the codes of a note and a body that is found for its indent. -/
theorem reads_of_codes {α γ : Type} {site : α → Construct} {make : Row × Nat × Note → Option α}
    (codes : Note → List γ) (fresh : Construct → List γ → α) (find : Nat → Nat → Option Body)
    (hc : c.Falling) (hsite : ∀ k cs, site (fresh k cs) = k)
    (hmake : ∀ r i n, make (r, i, n) = if (codes n).isEmpty then none
      else some (fresh ⟨r.id, i, n.indent, find i n.indent, none⟩ (codes n))) :
    Reads c site make (fun n => !(codes n).isEmpty)
      fun n => (c.rowIndex? n.row).bind fun i => find i n.indent where
  coded r i n := by
    rw [hmake]
    cases (codes n).isEmpty <;> rfl
  anchor r i n x hx := by
    rw [hmake] at hx
    split_ifs at hx
    rw [← Option.some.inj hx, hsite]
  body r i n x hr hn hx := by
    rw [hmake] at hx
    split_ifs at hx
    rw [← Option.some.inj hx, hsite, rowIndex?_of_row hc hr hn]
    rfl

theorem reads_loopOf? (hc : c.Falling) :
    Reads c Loop.toConstruct (loopOf? c) Note.startsLoop c.loopBody? :=
  reads_of_codes Note.loopCodes Loop.fresh (fun i indent => bodyOf? (Body.findTimed c.rows i indent)) hc
    (fun _ _ => rfl) fun _ _ _ => rfl

theorem reads_conditionalOf? (hc : c.Falling) :
    Reads c Conditional.toConstruct (conditionalOf? c) Note.startsConditional c.conditionalBody? :=
  reads_of_codes Note.branchCodes Conditional.fresh (fun i indent => bodyOf? (Body.find c.rows i indent)) hc
    (fun _ _ => rfl) fun _ _ _ => rfl

section Reads

variable {α : Type} {site : α → Construct} {make make' : Row × Nat × Note → Option α}
  {coded : Note → Bool} {body? : Note → Option Body}

/-- The table of the constructs of one kind has the first of each row. -/
theorem firstPerAnchor_rowNotes (hc : c.Falling)
    (hanchor : ∀ r i n x, make (r, i, n) = some x → (site x).anchor = r.id) :
    firstPerAnchor site ((rowNotes c).filterMap make) = c.rows.toList.zipIdx.filterMap fun r =>
      ((c.notesOf r.1).filterMap fun m => make (r.1, r.2, m.2)).head? := by
  have hnodup : (c.rows.toList.zipIdx.map fun r => r.1.id).Nodup := by
    have hids : (c.rows.toList.zipIdx.map fun r => r.1.id) = c.rows.toList.map Row.id := by
      conv_rhs => rw [← List.zipIdx_map_fst 0 c.rows.toList, List.map_map]
      rfl
    rw [hids, List.nodup_iff_pairwise_ne, List.pairwise_map]
    exact hc.imp fun hlt => (ne_of_lt hlt).symm
  have hentries : (rowNotes c).filterMap make = c.rows.toList.zipIdx.flatMap fun r =>
      (c.notesOf r.1).filterMap fun m => make (r.1, r.2, m.2) := by
    rw [rowNotes, List.filterMap_flatMap]
    simp only [List.filterMap_map, Function.comp_def]
  rw [hentries]
  refine firstPerAnchor_flatMap (fun r _ x hx => ?_) hnodup
  obtain ⟨m, -, hm⟩ := List.mem_filterMap.mp hx
  exact hanchor _ _ _ _ hm

/-- A row makes the same construct with a body when codes are taken away there. -/
theorem Reads.filter_head? (h : Reads c site make coded body?) (hc : c.Ordered) {r : Row} {i : Nat}
    (hr : c.rows[i]? = some r) :
    (((c.notesOf r).filterMap fun m =>
        if c.sheds coded body? m.1 m.2 then none else make (r, i, m.2)).head?).filter
          (fun x => (site x).acts) =
      (((c.notesOf r).filterMap fun m => make (r, i, m.2)).head?).filter fun x => (site x).acts := by
  have hrow : ∀ m ∈ c.notesOf r, m.2.row = r.id := hc.owned r (Array.mem_of_getElem? hr)
  refine filter_head?_filterMap fun m hm hsheds m' hm' x hx => ?_
  simp only [h.coded] at hm
  have hgroup : (c.notesAt m.2.row).filter (fun m => coded m.2) =
      (c.notesOf r).filter fun m => coded m.2 := by
    rw [hrow m (List.mem_filter.mp (List.mem_of_head? hm)).1, Chart.notesAt_eq (hc.falling.row?_eq hr)]
  -- The first note with codes is shed, so that no note of its row with codes has a body.
  rw [Chart.sheds, Bool.and_eq_true, Bool.not_eq_true', Chart.shadows, hgroup] at hsheds
  rw [hm, Option.any_some, beq_self_eq_true, Bool.true_and] at hsheds
  have hmem' : m' ∈ (c.notesOf r).filter fun m => coded m.2 :=
    List.mem_filter.mpr ⟨hm', by rw [← h.coded r i, hx]; rfl⟩
  have hbody := List.any_eq_false.mp hsheds.2 m' hmem'
  rw [Construct.acts, h.body r i m'.2 x hr (hrow m' hm') hx]
  exact Bool.eq_false_iff.mpr hbody

/-- Taking codes away leaves the constructs with a body. -/
theorem Reads.filter_mapNotes (h : Reads c site make coded body?) (hc : c.Ordered)
    {f : Nat → Note → Note} (hanchor : ∀ r i n x, make' (r, i, n) = some x → (site x).anchor = r.id)
    (hmake : ∀ r i (m : Nat × Note), make' (r, i, f m.1 m.2) =
      if c.sheds coded body? m.1 m.2 then none else make (r, i, m.2)) :
    (firstPerAnchor site ((rowNotes (c.mapNotes f)).filterMap make')).filter (fun x => (site x).acts) =
      (firstPerAnchor site ((rowNotes c).filterMap make)).filter fun x => (site x).acts := by
  rw [firstPerAnchor_rowNotes hc.falling h.anchor,
    firstPerAnchor_rowNotes (c := c.mapNotes f) hc.falling hanchor, List.filter_filterMap,
    List.filter_filterMap]
  refine List.filterMap_congr fun r hr => ?_
  have hrow : c.rows[r.2]? = some r.1 := by
    have := List.mem_zipIdx_iff_getElem?.mp hr
    rwa [Array.getElem?_toList] at this
  rw [Chart.notesOf_mapNotes, List.filterMap_map]
  simp only [Function.comp_def, hmake]
  exact h.filter_head? hc hrow

end Reads

/-! ### Traversals -/

/-- The traversal of loops and conditionals that look for their parents among the loops. -/
def assemble (rows : Array Int) (loops : List Loop) (conditionals : List Conditional) : Traversal where
  rows := rows
  loops := loops.map fun l => { l with parent := enclosing? loops l.index l.indent }
  conditionals := conditionals.map fun b => { b with parent := enclosing? loops b.index b.indent }

theorem ofChart_eq_assemble (c : Chart) :
    ofChart c = assemble (c.rows.map Row.id) (readLoops c) (readConditionals c) := rfl

/-- A parent has a body, so that it is found where the loops without one are left out. -/
theorem enclosing?_filter_acts (loops : List Loop) (i indent : Nat) :
    enclosing? (loops.filter fun l => l.acts) i indent =
      (enclosing? loops i indent).map (newPlace (fun l => l.acts) loops) := by
  have hthinned : loops.filter (fun l => l.acts) = thinned (fun l => l.acts) id loops := (List.map_id _).symm
  unfold enclosing?
  rw [hthinned, innermost?_thinned ⟨fun _ _ => rfl, fun _ _ => rfl, fun l _ htest =>
    Construct.acts_of_covers (Bool.and_eq_true _ _ ▸ htest).2⟩, Option.map_map, Option.map_map]
  rfl

/-- The constructs with a body find the same parents without the others. -/
theorem thin_assemble (rows : Array Int) (loops : List Loop) (conditionals : List Conditional) :
    (assemble rows loops conditionals).thin =
      assemble rows (loops.filter fun l => l.acts) (conditionals.filter fun b => b.acts) := by
  have hplace : (assemble rows loops conditionals).loopPlace = newPlace (fun l => l.acts) loops := by
    funext p
    exact newPlace_map _ _ _ _
  unfold thin
  rw [hplace]
  unfold assemble
  dsimp only
  congr 1
  · rw [thinned, List.filter_map, List.map_map]
    refine List.map_congr_left fun l _ => ?_
    rw [enclosing?_filter_acts]
    rfl
  · rw [thinned, List.filter_map, List.map_map]
    refine List.map_congr_left fun b _ => ?_
    rw [enclosing?_filter_acts]
    rfl

theorem sheltered_ofChart (c : Chart) : (ofChart c).layout.Sheltered := by
  intro k hk p hp
  rw [parent_of_mem_sites hk] at hp
  obtain ⟨⟨q, l⟩, hfound, rfl⟩ := Option.map_eq_some_iff.mp hp
  obtain ⟨hl, htest, -⟩ := innermost?_some hfound
  refine ⟨_, by rw [getElem?_loops_ofChart, hl]; rfl, ?_⟩
  exact Construct.acts_of_covers (k := l.toConstruct) (Bool.and_eq_true _ _ ▸ htest).2

theorem sound_ofChart (hc : c.Ordered) : (ofChart c).Sound :=
  ⟨laminar_ofChart hc.indented hc.falling, sheltered_ofChart c⟩

/-- A trimmed chart has the same constructs with a body. -/
theorem thin_trimmed (hc : c.Ordered) : (ofChart c.trimmed).thin = (ofChart c).thin := by
  have hfalling : c.trimmed.Falling := hc.trimmed.falling
  have hloops : (readLoops c.trimmed).filter (fun l => l.acts) = (readLoops c).filter fun l => l.acts := by
    refine (reads_loopOf? hc.falling).filter_mapNotes hc (reads_loopOf? hfalling).anchor fun r i m => ?_
    unfold loopOf? Note.without
    cases c.sheds Note.startsLoop c.loopBody? m.1 m.2 <;> rfl
  have hconditionals : (readConditionals c.trimmed).filter (fun b => b.acts) =
      (readConditionals c).filter fun b => b.acts := by
    refine (reads_conditionalOf? hc.falling).filter_mapNotes hc
      (reads_conditionalOf? hfalling).anchor fun r i m => ?_
    unfold conditionalOf? Note.without
    cases c.sheds Note.startsConditional c.conditionalBody? m.1 m.2 <;> rfl
  rw [ofChart_eq_assemble, ofChart_eq_assemble, thin_assemble, thin_assemble, hloops, hconditionals]
  rfl

/-- A trimmed chart is walked in the same way. -/
theorem tour_trimmed (hc : c.Ordered) (steps : Nat) :
    ((ofChart c.trimmed).tour steps).2 = ((ofChart c).tour steps).2 := by
  rw [← tour_thin (sound_ofChart hc), ← tour_thin (sound_ofChart hc.trimmed), thin_trimmed hc]

end Traversal

/-! ### Plans -/

namespace Planner

/-- The planner whose traversal has only the constructs that have a body. -/
def thin (p : Planner) : Planner := { p with traversal := p.traversal.thin }

theorem next_thin {c : Chart} {p : Planner} (h : p.traversal.Sound) :
    p.thin.next c = ((p.next c).1, (p.next c).2.thin) ∧ (p.next c).2.traversal.Sound := by
  have hnext : p.thin.nextRow = p.nextRow := rfl
  unfold next
  rw [hnext]
  cases p.nextRow.bind c.row? with
  | none => exact ⟨rfl, h⟩
  | some row =>
      have hplanned : p.thin.planned = p.planned := rfl
      have hvisit : p.thin.visit row = ((p.visit row).1, (p.visit row).2.thin) := by
        unfold visit
        rw [show p.thin.traversal = p.traversal.thin from rfl, Traversal.visit_thin h]
        rfl
      dsimp only
      rw [hplanned, hvisit]
      split_ifs
      · exact ⟨rfl, h⟩
      · exact ⟨rfl, h.visit row.id⟩

theorem coming_thin {c : Chart} {p : Planner} (h : p.traversal.Sound) (steps : Nat) :
    coming c steps p.thin = coming c steps p := by
  induction steps generalizing p with
  | zero => rfl
  | succ steps ih =>
      obtain ⟨hnext, hsound⟩ := next_thin (c := c) h
      unfold coming
      rw [hnext]
      rcases hp : p.next c with ⟨v, q⟩
      rw [hp] at hsound
      cases v with
      | none => rfl
      | some v => exact congrArg (v :: ·) (ih hsound)

/-- A trimmed chart is played at the same times. -/
theorem visits_trimmed {c : Chart} (hc : c.Ordered) (speed start : Float) :
    (Plan.ofChart c.trimmed speed start).visits = (Plan.ofChart c speed start).visits := by
  have hplanner : (ofChart c.trimmed speed start).thin = (ofChart c speed start).thin := by
    unfold ofChart thin
    dsimp only
    rw [Traversal.thin_trimmed hc]
    rfl
  have hthin := coming_thin (c := c) (p := ofChart c speed start) (Traversal.sound_ofChart hc)
  have hthin' := coming_thin (c := c) (p := ofChart c.trimmed speed start)
    (Traversal.sound_ofChart hc.trimmed)
  have hframes : c.trimmed.framed.rows = c.framed.rows := rfl
  apply Array.ext'
  rw [visits_ofChart, visits_ofChart, rest, rest, coming_congr hframes, ← hthin, ← hthin', hplanner]
  rfl

end Planner

/-! ### Charts -/

namespace Traversal

/-- Codes have no effect that start a loop without a body or a conditional without one, unless their note is
the first of its row with such codes and another one there has a body: taking all the others away, a chart is
walked in the same way, and the same visits are planned at the same times. -/
theorem trimmed_inert (notes : Array Note) (declared : List (Int × Nat))
    (metadata : List (String × String)) (diagnostics : List Diagnostic) :
    let c := Chart.ofParts notes declared metadata diagnostics
    (∀ steps, ((ofChart c.trimmed).tour steps).2 = ((ofChart c).tour steps).2) ∧
      ∀ speed start, (Plan.ofChart c.trimmed speed start).visits = (Plan.ofChart c speed start).visits := by
  intro c
  have hc : c.Ordered := Chart.ordered_ofParts notes declared metadata diagnostics
  exact ⟨tour_trimmed hc, Planner.visits_trimmed hc⟩

/-- Two notes of a row with loop codes: the first is written too deep for a body, the second has one. -/
def shadowedNotes : Array Note :=
  let plain : Note := ⟨-1, 0.0, .tap, 1.0, 0, 0.0, [], [], [], [], 0⟩
  #[{ plain with indent := 1, loopCodes := [2] },
    { plain with position := 1.0, loopCodes := [2] },
    { plain with row := -2, indent := 1 },
    { plain with row := -3 }]

theorem ofMembers_shadowedNotes :
    Row.ofMembers [] shadowedNotes.toList.zipIdx (-1) = ⟨-1, 0, 2.0, [0, 1]⟩ := by
  rw [Row.ofMembers,
    Row.members_of_pairwise (shadowedNotes.toList.zipIdx.take 2) rfl (by decide +kernel)]
  rfl

theorem ofParts_shadowedNotes :
    Chart.ofParts shadowedNotes [] [] [] =
      { notes := shadowedNotes
        rows := (⟨-1, 0, 2.0, [0, 1]⟩ ::
          [-2, -3].map (Row.ofMembers [] shadowedNotes.toList.zipIdx)).toArray
        metadata := []
        diagnostics := [] } := by
  rw [Chart.ofParts_eq [-1, -2, -3] (by decide +kernel) (by decide), List.map_cons,
    ofMembers_shadowedNotes]

/-- Without the codes of the first note the second starts a loop, which goes back. -/
theorem tours_shadowedNotes :
    let c := Chart.ofParts shadowedNotes [] [] []
    ((ofChart c).tour 4).2 =
        [⟨-1, some (-2), .next⟩, ⟨-2, some (-3), .next⟩, ⟨-3, none, .stop⟩] ∧
      ((ofChart c.cleared).tour 4).2 =
        [⟨-1, some (-2), .next⟩, ⟨-2, some (-2), .loopBack⟩, ⟨-2, some (-3), .next⟩,
          ⟨-3, none, .stop⟩] := by
  rw [ofParts_shadowedNotes]
  decide +kernel

/-- So not all codes can be taken away that start nothing with a body. -/
theorem cleared_not_inert :
    ¬ ∀ steps, ((ofChart (Chart.ofParts shadowedNotes [] [] []).cleared).tour steps).2 =
      ((ofChart (Chart.ofParts shadowedNotes [] [] [])).tour steps).2 := by
  intro hsame
  have htours := hsame 4
  rw [tours_shadowedNotes.1, tours_shadowedNotes.2] at htours
  exact absurd htours (by decide)

end Traversal

end RhythmChart
