import RhythmChart.Proofs.Charts
import RhythmChart.Proofs.Flow.Nesting

/-! # The constructs of a chart

No two bodies of a chart cross.  Its layout is nested when its rows are numbered without a gap and the
constructs at one row are written with one indent.

Main statements.

* `Body.find_spec`: a body is a maximal run of deeper rows;
* `Chart.falling_ofParts`: the rows of a chart fall;
* `Traversal.laminar_ofChart`: no two bodies of a chart cross;
* `Traversal.nested_ofChart`: the bodies of a chart are nested;
* `Traversal.linked_ofChart`: the loops of a chart know the loops directly around them. -/

namespace RhythmChart

/-! ### Bodies -/

namespace Body

theorem reach_of_deeper {rows : Array Row} {indent i : Nat} {r : Row} (hr : rows[i + 1]? = some r)
    (hdeep : indent < r.indent) : reach rows indent i = reach rows indent (i + 1) := by
  rw [reach]
  split
  next r' hr' =>
    obtain rfl := Option.some.inj (hr.symm.trans hr')
    rw [if_pos hdeep]
  next hnone =>
    rw [hr] at hnone
    cases hnone

theorem reach_of_not_deeper {rows : Array Row} {indent i : Nat}
    (h : ∀ r, rows[i + 1]? = some r → r.indent ≤ indent) : reach rows indent i = i := by
  rw [reach]
  split
  next r hr => rw [if_neg (Nat.not_lt.mpr (h r hr))]
  next => rfl

/-- The rows up to where a body reaches are deeper, the next one is not. -/
theorem reach_spec (rows : Array Row) (indent i : Nat) (hi : i < rows.size) :
    i ≤ reach rows indent i ∧ reach rows indent i < rows.size ∧
      (∀ j, i < j → j ≤ reach rows indent i → ∃ r, rows[j]? = some r ∧ indent < r.indent) ∧
      ∀ r, rows[reach rows indent i + 1]? = some r → r.indent ≤ indent := by
  -- Where the run of deeper rows ends, nothing is left to show.
  have hends : ∀ i, i < rows.size → (∀ r, rows[i + 1]? = some r → r.indent ≤ indent) →
      i ≤ reach rows indent i ∧ reach rows indent i < rows.size ∧
        (∀ j, i < j → j ≤ reach rows indent i → ∃ r, rows[j]? = some r ∧ indent < r.indent) ∧
        ∀ r, rows[reach rows indent i + 1]? = some r → r.indent ≤ indent := by
    intro i hi h
    rw [reach_of_not_deeper h]
    exact ⟨Nat.le_refl _, hi, fun j hij hj => by omega, h⟩
  induction i using reach.induct rows indent with
  | case1 i r hr hdeep ih =>
      obtain ⟨hle, hlt, hrun, hend⟩ := ih (Array.getElem?_eq_some_iff.mp hr).1
      rw [reach_of_deeper hr hdeep]
      refine ⟨by omega, hlt, fun j hij hj => ?_, hend⟩
      rcases Nat.eq_or_lt_of_le (show i + 1 ≤ j from hij) with rfl | hlater
      · exact ⟨r, hr, hdeep⟩
      · exact hrun j hlater hj
  | case2 i r hr hdeep =>
      apply hends i hi
      intro r' hr'
      obtain rfl := Option.some.inj (hr.symm.trans hr')
      omega
  | case3 i hnone =>
      apply hends i hi
      intro r hr
      rw [hnone] at hr
      cases hr

/-- A body is the maximal run of deeper rows after its anchor. -/
theorem find_spec {rows : Array Row} {anchor indent : Nat} {b : Body}
    (h : find rows anchor indent = .ok b) :
    b.first = anchor + 1 ∧ b.first ≤ b.last ∧ b.last < rows.size ∧
      (∀ j, b.first ≤ j → j ≤ b.last → ∃ r, rows[j]? = some r ∧ indent < r.indent) ∧
      ∀ r, rows[b.last + 1]? = some r → r.indent ≤ indent := by
  unfold find at h
  split at h
  next => cases h
  next r hr =>
    split_ifs at h with hdeep
    obtain rfl := Except.ok.inj h
    obtain ⟨hle, hlt, hrun, hend⟩ :=
      reach_spec rows indent (anchor + 1) (Array.getElem?_eq_some_iff.mp hr).1
    refine ⟨rfl, hle, hlt, fun j hfirst hlast => ?_, hend⟩
    rcases Nat.eq_or_lt_of_le (show anchor + 1 ≤ j from hfirst) with rfl | hlater
    · exact ⟨r, hr, hdeep⟩
    · exact hrun j hlater hlast

theorem find_of_findTimed {rows : Array Row} {anchor indent : Nat} {b : Body}
    (h : bodyOf? (findTimed rows anchor indent) = some b) : find rows anchor indent = .ok b := by
  unfold findTimed at h
  cases hfind : find rows anchor indent with
  | error e =>
      rw [hfind] at h
      cases h
  | ok b' =>
      rw [hfind] at h
      dsimp only at h
      split_ifs at h with htime
      · rw [Option.some.inj h]
      · cases h

theorem find_of_bodyOf? {rows : Array Row} {anchor indent : Nat} {b : Body}
    (h : bodyOf? (find rows anchor indent) = some b) : find rows anchor indent = .ok b := by
  cases hfind : find rows anchor indent with
  | error e =>
      rw [hfind] at h
      cases h
  | ok b' =>
      rw [hfind] at h
      rw [Option.some.inj h]

end Body

/-! ### Charts -/

/-- The notes of a row that come by position already stay in their order. -/
theorem Row.members_of_pairwise {notes : List (Note × Nat)} {id : Int} (inRow : List (Note × Nat))
    (hrow : (notes.filter fun n => n.1.row == id) = inRow)
    (h : inRow.Pairwise fun a b => Number.totalLe a.1.position b.1.position = true) :
    members notes id = inRow := by
  rw [members, hrow, List.mergeSort_of_pairwise h]

namespace Chart

/-- The rows are numbered without a gap, in falling order. -/
def Consecutive (c : Chart) : Prop := c.rows.toList.IsChain fun a b => b.id = a.id - 1

instance (c : Chart) : Decidable c.Consecutive :=
  inferInstanceAs (Decidable (c.rows.toList.IsChain fun a b => b.id = a.id - 1))

/-- The rows are numbered in falling order. -/
def Falling (c : Chart) : Prop := c.rows.toList.Pairwise fun a b => b.id < a.id

/-- No note is written with a smaller indent than its row has. -/
def Indented (c : Chart) : Prop := ∀ r ∈ c.rows, ∀ n ∈ c.notesOf r, r.indent ≤ n.2.indent

/-- Ids that are in falling order already stay in it. -/
theorem fallingIds_of_pairwise {ids : List Int} (h : ids.eraseDups.Pairwise fun a b => b ≤ a) :
    fallingIds ids = ids.eraseDups :=
  List.mergeSort_of_pairwise (h.imp fun hle => decide_eq_true hle)

/-- A chart whose rows come in falling order. -/
theorem ofParts_eq {notes : Array Note} {declared : List (Int × Nat)} (ids : List Int)
    (hids : (declared.map Prod.fst ++ notes.toList.map Note.row).eraseDups = ids)
    (h : ids.Pairwise fun a b => b ≤ a) (metadata : List (String × String))
    (diagnostics : List Diagnostic) :
    ofParts notes declared metadata diagnostics =
      { notes, metadata, diagnostics
        rows := (ids.map (Row.ofMembers declared notes.toList.zipIdx)).toArray } := by
  unfold ofParts
  rw [fallingIds_of_pairwise (by rw [hids]; exact h), hids]

theorem Consecutive.id_eq {c : Chart} (h : c.Consecutive) {i : Nat} {a b : Row}
    (ha : c.rows[i]? = some a) (hb : c.rows[i + 1]? = some b) : b.id = a.id - 1 := by
  obtain ⟨hi, rfl⟩ := Array.getElem?_eq_some_iff.mp ha
  obtain ⟨hj, rfl⟩ := Array.getElem?_eq_some_iff.mp hb
  have := List.isChain_iff_getElem.mp h i (by simpa using hj)
  rwa [Array.getElem_toList, Array.getElem_toList] at this

theorem nodup_eraseDups (ids : List Int) : ids.eraseDups.Nodup := by
  match ids with
  | [] => exact List.nodup_nil
  | id :: ids =>
      rw [List.eraseDups_cons, List.nodup_cons]
      refine ⟨fun hmem => ?_, nodup_eraseDups _⟩
      have := (List.mem_filter.mp (List.mem_eraseDups.mp hmem)).2
      simp at this
termination_by ids.length
decreasing_by exact Nat.lt_succ_of_le (List.length_filter_le _ _)

theorem pairwise_fallingIds (ids : List Int) : (fallingIds ids).Pairwise fun a b => b < a := by
  have hle : (fallingIds ids).Pairwise fun a b => decide (b ≤ a) = true := by
    refine List.pairwise_mergeSort (fun a b d hab hbd => ?_) (fun a b => ?_) _
    · rw [decide_eq_true_iff] at hab hbd ⊢
      omega
    · rw [Bool.or_eq_true, decide_eq_true_iff, decide_eq_true_iff]
      exact Int.le_total b a
  have hne : (fallingIds ids).Nodup := (List.mergeSort_perm _ _).nodup_iff.mpr (nodup_eraseDups ids)
  refine hle.imp₂ (fun a b hab hdiff => ?_) hne
  exact lt_of_le_of_ne (of_decide_eq_true hab) hdiff.symm

theorem falling_ofParts (notes : Array Note) (declared : List (Int × Nat))
    (metadata : List (String × String)) (diagnostics : List Diagnostic) :
    (ofParts notes declared metadata diagnostics).Falling := by
  unfold Falling ofParts
  dsimp only
  rw [List.pairwise_map]
  exact pairwise_fallingIds _

theorem indented_ofParts (notes : Array Note) (declared : List (Int × Nat))
    (metadata : List (String × String)) (diagnostics : List Diagnostic) :
    (ofParts notes declared metadata diagnostics).Indented := by
  intro r hr n hn
  obtain ⟨id, -, rfl⟩ := List.mem_map.mp (List.mem_toArray.mp hr)
  rw [notesOf_ofMembers] at hn
  set members := Row.members notes.toList.zipIdx id with hmembers
  obtain ⟨m, hm, rfl⟩ := List.mem_map.mp hn
  have hindent : m.1.indent ∈ (members.map Prod.fst).map Note.indent :=
    List.mem_map_of_mem (List.mem_map_of_mem hm)
  change (Row.leastIndent? (members.map Prod.fst)).getD _ ≤ m.1.indent
  cases hmin : Row.leastIndent? (members.map Prod.fst) with
  | none =>
      rw [List.min?_eq_none_iff.mp hmin] at hindent
      cases hindent
  | some least => exact (List.min?_eq_some_iff.mp hmin).2 _ hindent

end Chart

namespace Traversal

/-- The constructs at one row are written with one indent. -/
def SameIndent (t : Traversal) : Prop :=
  ∀ l ∈ t.loops, ∀ b ∈ t.conditionals, l.anchor = b.anchor → l.indent = b.indent

instance (t : Traversal) : Decidable t.SameIndent :=
  inferInstanceAs (Decidable (∀ l ∈ t.loops, ∀ b ∈ t.conditionals,
    l.anchor = b.anchor → l.indent = b.indent))

/-- A construct as it is read from a chart. -/
structure Registered (c : Chart) (k : Construct) : Prop where
  row : ∃ r, c.rows[k.index]? = some r ∧ r.id = k.anchor ∧ r.indent ≤ k.indent
  body : ∀ b, k.body = some b → Body.find c.rows k.index k.indent = .ok b

theorem row_of_mem_rowNotes {c : Chart} (hc : c.Indented) {entry : Row × Nat × Note}
    (h : entry ∈ rowNotes c) :
    c.rows[entry.2.1]? = some entry.1 ∧ entry.1.indent ≤ entry.2.2.indent := by
  obtain ⟨r, hr, hmap⟩ := List.mem_flatMap.mp h
  obtain ⟨n, hn, rfl⟩ := List.mem_map.mp hmap
  have hrow : c.rows[r.2]? = some r.1 := by
    have := List.mem_zipIdx_iff_getElem?.mp hr
    rwa [Array.getElem?_toList] at this
  exact ⟨hrow, hc r.1 (Array.mem_of_getElem? hrow) n hn⟩

theorem registered_loopOf? {c : Chart} (hc : c.Indented) {entry : Row × Nat × Note}
    (h : entry ∈ rowNotes c) {l : Loop} (hl : loopOf? c entry = some l) :
    Registered c l.toConstruct ∧ ∃ codes, codes ≠ [] ∧ l = .fresh l.toConstruct codes := by
  obtain ⟨row, i, note⟩ := entry
  obtain ⟨hrow, hindent⟩ := row_of_mem_rowNotes hc h
  unfold loopOf? at hl
  dsimp only at hl
  split_ifs at hl with hcodes
  obtain rfl := Option.some.inj hl
  refine ⟨⟨⟨row, hrow, rfl, hindent⟩, fun b hb => Body.find_of_findTimed hb⟩,
    note.loopCodes, ?_, rfl⟩
  intro hnil
  exact hcodes (List.isEmpty_iff.mpr hnil)

theorem registered_conditionalOf? {c : Chart} (hc : c.Indented) {entry : Row × Nat × Note}
    (h : entry ∈ rowNotes c) {b : Conditional} (hb : conditionalOf? c entry = some b) :
    Registered c b.toConstruct ∧ ∃ codes, b = .fresh b.toConstruct codes := by
  obtain ⟨row, i, note⟩ := entry
  obtain ⟨hrow, hindent⟩ := row_of_mem_rowNotes hc h
  unfold conditionalOf? at hb
  dsimp only at hb
  split_ifs at hb with hcodes
  obtain rfl := Option.some.inj hb
  exact ⟨⟨⟨row, hrow, rfl, hindent⟩, fun b hb => Body.find_of_bodyOf? hb⟩,
    note.branchCodes, rfl⟩

/-- The loops of a chart before they know the loops around them. -/
def readLoops (c : Chart) : List Loop :=
  firstPerAnchor Loop.toConstruct ((rowNotes c).filterMap (loopOf? c))

/-- The conditionals of a chart before they know the loops around them. -/
def readConditionals (c : Chart) : List Conditional :=
  firstPerAnchor Conditional.toConstruct ((rowNotes c).filterMap (conditionalOf? c))

theorem loops_ofChart (c : Chart) : (ofChart c).loops =
    (readLoops c).map fun l => { l with parent := enclosing? (readLoops c) l.index l.indent } := rfl

theorem conditionals_ofChart (c : Chart) : (ofChart c).conditionals =
    (readConditionals c).map fun b =>
      { b with parent := enclosing? (readLoops c) b.index b.indent } := rfl

theorem registered_readLoops {c : Chart} (hc : c.Indented) {l : Loop} (h : l ∈ readLoops c) :
    Registered c l.toConstruct ∧ ∃ codes, codes ≠ [] ∧ l = .fresh l.toConstruct codes := by
  obtain ⟨entry, hentry, hl⟩ := List.mem_filterMap.mp (mem_of_mem_firstPerAnchor h)
  exact registered_loopOf? hc hentry hl

theorem registered_readConditionals {c : Chart} (hc : c.Indented) {b : Conditional}
    (h : b ∈ readConditionals c) :
    Registered c b.toConstruct ∧ ∃ codes, b = .fresh b.toConstruct codes := by
  obtain ⟨entry, hentry, hb⟩ := List.mem_filterMap.mp (mem_of_mem_firstPerAnchor h)
  exact registered_conditionalOf? hc hentry hb

theorem registered_sites {c : Chart} (hc : c.Indented) {k : Construct}
    (hk : k ∈ (ofChart c).layout.sites) : Registered c k := by
  rcases List.mem_append.mp hk with hk | hk
  · obtain ⟨e, he, rfl⟩ := List.mem_map.mp hk
    obtain ⟨l, hl, rfl⟩ := List.mem_map.mp he
    rw [loops_ofChart] at hl
    obtain ⟨l, hread, rfl⟩ := List.mem_map.mp hl
    obtain ⟨hrow, hbody⟩ := (registered_readLoops hc hread).1
    exact ⟨hrow, hbody⟩
  · obtain ⟨e, he, rfl⟩ := List.mem_map.mp hk
    obtain ⟨b, hb, rfl⟩ := List.mem_map.mp he
    rw [conditionals_ofChart] at hb
    obtain ⟨b, hread, rfl⟩ := List.mem_map.mp hb
    obtain ⟨hrow, hbody⟩ := (registered_readConditionals hc hread).1
    exact ⟨hrow, hbody⟩

/-- Bodies are nested, because rows in a body are deeper than the construct and no construct at a row is
less deep than the row. -/
theorem inside_of_registered {c : Chart} {k k' : Construct} (hk : Registered c k)
    (hk' : Registered c k') {b b' : Body} (hb : k.body = some b) (hb' : k'.body = some b')
    (hlt : k.index < k'.index) (hle : k'.index ≤ b.last) :
    k.indent < k'.indent ∧ b'.last ≤ b.last := by
  obtain ⟨hfirst, -, -, hrun, hend⟩ := Body.find_spec (hk.body b hb)
  obtain ⟨hfirst', hord', hsize', hrun', -⟩ := Body.find_spec (hk'.body b' hb')
  obtain ⟨r, hr, -, hindent⟩ := hk'.row
  obtain ⟨r', hr', hdeep⟩ := hrun k'.index (by omega) hle
  obtain rfl := Option.some.inj (hr.symm.trans hr')
  refine ⟨by omega, ?_⟩
  by_contra hpast
  obtain ⟨s, hs, hsdeep⟩ := hrun' (b.last + 1) (by omega) (by omega)
  have := hend s hs
  omega

theorem getElem?_rows_ofChart (c : Chart) (i : Nat) :
    (ofChart c).layout.rows[i]? = (c.rows[i]?).map Row.id := Array.getElem?_map

theorem anchors_ofChart {c : Chart} (hc : c.Indented) : ∀ k ∈ (ofChart c).layout.sites,
    (ofChart c).layout.rows[k.index]? = some k.anchor := by
  intro k hk
  obtain ⟨r, hr, hanchor, -⟩ := (registered_sites hc hk).row
  rw [getElem?_rows_ofChart, hr, Option.map_some, hanchor]

theorem nodup_loops_ofChart (c : Chart) :
    ((ofChart c).layout.loops.map fun k => k.1.anchor).Nodup := by
  have := anchors_firstPerAnchor Loop.toConstruct ((rowNotes c).filterMap (loopOf? c))
  simp only [layout, loops_ofChart, List.map_map]
  exact this

theorem nodup_conditionals_ofChart (c : Chart) :
    ((ofChart c).layout.conditionals.map fun k => k.1.anchor).Nodup := by
  have := anchors_firstPerAnchor Conditional.toConstruct ((rowNotes c).filterMap (conditionalOf? c))
  simp only [layout, conditionals_ofChart, List.map_map]
  exact this

theorem bodies_ofChart {c : Chart} (hc : c.Indented) {k : Construct}
    (hk : k ∈ (ofChart c).layout.sites) {b : Body} (hb : k.body = some b) :
    b.first = k.index + 1 ∧ b.first ≤ b.last ∧ b.last < (ofChart c).layout.rows.size := by
  obtain ⟨hfirst, hord, hsize, -⟩ := Body.find_spec ((registered_sites hc hk).body b hb)
  exact ⟨hfirst, hord, by simpa [layout, ofChart] using hsize⟩

/-- No two bodies of a chart cross. -/
theorem laminar_ofChart {c : Chart} (hc : c.Indented) (hrows : c.Falling) :
    (ofChart c).layout.Laminar where
  falling i j a b hlt ha hb := by
    rw [getElem?_rows_ofChart] at ha hb
    obtain ⟨r, hr, rfl⟩ := Option.map_eq_some_iff.mp ha
    obtain ⟨s, hs, rfl⟩ := Option.map_eq_some_iff.mp hb
    rw [← Array.getElem?_toList] at hr hs
    obtain ⟨hi, rfl⟩ := List.getElem?_eq_some_iff.mp hr
    obtain ⟨hj, rfl⟩ := List.getElem?_eq_some_iff.mp hs
    exact List.pairwise_iff_getElem.mp hrows i j hi hj hlt
  anchors := anchors_ofChart hc
  loops := nodup_loops_ofChart c
  conditionals := nodup_conditionals_ofChart c
  bodies _ hk _ hb := bodies_ofChart hc hk hb
  inside _ hk _ hb _ hk' _ hb' :=
    inside_of_registered (registered_sites hc hk) (registered_sites hc hk') hb hb'

/-- The bodies of a chart are nested. -/
theorem nested_ofChart {c : Chart} (hc : c.Indented) (hrows : c.Consecutive)
    (hsame : (ofChart c).SameIndent) : (ofChart c).layout.Nested := by
  have hregistered : ∀ k ∈ (ofChart c).layout.sites, Registered c k := fun k =>
    registered_sites hc
  have hanchors := anchors_ofChart hc
  have hloops := nodup_loops_ofChart c
  have hconditionals := nodup_conditionals_ofChart c
  have hindents : ∀ k ∈ (ofChart c).layout.sites, ∀ k' ∈ (ofChart c).layout.sites,
      k.index = k'.index → k.indent = k'.indent := by
    intro k hk k' hk' hindex
    have hanchor : k.anchor = k'.anchor := by
      have := hanchors k hk
      rw [hindex, hanchors k' hk'] at this
      exact (Option.some.inj this).symm
    have hcross : ∀ l ∈ (ofChart c).layout.loops, ∀ b ∈ (ofChart c).layout.conditionals,
        l.1.anchor = b.1.anchor → l.1.indent = b.1.indent := by
      intro e he e' he'
      obtain ⟨l, hl, rfl⟩ := List.mem_map.mp he
      obtain ⟨b, hb, rfl⟩ := List.mem_map.mp he'
      exact hsame l hl b hb
    rcases List.mem_append.mp hk with hk | hk <;> rcases List.mem_append.mp hk' with hk' | hk' <;>
      obtain ⟨e, he, rfl⟩ := List.mem_map.mp hk <;> obtain ⟨e', he', rfl⟩ := List.mem_map.mp hk'
    · rw [List.inj_on_of_nodup_map hloops he he' hanchor]
    · exact hcross e he e' he' hanchor
    · exact (hcross e' he' e he hanchor.symm).symm
    · rw [List.inj_on_of_nodup_map hconditionals he he' hanchor]
  refine
    { rows := fun i id hi => ?_
      anchors := hanchors
      loops := hloops
      conditionals := hconditionals
      bodies := fun k hk b hb => bodies_ofChart hc hk hb
      inside := fun k hk b hb k' hk' b' hb' =>
        inside_of_registered (hregistered k hk) (hregistered k' hk') hb hb'
      same := fun k hk b hb k' hk' b' hb' hindex => ?_ }
  · rw [getElem?_rows_ofChart] at hi
    obtain ⟨b, hb, rfl⟩ := Option.map_eq_some_iff.mp hi
    have hlt := (Array.getElem?_eq_some_iff.mp hb).1
    have ha := Array.getElem?_eq_getElem (show i < c.rows.size by omega)
    rw [getElem?_rows_ofChart, ha, Option.map_some, hrows.id_eq ha hb, Int.sub_add_cancel]
  · have hfind := (hregistered k hk).body b hb
    rw [hindex, hindents k hk k' hk' hindex, (hregistered k' hk').body b' hb'] at hfind
    exact (Except.ok.inj hfind).symm

theorem getElem?_loops_ofChart (c : Chart) (p : Nat) : (ofChart c).layout.loops[p]? =
    ((readLoops c)[p]?).map fun l =>
      ({ l.toConstruct with parent := enclosing? (readLoops c) l.index l.indent }, l.codes) := by
  simp only [layout, loops_ofChart, List.map_map, List.getElem?_map]
  rfl

/-- What is found around the anchor of a construct is the loop directly around it, if the construct is
deeper than all loops around it. -/
theorem enclosing?_eq_some_iff {c : Chart} (h : (ofChart c).layout.Laminar) {k : Construct}
    (hdeep : ∀ l ∈ (ofChart c).layout.loops, l.1.covers k.index = true → l.1.indent < k.indent)
    (p : Nat) :
    enclosing? (readLoops c) k.index k.indent = some p ↔
      ∃ outer, (ofChart c).layout.loops[p]? = some outer ∧
        (ofChart c).layout.DirectlyAround outer.1 k := by
  set test := fun l' : Loop => decide (l'.indent < k.indent) && l'.covers k.index with htest
  change ((innermost? Loop.toConstruct test (readLoops c)).map Prod.fst = some p) ↔ _
  -- The loops that hold the anchor are those that pass the test.
  have hpass : ∀ (p : Nat) (outer : Construct × List Nat), (ofChart c).layout.loops[p]? = some outer →
      outer.1.covers k.index = true → ∃ l', (readLoops c)[p]? = some l' ∧ test l' = true ∧
        l'.index = outer.1.index ∧ l'.indent = outer.1.indent := by
    intro p outer hp hcovers
    have hless := hdeep outer (List.mem_of_getElem? hp) hcovers
    rw [getElem?_loops_ofChart] at hp
    obtain ⟨l', hl', rfl⟩ := Option.map_eq_some_iff.mp hp
    exact ⟨l', hl', by rw [htest, Bool.and_eq_true]; exact ⟨decide_eq_true hless, hcovers⟩, rfl, rfl⟩
  constructor
  · intro hparent
    obtain ⟨⟨p', l'⟩, hinner, rfl⟩ := Option.map_eq_some_iff.mp hparent
    obtain ⟨hp, hl', hdeepest⟩ := innermost?_some hinner
    rw [htest, Bool.and_eq_true] at hl'
    have hout := getElem?_loops_ofChart c p'
    rw [hp, Option.map_some] at hout
    refine ⟨_, hout, hl'.2, fun other hother hcovers => ?_⟩
    obtain ⟨q', hq'⟩ := List.getElem?_of_mem hother
    obtain ⟨x, hx, hxtest, -, hindent⟩ := hpass q' other hq' hcovers
    have hinside := hdeepest x (List.mem_of_getElem? hx) hxtest
    rw [Construct.atOrInside_iff, hindent] at hinside
    have hos := Layout.mem_sites_of_loop (List.mem_of_getElem? hout)
    have hos' := Layout.mem_sites_of_loop hother
    rw [← Bool.not_eq_true, h.covers_iff hos]
    rintro ⟨b', hb', hlt, hle⟩
    obtain ⟨b'', hb'', -⟩ := (h.covers_iff hos').mp hcovers
    have hless := (h.inside _ hos b' hb' _ hos' b'' hb'' hlt hle).1
    dsimp only at hless
    omega
  · rintro ⟨outer, hp, hcovers, hnone⟩
    obtain ⟨x, hx, hxtest, -, hindent⟩ := hpass p outer hp hcovers
    cases hinner : innermost? Loop.toConstruct test (readLoops c) with
    | none =>
        have := innermost?_eq_none_iff.mp hinner x (List.mem_of_getElem? hx)
        rw [hxtest] at this
        cases this
    | some found =>
        obtain ⟨hp', hl', hdeepest⟩ := innermost?_some hinner
        rw [htest, Bool.and_eq_true] at hl'
        have hinside := hdeepest x (List.mem_of_getElem? hx) hxtest
        rw [Construct.atOrInside_iff, hindent] at hinside
        have hout := getElem?_loops_ofChart c found.1
        rw [hp', Option.map_some] at hout
        have hmem := List.mem_of_getElem? hout
        have hos := Layout.mem_sites_of_loop (List.mem_of_getElem? hp)
        have hos' := Layout.mem_sites_of_loop hmem
        refine congrArg some ?_
        rcases Nat.lt_trichotomy outer.1.index found.2.index with hlt | heq | hlt
        · have := (h.inside_of_covers hos hos' hcovers hl'.2 hlt).2
          rw [hnone _ hmem hl'.2] at this
          cases this
        · exact (h.loop_place_inj hp hout heq).symm
        · have hless := (h.inside_of_covers hos' hos hl'.2 hcovers hlt).1
          dsimp only at hless
          omega

/-- The loops of a chart know the loops directly around them. -/
theorem linked_ofChart {c : Chart} (h : (ofChart c).layout.Laminar) : (ofChart c).layout.Linked := by
  intro k hk hbody p
  obtain ⟨b, hb⟩ := Option.isSome_iff_exists.mp hbody
  have hdeep : ∀ l ∈ (ofChart c).layout.loops, l.1.covers k.1.index = true →
      l.1.indent < k.1.indent := by
    intro l hl hcovers
    have hls := Layout.mem_sites_of_loop hl
    obtain ⟨b', hb', hlt, hle⟩ := (h.covers_iff hls).mp hcovers
    exact (h.inside _ hls b' hb' _ (Layout.mem_sites_of_loop hk) b hb hlt hle).1
  rw [← enclosing?_eq_some_iff h hdeep]
  obtain ⟨q, hq⟩ := List.getElem?_of_mem hk
  rw [getElem?_loops_ofChart] at hq
  obtain ⟨l, -, rfl⟩ := Option.map_eq_some_iff.mp hq
  exact Iff.rfl

/-- Of the loops around a row of a nested layout the last one is directly around it. -/
theorem directlyAround_iff {L : Layout} (h : L.Nested) {outer : Construct × List Nat}
    (hout : outer ∈ L.loops) (inner : Construct) :
    L.DirectlyAround outer.1 inner ↔ L.around? inner.index = some outer.1.index := by
  have hos := Layout.mem_sites_of_loop hout
  rw [L.around?_eq_some_iff, h.isAround_iff]
  constructor
  · rintro ⟨hcovers, hnone⟩
    refine ⟨⟨outer, hout, rfl, hcovers⟩, fun j hj => ?_⟩
    obtain ⟨k, hk, rfl, hcovers'⟩ := h.isAround_iff.mp hj
    by_contra hlater
    have := (h.laminar.inside_of_covers hos (Layout.mem_sites_of_loop hk) hcovers hcovers'
      (Nat.lt_of_not_le hlater)).2
    rw [hnone k hk hcovers'] at this
    cases this
  · rintro ⟨⟨k, hk, hindex, hcovers⟩, hlast⟩
    obtain ⟨p, hp⟩ := List.getElem?_of_mem hk
    obtain ⟨q, hq⟩ := List.getElem?_of_mem hout
    obtain rfl := h.loop_place_inj hp hq hindex
    obtain rfl := Option.some.inj (hp.symm.trans hq)
    refine ⟨hcovers, fun k' hk' hcovers' => ?_⟩
    exact h.laminar.not_covers_of_le hos
      (hlast k'.1.index (h.isAround_iff.mpr ⟨k', hk', rfl, hcovers'⟩))

/-- The loops of a chart whose bodies are nested know the last loops around them. -/
theorem parented_ofChart {c : Chart} (h : (ofChart c).layout.Nested) :
    (ofChart c).layout.Parented := by
  intro k hk hbody p
  rw [linked_ofChart h.laminar k hk hbody p]
  refine exists_congr fun outer => and_congr_right fun hp => ?_
  exact directlyAround_iff h (List.mem_of_getElem? hp) k.1

/-- Before the first visit a loop points at its first code, and is exhausted only without a body. -/
theorem fresh_loops_ofChart {c : Chart} (hc : c.Indented) {l : Loop} (hl : l ∈ (ofChart c).loops) :
    l.pointer = 0 ∧ l.exhausted = l.body.isNone := by
  rw [loops_ofChart] at hl
  obtain ⟨l, hread, rfl⟩ := List.mem_map.mp hl
  obtain ⟨-, codes, hcodes, heq⟩ := registered_readLoops hc hread
  rw [heq]
  refine ⟨rfl, ?_⟩
  cases codes with
  | nil => exact absurd rfl hcodes
  | cons => simp [Loop.fresh]

/-- Before the first visit a conditional has read nothing. -/
theorem fresh_conditionals_ofChart {c : Chart} (hc : c.Indented) {b : Conditional}
    (hb : b ∈ (ofChart c).conditionals) : b.pointer = 0 := by
  rw [conditionals_ofChart] at hb
  obtain ⟨b, hread, rfl⟩ := List.mem_map.mp hb
  obtain ⟨-, codes, heq⟩ := registered_readConditionals hc hread
  rw [heq]
  rfl

end Traversal

end RhythmChart
