import RhythmChart.Proofs.Flow.Tables

/-! # Nested bodies

Bodies are nested: a construct whose anchor lies in a body is deeper and has its own body inside that
one.

Main statements.

* `Layout.Laminar`: no two bodies cross;
* `Layout.Nested`: in addition the rows have no gap and the bodies at one row are the same;
* `Layout.Level`: a run of rows that no body of a loop around it leaves early;
* `Layout.Nested.leaving_body`: the loops that end with a body. -/

namespace RhythmChart

namespace Layout

/-- All constructs of a layout. -/
def sites (L : Layout) : List Construct := L.loops.map Prod.fst ++ L.conditionals.map Prod.fst

/-- A layout whose rows are numbered in falling order and whose bodies are nested. -/
structure Nested (L : Layout) : Prop where
  rows : ∀ (i : Nat) (id : Int), L.rows[i + 1]? = some id → L.rows[i]? = some (id + 1)
  anchors : ∀ k ∈ L.sites, L.rows[k.index]? = some k.anchor
  loops : (L.loops.map fun k => k.1.anchor).Nodup
  conditionals : (L.conditionals.map fun k => k.1.anchor).Nodup
  bodies : ∀ k ∈ L.sites, ∀ b, k.body = some b →
    b.first = k.index + 1 ∧ b.first ≤ b.last ∧ b.last < L.rows.size
  inside : ∀ k ∈ L.sites, ∀ b, k.body = some b → ∀ k' ∈ L.sites, ∀ b', k'.body = some b' →
    k.index < k'.index → k'.index ≤ b.last → k.indent < k'.indent ∧ b'.last ≤ b.last
  same : ∀ k ∈ L.sites, ∀ b, k.body = some b → ∀ k' ∈ L.sites, ∀ b', k'.body = some b' →
    k.index = k'.index → b = b'

/-- A layout whose rows are numbered in falling order and whose bodies do not cross.  Two bodies at one
row may end at different rows. -/
structure Laminar (L : Layout) : Prop where
  falling : ∀ (i j : Nat) (a b : Int), i < j → L.rows[i]? = some a → L.rows[j]? = some b → b < a
  anchors : ∀ k ∈ L.sites, L.rows[k.index]? = some k.anchor
  loops : (L.loops.map fun k => k.1.anchor).Nodup
  conditionals : (L.conditionals.map fun k => k.1.anchor).Nodup
  bodies : ∀ k ∈ L.sites, ∀ b, k.body = some b →
    b.first = k.index + 1 ∧ b.first ≤ b.last ∧ b.last < L.rows.size
  inside : ∀ k ∈ L.sites, ∀ b, k.body = some b → ∀ k' ∈ L.sites, ∀ b', k'.body = some b' →
    k.index < k'.index → k'.index ≤ b.last → k.indent < k'.indent ∧ b'.last ≤ b.last

/-- The loops with a body know the loop around them. -/
def Parented (L : Layout) : Prop :=
  ∀ k ∈ L.loops, k.1.body.isSome → ∀ p, k.1.parent = some p ↔
    ∃ outer, L.loops[p]? = some outer ∧ L.around? k.1.index = some outer.1.index

/-- The row of a construct lies in the body of another, and in that of no loop in between. -/
def DirectlyAround (L : Layout) (outer inner : Construct) : Prop :=
  outer.covers inner.index = true ∧
    ∀ k ∈ L.loops, k.1.covers inner.index = true → outer.covers k.1.index = false

/-- The loops with a body know the loop that is directly around them. -/
def Linked (L : Layout) : Prop :=
  ∀ k ∈ L.loops, k.1.body.isSome → ∀ p, k.1.parent = some p ↔
    ∃ outer, L.loops[p]? = some outer ∧ L.DirectlyAround outer.1 k.1

/-- The loops whose body ends at row `e` and holds row `i`, innermost first. -/
def leaving (L : Layout) (i e : Nat) : List Nat :=
  innermostFirst Prod.fst (fun k => k.1.covers i && k.1.endsAt e) L.loops

/-- The rows from `i` up to `stop` are at one level: the loops around row `i` end no earlier than they
do, and the bodies of the constructs there end no later. -/
structure Level (L : Layout) (i stop : Nat) : Prop where
  outer : ∀ k ∈ L.loops, ∀ b, k.1.body = some b → k.1.covers i = true → stop ≤ b.after
  inner : ∀ k ∈ L.sites, ∀ b, k.body = some b → i ≤ k.index → k.index < stop → b.after ≤ stop

/-- No body of a loop from row `i` on reaches row `j`. -/
def Clear (L : Layout) (i j : Nat) : Prop :=
  ∀ k ∈ L.loops, i ≤ k.1.index → k.1.covers j = false

variable {L : Layout} {i j e stop : Nat}

theorem mem_sites_of_loop {k : Construct × List Nat} (h : k ∈ L.loops) : k.1 ∈ L.sites :=
  List.mem_append_left _ (List.mem_map_of_mem h)

theorem mem_sites_of_conditional {k : Construct × List Bool} (h : k ∈ L.conditionals) :
    k.1 ∈ L.sites := List.mem_append_right _ (List.mem_map_of_mem h)

/-! ### Rows -/

theorem Nested.getElem?_add (h : L.Nested) {i d : Nat} {id : Int} (hi : L.rows[i + d]? = some id) :
    L.rows[i]? = some (id + d) := by
  induction d generalizing id with
  | zero => simpa using hi
  | succ d ih =>
      have := ih (h.rows (i + d) id hi)
      rw [this]
      congr 1
      push_cast
      omega

theorem Nested.laminar (h : L.Nested) : L.Laminar where
  falling i j a b hlt ha hb := by
    obtain ⟨d, rfl⟩ := Nat.exists_eq_add_of_lt hlt
    have := h.getElem?_add (i := i) (d := d + 1) hb
    rw [ha] at this
    have := Option.some.inj this
    omega
  anchors := h.anchors
  loops := h.loops
  conditionals := h.conditionals
  bodies := h.bodies
  inside := h.inside

/-- Rows are known by their ids. -/
theorem Laminar.index_inj (h : L.Laminar) {i j : Nat} {id : Int} (hi : L.rows[i]? = some id)
    (hj : L.rows[j]? = some id) : i = j := by
  rcases Nat.lt_trichotomy i j with hlt | heq | hlt
  · exact absurd (h.falling i j id id hlt hi hj) (lt_irrefl id)
  · exact heq
  · exact absurd (h.falling j i id id hlt hj hi) (lt_irrefl id)

theorem Nested.index_inj (h : L.Nested) {i j : Nat} {id : Int} (hi : L.rows[i]? = some id)
    (hj : L.rows[j]? = some id) : i = j := h.laminar.index_inj hi hj

/-! ### Bodies -/

theorem Laminar.covers_iff (h : L.Laminar) {k : Construct} (hk : k ∈ L.sites) :
    k.covers i = true ↔ ∃ b, k.body = some b ∧ k.index < i ∧ i ≤ b.last := by
  rw [Construct.covers_iff]
  constructor
  · rintro ⟨b, hb, hfirst, hlast⟩
    obtain ⟨heq, -, -⟩ := h.bodies k hk b hb
    exact ⟨b, hb, by omega, hlast⟩
  · rintro ⟨b, hb, hfirst, hlast⟩
    obtain ⟨heq, -, -⟩ := h.bodies k hk b hb
    exact ⟨b, hb, by omega, hlast⟩

/-- The rows that a given body holds. -/
theorem Laminar.covers_body_iff (h : L.Laminar) {k : Construct} (hk : k ∈ L.sites) {b : Body}
    (hb : k.body = some b) : k.covers i = true ↔ k.index < i ∧ i ≤ b.last := by
  rw [h.covers_iff hk]
  constructor
  · rintro ⟨b', hb', hin⟩
    obtain rfl := Option.some.inj (hb.symm.trans hb')
    exact hin
  · exact fun hin => ⟨b, hb, hin⟩

/-- A body holds no row up to that of its construct. -/
theorem Laminar.not_covers_of_le (h : L.Laminar) {k : Construct} (hk : k ∈ L.sites)
    (hle : i ≤ k.index) : k.covers i = false := by
  rw [← Bool.not_eq_true, h.covers_iff hk]
  rintro ⟨-, -, hlt, -⟩
  omega

/-- A body holds no row past it. -/
theorem Laminar.not_covers_of_past (h : L.Laminar) {k : Construct} (hk : k ∈ L.sites) {b : Body}
    (hb : k.body = some b) (hpast : b.last < i) : k.covers i = false := by
  rw [← Bool.not_eq_true, h.covers_body_iff hk hb]
  omega

/-- A body that holds a row but not one before it belongs to a construct in between. -/
theorem Laminar.index_of_covers (h : L.Laminar) {k : Construct} (hk : k ∈ L.sites) (hij : i < j)
    (hj : k.covers j = true) (hi : k.covers i = false) : i ≤ k.index := by
  obtain ⟨b, hb, hindex, hlast⟩ := (h.covers_iff hk).mp hj
  by_contra hlt
  rw [(h.covers_iff hk).mpr ⟨b, hb, by omega, by omega⟩] at hi
  cases hi

/-- Of two constructs whose bodies hold one row, that at the earlier row is around the other. -/
theorem Laminar.inside_of_covers (h : L.Laminar) {k k' : Construct} (hk : k ∈ L.sites)
    (hk' : k' ∈ L.sites) (hc : k.covers i = true) (hc' : k'.covers i = true)
    (hlt : k.index < k'.index) : k.indent < k'.indent ∧ k.covers k'.index = true := by
  obtain ⟨b, hb, -, hlast⟩ := (h.covers_iff hk).mp hc
  obtain ⟨b', hb', hlt', -⟩ := (h.covers_iff hk').mp hc'
  exact ⟨(h.inside k hk b hb k' hk' b' hb' hlt (by omega)).1,
    (h.covers_iff hk).mpr ⟨b, hb, hlt, by omega⟩⟩

/-- A construct inside the body of another holds no row that the other does not hold. -/
theorem Laminar.covers_of_inside (h : L.Laminar) {k k' : Construct} (hk : k ∈ L.sites)
    (hk' : k' ∈ L.sites) (hinside : k.covers k'.index = true) (hc' : k'.covers i = true) :
    k.covers i = true := by
  obtain ⟨b, hb, hlt, hle⟩ := (h.covers_iff hk).mp hinside
  obtain ⟨b', hb', hlt', hle'⟩ := (h.covers_iff hk').mp hc'
  have := (h.inside k hk b hb k' hk' b' hb' hlt hle).2
  exact (h.covers_iff hk).mpr ⟨b, hb, by omega, by omega⟩

theorem Nested.covers_iff (h : L.Nested) {k : Construct} (hk : k ∈ L.sites) :
    k.covers i = true ↔ ∃ b, k.body = some b ∧ k.index < i ∧ i ≤ b.last := h.laminar.covers_iff hk

theorem Nested.index_of_covers (h : L.Nested) {k : Construct} (hk : k ∈ L.sites) (hij : i < j)
    (hj : k.covers j = true) (hi : k.covers i = false) : i ≤ k.index :=
  h.laminar.index_of_covers hk hij hj hi

/-- No body of a construct from row `i` on reaches past a body there. -/
theorem Nested.covers_after (h : L.Nested) {k : Construct} (hk : k ∈ L.sites) {b : Body}
    (hb : k.body = some b) {k' : Construct} (hk' : k' ∈ L.sites) (hindex : k.index ≤ k'.index) :
    k'.covers b.after = false := by
  rw [← Bool.not_eq_true, h.covers_iff hk']
  rintro ⟨b', hb', hlt, hle⟩
  unfold Body.after at hlt hle
  rcases Nat.eq_or_lt_of_le hindex with heq | hless
  · obtain rfl := h.same k hk b hb k' hk' b' hb' heq
    omega
  · have := (h.inside k hk b hb k' hk' b' hb' hless (by omega)).2
    omega

/-- No two constructs of a table are at one row. -/
theorem Laminar.place_inj (h : L.Laminar) {α : Type} {table : List (Construct × α)}
    (htable : ∀ k ∈ table, k.1 ∈ L.sites) (hnodup : (table.map fun k => k.1.anchor).Nodup)
    {p q : Nat} {k k' : Construct × α} (hk : table[p]? = some k) (hk' : table[q]? = some k')
    (hindex : k.1.index = k'.1.index) : p = q := by
  have hanchor : k.1.anchor = k'.1.anchor := by
    have := h.anchors k.1 (htable k (List.mem_of_getElem? hk))
    rw [hindex, h.anchors k'.1 (htable k' (List.mem_of_getElem? hk'))] at this
    exact (Option.some.inj this).symm
  obtain ⟨hp, rfl⟩ := List.getElem?_eq_some_iff.mp hk
  obtain ⟨hq, rfl⟩ := List.getElem?_eq_some_iff.mp hk'
  have hp' : p < (table.map fun k => k.1.anchor).length := by simpa using hp
  have hq' : q < (table.map fun k => k.1.anchor).length := by simpa using hq
  have hsame : (table.map fun k => k.1.anchor)[p] = (table.map fun k => k.1.anchor)[q] := by
    simpa using hanchor
  exact hnodup.getElem_inj_iff.mp hsame

theorem Laminar.loop_place_inj (h : L.Laminar) {p q : Nat} {k k' : Construct × List Nat}
    (hk : L.loops[p]? = some k) (hk' : L.loops[q]? = some k')
    (hindex : k.1.index = k'.1.index) : p = q :=
  h.place_inj (fun _ => mem_sites_of_loop) h.loops hk hk' hindex

theorem Laminar.conditional_place_inj (h : L.Laminar) {p q : Nat} {k k' : Construct × List Bool}
    (hk : L.conditionals[p]? = some k) (hk' : L.conditionals[q]? = some k')
    (hindex : k.1.index = k'.1.index) : p = q :=
  h.place_inj (fun _ => mem_sites_of_conditional) h.conditionals hk hk' hindex

theorem Nested.place_inj (h : L.Nested) {α : Type} {table : List (Construct × α)}
    (htable : ∀ k ∈ table, k.1 ∈ L.sites) (hnodup : (table.map fun k => k.1.anchor).Nodup)
    {p q : Nat} {k k' : Construct × α} (hk : table[p]? = some k) (hk' : table[q]? = some k')
    (hindex : k.1.index = k'.1.index) : p = q := h.laminar.place_inj htable hnodup hk hk' hindex

theorem Nested.loop_place_inj (h : L.Nested) {p q : Nat} {k k' : Construct × List Nat}
    (hk : L.loops[p]? = some k) (hk' : L.loops[q]? = some k')
    (hindex : k.1.index = k'.1.index) : p = q := h.laminar.loop_place_inj hk hk' hindex

theorem Nested.conditional_place_inj (h : L.Nested) {p q : Nat} {k k' : Construct × List Bool}
    (hk : L.conditionals[p]? = some k) (hk' : L.conditionals[q]? = some k')
    (hindex : k.1.index = k'.1.index) : p = q := h.laminar.conditional_place_inj hk hk' hindex

/-- The construct with a body at a row, for the interpreter. -/
theorem Nested.bodyAt?_eq_some (h : L.Nested) {α : Type} {table : List (Construct × α)}
    (htable : ∀ k ∈ table, k.1 ∈ L.sites) (hnodup : (table.map fun k => k.1.anchor).Nodup)
    {k : Construct × α} {b : Body} (hk : k ∈ table) (hb : k.1.body = some b) :
    bodyAt? table k.1.index = some (b.size, k.2) := by
  have hfind : table.find? (fun k' => k'.1.index == k.1.index) = some k := by
    cases hfind : table.find? fun k' => k'.1.index == k.1.index with
    | none =>
        have := List.find?_eq_none.mp hfind k hk
        simp at this
    | some k' =>
        obtain ⟨p, hp⟩ := List.getElem?_of_mem hk
        obtain ⟨q, hq⟩ := List.getElem?_of_mem (List.mem_of_find?_eq_some hfind)
        obtain rfl := h.place_inj htable hnodup hq hp (by simpa using List.find?_some hfind)
        exact hq.symm.trans hp
  rw [bodyAt?, hfind, Option.bind_some, hb]
  rfl

theorem mem_of_bodyAt?_eq_some {α : Type} {sites : List (Construct × α)} {l : Nat × α}
    (h : bodyAt? sites i = some l) :
    ∃ k ∈ sites, k.1.index = i ∧ ∃ b, k.1.body = some b ∧ l = (b.size, k.2) := by
  unfold bodyAt? at h
  obtain ⟨k, hfind, hmap⟩ := Option.bind_eq_some_iff.mp h
  obtain ⟨b, hb, rfl⟩ := Option.map_eq_some_iff.mp hmap
  exact ⟨k, List.mem_of_find?_eq_some hfind, by simpa using List.find?_some hfind, b, hb, rfl⟩

theorem Nested.loop?_eq_some (h : L.Nested) {k : Construct × List Nat} {b : Body} (hk : k ∈ L.loops)
    (hb : k.1.body = some b) : L.loop? k.1.index = some (b.size, k.2) :=
  h.bodyAt?_eq_some (fun _ => mem_sites_of_loop) h.loops hk hb

theorem Nested.conditional?_eq_some (h : L.Nested) {k : Construct × List Bool} {b : Body}
    (hk : k ∈ L.conditionals) (hb : k.1.body = some b) :
    L.conditional? k.1.index = some (b.size, k.2) :=
  h.bodyAt?_eq_some (fun _ => mem_sites_of_conditional) h.conditionals hk hb

theorem Nested.isAround_iff (h : L.Nested) :
    L.isAround i j = true ↔ ∃ k ∈ L.loops, k.1.index = j ∧ k.1.covers i = true := by
  rw [Layout.isAround_iff]
  constructor
  · rintro ⟨l, hl, hlt, hle⟩
    obtain ⟨k, hk, rfl, b, hb, rfl⟩ := mem_of_bodyAt?_eq_some hl
    refine ⟨k, hk, rfl, (h.covers_iff (mem_sites_of_loop hk)).mpr ⟨b, hb, hlt, ?_⟩⟩
    obtain ⟨hfirst, hord, -⟩ := h.bodies k.1 (mem_sites_of_loop hk) b hb
    dsimp only [Body.size] at hle
    omega
  · rintro ⟨k, hk, rfl, hcovers⟩
    obtain ⟨b, hb, hlt, hle⟩ := (h.covers_iff (mem_sites_of_loop hk)).mp hcovers
    obtain ⟨hfirst, hord, -⟩ := h.bodies k.1 (mem_sites_of_loop hk) b hb
    refine ⟨_, h.loop?_eq_some hk hb, hlt, ?_⟩
    dsimp only [Body.size]
    omega

/-! ### Levels -/

theorem Nested.level_all (h : L.Nested) : L.Level 0 L.rows.size := by
  constructor
  · intro k hk b hb hcovers
    obtain ⟨b', -, hlt, -⟩ := (h.covers_iff (mem_sites_of_loop hk)).mp hcovers
    omega
  · intro k hk b hb _ _
    exact (h.bodies k hk b hb).2.2

/-- The body of a loop is at one level. -/
theorem Nested.level_body (h : L.Nested) {k : Construct × List Nat} (hk : k ∈ L.loops) {b : Body}
    (hb : k.1.body = some b) : L.Level b.first b.after := by
  have hks := mem_sites_of_loop hk
  obtain ⟨hfirst, -, -⟩ := h.bodies k.1 hks b hb
  constructor
  · intro k' hk' b' hb' hcovers
    have hks' := mem_sites_of_loop hk'
    obtain ⟨c, hc, hlt, hle⟩ := (h.covers_iff hks').mp hcovers
    obtain rfl := Option.some.inj (hb'.symm.trans hc)
    unfold Body.after
    rcases Nat.eq_or_lt_of_le (show k'.1.index ≤ k.1.index by omega) with heq | hless
    · obtain rfl := h.same _ hks' b' hb' _ hks b hb heq
      omega
    · have := (h.inside _ hks' b' hb' _ hks b hb hless (by omega)).2
      omega
  · intro k' hk' b' hb' hle hlt
    unfold Body.after at hlt ⊢
    have := (h.inside _ hks b hb _ hk' b' hb' (by omega) (by omega)).2
    omega

theorem Nested.clear_next (h : L.Nested) (hnone : L.loop? i = none) : L.Clear i (i + 1) := by
  intro k hk hindex
  rw [← Bool.not_eq_true, h.covers_iff (mem_sites_of_loop hk)]
  rintro ⟨b, hb, hlt, -⟩
  obtain rfl : k.1.index = i := by omega
  rw [h.loop?_eq_some hk hb] at hnone
  cases hnone

theorem Nested.clear_after (h : L.Nested) {k : Construct} (hk : k ∈ L.sites) {b : Body}
    (hb : k.body = some b) : L.Clear k.index b.after :=
  fun _ hk' hindex => h.covers_after hk hb (mem_sites_of_loop hk') hindex

/-- Rows of one level are in the bodies of the same loops. -/
theorem Nested.covers_eq (h : L.Nested) (hlevel : L.Level i stop) (hij : i ≤ j) (hj : j < stop)
    (hclear : L.Clear i j) {k : Construct × List Nat} (hk : k ∈ L.loops) :
    k.1.covers j = k.1.covers i := by
  have hks := mem_sites_of_loop hk
  rw [Bool.eq_iff_iff]
  constructor
  · intro hcovers
    by_contra hnot
    rw [Bool.not_eq_true] at hnot
    rcases Nat.eq_or_lt_of_le hij with rfl | hlt
    · rw [hcovers] at hnot
      cases hnot
    · rw [hclear k hk (h.index_of_covers hks hlt hcovers hnot)] at hcovers
      cases hcovers
  · intro hcovers
    obtain ⟨b, hb, hlt, hle⟩ := (h.covers_iff hks).mp hcovers
    have := hlevel.outer k hk b hb hcovers
    unfold Body.after at this
    exact (h.covers_iff hks).mpr ⟨b, hb, by omega, by omega⟩

theorem Nested.level_later (h : L.Nested) (hlevel : L.Level i stop) (hij : i ≤ j) (hj : j < stop)
    (hclear : L.Clear i j) : L.Level j stop where
  outer k hk b hb hcovers :=
    hlevel.outer k hk b hb ((h.covers_eq hlevel hij hj hclear hk).symm.trans hcovers)
  inner k hk b hb hle hlt := hlevel.inner k hk b hb (Nat.le_trans hij hle) hlt

/-! ### Loops that are left -/

theorem Nested.leaving_later (h : L.Nested) (hlevel : L.Level i stop) (hij : i ≤ j) (hj : j < stop)
    (hclear : L.Clear i j) : L.leaving j e = L.leaving i e :=
  innermostFirst_congr fun k hk => by rw [h.covers_eq hlevel hij hj hclear hk]

/-- Inside a level no loop is left. -/
theorem leaving_eq_nil (hlevel : L.Level i stop) (he : e + 1 < stop) : L.leaving i e = [] := by
  rw [List.eq_nil_iff_forall_not_mem]
  intro p hp
  obtain ⟨k, hk, htest⟩ := (mem_innermostFirst p).mp hp
  rw [Bool.and_eq_true] at htest
  obtain ⟨b, hb, rfl⟩ := (Construct.endsAt_iff _ _).mp htest.2
  have := hlevel.outer k (List.mem_of_getElem? hk) b hb htest.1
  unfold Body.after at this
  omega

theorem Nested.leaving_zero (h : L.Nested) : L.leaving 0 e = [] := by
  rw [List.eq_nil_iff_forall_not_mem]
  intro p hp
  obtain ⟨k, hk, htest⟩ := (mem_innermostFirst p).mp hp
  rw [Bool.and_eq_true] at htest
  obtain ⟨b, -, hlt, -⟩ :=
    (h.covers_iff (mem_sites_of_loop (List.mem_of_getElem? hk))).mp htest.1
  omega

/-- With the body of a loop, that loop is left first, and then those around it. -/
theorem Nested.leaving_body (h : L.Nested) {p : Nat} {k : Construct × List Nat}
    (hk : L.loops[p]? = some k) {b : Body} (hb : k.1.body = some b) :
    L.leaving b.first b.last = p :: L.leaving k.1.index b.last := by
  have hmem := List.mem_of_getElem? hk
  have hks := mem_sites_of_loop hmem
  obtain ⟨hfirst, hord, -⟩ := h.bodies k.1 hks b hb
  refine innermostFirst_cons hk ?_ (fun q k' hk' => ?_) (fun k' hk' htest => ?_) fun q q' x x' hx hx' =>
    h.loop_place_inj hx hx'
  · rw [← Bool.not_eq_true, Bool.and_eq_true, h.covers_iff hks]
    rintro ⟨⟨-, -, hlt, -⟩, -⟩
    omega
  · have hks' := mem_sites_of_loop (List.mem_of_getElem? hk')
    rw [Bool.and_eq_true, Bool.and_eq_true, h.covers_iff hks', h.covers_iff hks',
      Construct.endsAt_iff]
    constructor
    · rintro ⟨⟨b', hb', hlt, hle⟩, hend⟩
      rcases Nat.eq_or_lt_of_le (show k'.1.index ≤ k.1.index by omega) with heq | hless
      · exact .inl (h.loop_place_inj hk' hk heq)
      · exact .inr ⟨⟨b', hb', hless, by omega⟩, hend⟩
    · rintro (rfl | ⟨⟨b', hb', hlt, hle⟩, b'', hb'', hend⟩)
      · obtain rfl := Option.some.inj (hk'.symm.trans hk)
        exact ⟨⟨b, hb, by omega, hord⟩, b, hb, rfl⟩
      · obtain rfl := Option.some.inj (hb'.symm.trans hb'')
        exact ⟨⟨b', hb', by omega, by omega⟩, b', hb', hend⟩
  · rw [Bool.and_eq_true, h.covers_iff (mem_sites_of_loop hk')] at htest
    obtain ⟨⟨b', hb', hlt, hle⟩, -⟩ := htest
    exact (Construct.atOrInside_iff _ _).mpr
      (.inl (h.inside _ (mem_sites_of_loop hk') b' hb' _ hks b hb hlt hle).1)

end Layout

end RhythmChart
