import RhythmChart.Proofs.Flow.Departure

/-! # Traversals and readings

A traversal agrees with the reading of an interpreter when their conditionals have read as many codes
and their loops point at the same codes.  A loop with no loop around it is visited once; of those that
are still to come nothing is used up.

Main statements.

* `Traversal.Agrees`: the agreement;
* `Traversal.Agrees.arrive`, `Traversal.Agrees.modifyLoop` and `Traversal.Agrees.nextPass`: what keeps
  it;
* `Traversal.Agrees.skipsAt`, `Traversal.Agrees.unskipped` and `Traversal.Agrees.encountered`: the
  constructs at a row decide as the interpreter does. -/

namespace RhythmChart

/-- Codes that are added with a cut have the sum that is cut. -/
theorem Loop.foldl_addCounts (codes : List Nat) (a : Nat) :
    codes.foldl addCounts (min a Number.maxCount) = min (a + codes.sum) Number.maxCount := by
  induction codes generalizing a with
  | nil => simp
  | cons code codes ih =>
      have hadd : addCounts (min a Number.maxCount) code = min (a + code) Number.maxCount := by
        unfold addCounts
        omega
      rw [List.foldl_cons, hadd, ih, List.sum_cons, Nat.add_assoc]

namespace Traversal

/-- The codes that are used up are those of the reading, and the loops from row `i` on that have no loop
around them are fresh. -/
structure Agrees (L : Layout) (i : Nat) (r : Reading) (t : Traversal) : Prop where
  layout : t.layout = L
  read : ∀ b ∈ t.conditionals, b.body.isSome → b.pointer = r.read b.index
  nested : ∀ l ∈ t.loops, l.body.isSome → (L.around? l.index).isSome →
    l.exhausted = r.exhausted l.index ∧ (l.exhausted = false → l.pointer = r.pointer l.index)
  fresh : ∀ l ∈ t.loops, l.body.isSome → L.around? l.index = none → i ≤ l.index →
    l.exhausted = false ∧ l.pointer = 0

/-- The loops outside the rows from `i` up to `stop` stay as they are. -/
def Frame (i stop : Nat) (t t' : Traversal) : Prop :=
  ∀ (p : Nat) (l : Loop), t.loops[p]? = some l → l.body.isSome → l.index < i ∨ stop ≤ l.index →
    t'.loops[p]? = some l

variable {L : Layout} {i j stop : Nat} {r : Reading} {t t' t'' : Traversal} {row : Int}

theorem Frame.trans (h : Frame i stop t t') (h' : Frame i stop t' t'') : Frame i stop t t'' :=
  fun p l hl hbody hout => h' p l (h p l hl hbody hout) hbody hout

theorem Frame.widen {stop' : Nat} (h : Frame j stop t t') (hi : i ≤ j) (hstop : stop ≤ stop') :
    Frame i stop' t t' :=
  fun p l hl hbody hout => h p l hl hbody (by omega)

theorem Agrees.later (h : Agrees L i r t) (hij : i ≤ j) : Agrees L j r t :=
  { h with fresh := fun l hl hbody haround hj => h.fresh l hl hbody haround (Nat.le_trans hij hj) }

/-- The loops in a body have a loop around them, so that none of them has to be fresh. -/
theorem Agrees.earlier (h : Agrees L j r t) (hL : L.Nested) {k : Construct × List Nat}
    (hk : k ∈ L.loops) {b : Body} (hb : k.1.body = some b) (hj : j = b.after) :
    Agrees L b.first r t := by
  refine { h with fresh := fun l hl hbody haround hfirst => ?_ }
  by_cases hin : l.index ≤ b.last
  · have hks := Layout.mem_sites_of_loop hk
    obtain ⟨heq, -, -⟩ := hL.bodies k.1 hks b hb
    have hcovers : k.1.covers l.index = true :=
      (hL.covers_iff hks).mpr ⟨b, hb, by omega, hin⟩
    have := (L.around?_eq_none_iff.mp haround) k.1.index
    rw [hL.isAround_iff.mpr ⟨k, hk, rfl, hcovers⟩] at this
    cases this
  · refine h.fresh l hl hbody haround ?_
    unfold Body.after at hj
    omega

theorem Agrees.nestedLayout (h : Agrees L i r t) (hL : L.Nested) : t.layout.Nested := h.layout ▸ hL

theorem Agrees.rows (h : Agrees L i r t) : t.rows = L.rows := congrArg Layout.rows h.layout

/-! ### Arriving -/

/-- The constructs anchored at a row are those at its place. -/
theorem anchor_eq_iff (hL : L.Nested) (hi : L.rows[i]? = some row) {k : Construct}
    (hk : k ∈ L.sites) : k.anchor = row ↔ k.index = i := by
  have hanchor := hL.anchors k hk
  constructor
  · rintro rfl
    exact hL.index_inj hanchor hi
  · rintro rfl
    exact Option.some.inj (hanchor.symm.trans hi)

theorem pointer_encounter (l : Loop) : l.encounter.pointer = l.pointer := by
  unfold Loop.encounter
  split_ifs <;> rfl

theorem exhausted_encounter (l : Loop) : l.encounter.exhausted = l.exhausted := by
  unfold Loop.encounter
  split_ifs <;> rfl

theorem Agrees.arrive (h : Agrees L i r t) (hL : L.Nested) (hi : L.rows[i]? = some row) :
    Agrees L i (r.visit i) (t.arrive row) := by
  refine ⟨(t.layout_arrive row).trans h.layout, fun b hb hbody => ?_, fun l hl hbody => ?_,
    fun l hl hbody => ?_⟩
  · obtain ⟨b, hmem, rfl⟩ := List.mem_map.mp hb
    have hiff := anchor_eq_iff hL hi (h.layout ▸ mem_sites_of_conditionals hmem)
    by_cases hanchor : b.anchor = row
    · have hindex : b.index = i := hiff.mp hanchor
      rw [if_pos hanchor] at hbody ⊢
      rw [Conditional.site_encounter] at hbody ⊢
      have hread := h.read b hmem hbody
      have hnone : b.body.isNone = false := by
        rw [← Option.not_isSome, hbody]
        rfl
      have hpointer : b.encounter.pointer = b.pointer + 1 := by
        rw [Conditional.encounter, hnone]
        rfl
      rw [hpointer, hread, hindex, Reading.read_visit_self]
    · have hindex : b.index ≠ i := fun hindex => hanchor (hiff.mpr hindex)
      rw [if_neg hanchor] at hbody ⊢
      rw [h.read b hmem hbody, Reading.read_visit_of_ne _ hindex]
  · obtain ⟨l, hmem, rfl⟩ := List.mem_map.mp hl
    intro haround
    have hold := h.nested l hmem
    split_ifs at hbody haround ⊢
    · rw [Loop.site_encounter] at hbody haround ⊢
      rw [pointer_encounter, exhausted_encounter]
      exact hold hbody haround
    · exact hold hbody haround
  · obtain ⟨l, hmem, rfl⟩ := List.mem_map.mp hl
    intro haround hle
    have hold := h.fresh l hmem
    split_ifs at hbody haround hle ⊢
    · rw [Loop.site_encounter] at hbody haround hle
      rw [pointer_encounter, exhausted_encounter]
      exact hold hbody haround hle
    · exact hold hbody haround hle

theorem frame_arrive (h : Agrees L i r t) (hL : L.Nested) (hi : L.rows[i]? = some row)
    (hlt : i < stop) : Frame i stop t (t.arrive row) := by
  intro p l hl hbody hout
  have hiff := anchor_eq_iff hL hi (h.layout ▸ mem_sites_of_loops (List.mem_of_getElem? hl))
  have hanchor : l.anchor ≠ row := by
    intro hanchor
    have := hiff.mp hanchor
    omega
  simp only [Traversal.arrive, List.getElem?_map, hl, Option.map_some, if_neg hanchor]

/-! ### Conditionals -/

/-- A conditional that the interpreter passes over skips its body. -/
theorem Agrees.skipsAt (h : Agrees L i r t) (hL : L.Nested) (hi : L.rows[i]? = some row) {size : Nat}
    (hover : L.passedOver? r i = some size) :
    ∃ (p : Nat) (b : Body), (t.arrive row).SkipsAt i b (.conditional p) ∧ size = b.size := by
  unfold Layout.passedOver? at hover
  obtain ⟨found, hfound, hcode⟩ := Option.bind_eq_some_iff.mp hover
  obtain ⟨k, hk, rfl, b, hb, rfl⟩ := Layout.mem_of_bodyAt?_eq_some hfound
  obtain ⟨p, hp⟩ := List.getElem?_of_mem hk
  rw [← h.layout] at hp
  simp only [Traversal.layout, List.getElem?_map] at hp
  obtain ⟨c, hc, rfl⟩ := Option.map_eq_some_iff.mp hp
  have hmem := List.mem_of_getElem? hc
  have hanchor : c.anchor = row :=
    (anchor_eq_iff hL hi (h.layout ▸ mem_sites_of_conditionals hmem)).mpr rfl
  have hread : c.pointer = r.read c.index := h.read c hmem (by rw [show c.body = some b from hb]; rfl)
  dsimp only at hcode
  split_ifs at hcode with hzero
  refine ⟨p, b, .conditional p c.encounter ?_ ?_ ?_ ?_, (Option.some.inj hcode).symm⟩
  · simp only [Traversal.arrive, List.getElem?_map, hc, Option.map_some, if_pos hanchor]
  · rw [Conditional.site_encounter]
  · rw [Conditional.site_encounter]
    exact hb
  · have hnone : c.body.isNone = false := by
      rw [show c.body = some b from hb]
      rfl
    rw [Conditional.encounter, hnone]
    change c.nextDecision = .skip
    rw [Conditional.nextDecision, hread, if_neg hzero]

/-- Where the interpreter passes over nothing, no conditional skips its body. -/
theorem Agrees.unskipped (h : Agrees L i r t) (hL : L.Nested) (hi : L.rows[i]? = some row)
    (hover : L.passedOver? r i = none) : (t.arrive row).Unskipped i := by
  intro c hc hindex hbody
  obtain ⟨c, hmem, rfl⟩ := List.mem_map.mp hc
  have hiff := anchor_eq_iff hL hi (h.layout ▸ mem_sites_of_conditionals hmem)
  have hsite : (if c.anchor = row then c.encounter else c).toConstruct = c.toConstruct := by
    split_ifs
    · exact Conditional.site_encounter c
    · rfl
  rw [hsite] at hindex hbody
  rw [if_pos (hiff.mpr hindex)]
  obtain ⟨b, hb⟩ := Option.isSome_iff_exists.mp hbody
  have hcond := hL.conditional?_eq_some (h.layout ▸ mem_layout_conditionals hmem) hb
  rw [show (c.toConstruct, c.codes).1.index = i from hindex] at hcond
  rw [Layout.passedOver?, hcond, Option.bind_some] at hover
  split_ifs at hover with hone
  have hnone : c.body.isNone = false := by
    rw [hb]
    rfl
  rw [Conditional.encounter, hnone]
  change c.nextDecision ≠ .skip
  rw [Conditional.nextDecision, h.read c hmem hbody, hindex, if_pos hone]
  exact Decision.noConfusion

/-! ### Loops -/

/-- The loop that the interpreter finds at a row. -/
theorem Agrees.exists_loop (h : Agrees L i r t) {size : Nat} {codes : List Nat}
    (hloop : L.loop? i = some (size, codes)) :
    ∃ (p : Nat) (l : Loop) (b : Body), t.loops[p]? = some l ∧ l.index = i ∧ l.body = some b ∧
      size = b.size ∧ l.codes = codes := by
  obtain ⟨k, hk, rfl, b, hb, heq⟩ := Layout.mem_of_bodyAt?_eq_some hloop
  obtain ⟨rfl, rfl⟩ := Prod.mk.inj heq
  obtain ⟨p, hp⟩ := List.getElem?_of_mem hk
  rw [← h.layout] at hp
  simp only [Traversal.layout, List.getElem?_map] at hp
  obtain ⟨l, hl, rfl⟩ := Option.map_eq_some_iff.mp hp
  exact ⟨p, l, b, hl, rfl, hb, rfl, rfl⟩

theorem isSome_parent_iff (hL : L.Nested) (hP : L.Parented) {k : Construct × List Nat}
    (hk : k ∈ L.loops) (hbody : k.1.body.isSome) :
    k.1.parent.isSome = (L.around? k.1.index).isSome := by
  rw [Bool.eq_iff_iff, Option.isSome_iff_exists, Option.isSome_iff_exists]
  constructor
  · rintro ⟨p, hp⟩
    obtain ⟨outer, -, haround⟩ := (hP k hk hbody p).mp hp
    exact ⟨_, haround⟩
  · rintro ⟨a, ha⟩
    obtain ⟨k', hk', hindex, -⟩ := hL.isAround_iff.mp ((L.around?_eq_some_iff a).mp ha).1
    obtain ⟨p, hp⟩ := List.getElem?_of_mem hk'
    exact ⟨p, (hP k hk hbody p).mpr ⟨k', hp, hindex ▸ ha⟩⟩

/-- The passes that a loop grants are those of the interpreter. -/
theorem Agrees.granted (h : Agrees L i r t) (hL : L.Nested) (hP : L.Parented) {l : Loop}
    (hl : l ∈ t.loops) (hindex : l.index = i) (hbody : l.body.isSome)
    (hopen : l.exhausted = false) : l.granted = L.passes r i l.codes := by
  have hparent := isSome_parent_iff hL hP (h.layout ▸ mem_layout_loops hl) hbody
  change l.parent.isSome = (L.around? l.index).isSome at hparent
  rw [hindex] at hparent
  unfold Loop.granted Layout.passes
  rw [hparent]
  cases haround : L.around? i with
  | none =>
      have hfresh := h.fresh l hl hbody (hindex ▸ haround) (Nat.le_of_eq hindex.symm)
      have hfold := Loop.foldl_addCounts l.codes 0
      rw [Nat.zero_min, Nat.zero_add] at hfold
      simp only [Option.isSome_none, Option.isNone_none, hfresh.2, List.drop_zero, if_true,
        Bool.false_eq_true, if_false]
      exact hfold
  | some a =>
      obtain ⟨hexhausted, hpointer⟩ := h.nested l hl hbody (by rw [hindex, haround]; rfl)
      rw [hindex] at hexhausted hpointer
      simp only [Option.isSome_some, Option.isNone_some, Bool.false_eq_true, if_false, if_true,
        ← hexhausted, hopen, Loop.currentCode?, hpointer hopen]

/-- An exhausted loop has no pass for the interpreter either. -/
theorem Agrees.passes_exhausted (h : Agrees L i r t) {l : Loop} (hl : l ∈ t.loops)
    (hindex : l.index = i) (hbody : l.body.isSome) (hout : l.exhausted = true) :
    L.passes r i l.codes = 0 := by
  unfold Layout.passes
  cases haround : L.around? i with
  | none =>
      have hfresh := h.fresh l hl hbody (hindex ▸ haround) (Nat.le_of_eq hindex.symm)
      rw [hout] at hfresh
      cases hfresh.1
  | some a =>
      obtain ⟨hexhausted, -⟩ := h.nested l hl hbody (by rw [hindex, haround]; rfl)
      rw [hindex, hout] at hexhausted
      simp only [Option.isNone_some, Bool.false_eq_true, if_false, ← hexhausted, if_true]

/-- A loop that is encountered plays its body exactly if the interpreter does, and then has that many
passes. -/
theorem Agrees.encountered (h : Agrees L i r t) (hL : L.Nested) (hP : L.Parented) {l : Loop}
    (hl : l ∈ t.loops) (hindex : l.index = i) (hbody : l.body.isSome) :
    l.encounter.blocksEntry = decide (L.passes r i l.codes = 0) ∧
      (L.passes r i l.codes ≠ 0 → l.encounter.exhausted = false ∧ l.encounter.visit = .running ∧
        l.encounter.passesLeft = L.passes r i l.codes) := by
  cases hout : l.exhausted with
  | true =>
      have hzero := h.passes_exhausted hl hindex hbody hout
      have hsame : l.encounter = l := by rw [Loop.encounter, if_pos hout]
      rw [hsame, hzero]
      exact ⟨by simp [Loop.blocksEntry, hout], fun hne => absurd rfl hne⟩
  | false =>
      have hgranted := h.granted hL hP hl hindex hbody hout
      have hencounter : l.encounter = { l with passesLeft := l.granted, visit := .running } := by
        rw [Loop.encounter, if_neg (by rw [hout]; exact Bool.false_ne_true)]
      rw [hencounter, ← hgranted]
      refine ⟨?_, fun _ => ⟨hout, rfl, rfl⟩⟩
      simp only [Loop.blocksEntry, hout, Bool.false_or, bne_self_eq_false]
      rfl

/-! ### Changing loops -/

theorem getElem?_modifyLoop (t : Traversal) (p : Nat) (f : Loop → Loop) (q : Nat) :
    (t.modifyLoop p f).loops[q]? = (t.loops[q]?).map (fun l => if p = q then f l else l) := by
  simp only [Traversal.modifyLoop, List.getElem?_modify]
  cases t.loops[q]? with
  | none => rfl
  | some l =>
      simp only [Option.map_some]
      split_ifs <;> rfl

/-- Changing the loop at row `i` as the reading changes there. -/
theorem Agrees.modifyLoop (h : Agrees L j r t) (hL : L.Nested) {p : Nat} {l : Loop}
    (hl : t.loops[p]? = some l) {f : Loop → Loop}
    (hsite : ∀ l, (f l).toConstruct = l.toConstruct) (hcodes : ∀ l, (f l).codes = l.codes)
    {r' : Reading} (hread : r'.read = r.read)
    (hothers : ∀ k, k ≠ l.index → r'.exhausted k = r.exhausted k ∧ r'.pointer k = r.pointer k)
    (hnested : (L.around? l.index).isSome → l.body.isSome →
      (f l).exhausted = r'.exhausted l.index ∧
        ((f l).exhausted = false → (f l).pointer = r'.pointer l.index))
    (hfresh : j ≤ l.index → (f l).exhausted = l.exhausted ∧ (f l).pointer = l.pointer) :
    Agrees L j r' (t.modifyLoop p f) := by
  have hother : ∀ (q : Nat) (x : Loop), t.loops[q]? = some x → p ≠ q → x.index ≠ l.index := by
    intro q x hx hpq hindex
    exact hpq ((h.nestedLayout hL).loop_place_inj (getElem?_layout_loops hl)
      (getElem?_layout_loops hx) hindex.symm)
  refine ⟨(t.layout_modifyLoop p hsite hcodes).trans h.layout, fun b hb hbody => ?_,
    fun x hx hbody => ?_, fun x hx hbody => ?_⟩
  · rw [hread]
    exact h.read b hb hbody
  · obtain ⟨q, hq⟩ := List.getElem?_of_mem hx
    rw [getElem?_modifyLoop] at hq
    obtain ⟨y, hy, rfl⟩ := Option.map_eq_some_iff.mp hq
    intro haround
    by_cases hpq : p = q
    · subst hpq
      obtain rfl := Option.some.inj (hy.symm.trans hl)
      rw [if_pos rfl] at hbody haround ⊢
      rw [hsite] at hbody haround ⊢
      exact hnested haround hbody
    · rw [if_neg hpq] at hbody haround ⊢
      obtain ⟨hexhausted, hpointer⟩ := hothers y.index (hother q y hy hpq)
      rw [hexhausted, hpointer]
      exact h.nested y (List.mem_of_getElem? hy) hbody haround
  · obtain ⟨q, hq⟩ := List.getElem?_of_mem hx
    rw [getElem?_modifyLoop] at hq
    obtain ⟨y, hy, rfl⟩ := Option.map_eq_some_iff.mp hq
    intro haround hle
    have hold := h.fresh y (List.mem_of_getElem? hy)
    by_cases hpq : p = q
    · subst hpq
      obtain rfl := Option.some.inj (hy.symm.trans hl)
      rw [if_pos rfl] at hbody haround hle ⊢
      rw [hsite] at hbody haround hle
      rw [(hfresh hle).1, (hfresh hle).2]
      exact hold hbody haround hle
    · rw [if_neg hpq] at hbody haround hle ⊢
      exact hold hbody haround hle

theorem frame_modifyLoop {p : Nat} {l : Loop} (hl : t.loops[p]? = some l) (f : Loop → Loop)
    (hi : i ≤ l.index) (hstop : l.index < stop) : Frame i stop t (t.modifyLoop p f) := by
  intro q x hx _ hout
  rw [getElem?_modifyLoop, hx, Option.map_some]
  have hpq : p ≠ q := by
    rintro rfl
    obtain rfl := Option.some.inj (hx.symm.trans hl)
    omega
  rw [if_neg hpq]

/-- What finishing a visit does to the codes of a loop that has a loop around it. -/
theorem finishVisit_running {l : Loop} (hvisit : l.visit = .running) (hparent : l.parent.isSome) :
    l.finishVisit.exhausted = (l.exhausted || decide (l.codes.length ≤ l.pointer + 1)) ∧
      (l.finishVisit.exhausted = false → l.finishVisit.pointer = l.pointer) := by
  have hnone : l.parent.isNone = false := by
    rw [← Option.not_isSome, hparent]
    rfl
  unfold Loop.finishVisit
  rw [if_pos hvisit, hnone, Bool.false_or]
  split_ifs with hlast
  · rw [decide_eq_true_iff] at hlast
    simp [hlast]
  · rw [decide_eq_true_iff] at hlast
    simp [hlast]

theorem finishVisit_exhausted {l : Loop} (h : l.exhausted = true) :
    l.finishVisit.exhausted = true := by
  unfold Loop.finishVisit
  split_ifs
  · rfl
  · exact h
  · exact h

/-- A loop at row `i` that ends its visit is on its last code exactly if it is so for the interpreter. -/
theorem Agrees.finish (h : Agrees L j r t) (hL : L.Nested) (hP : L.Parented) {p : Nat} {l : Loop}
    (hl : t.loops[p]? = some l) (hj : l.index < j) {f : Loop → Loop}
    (hsite : ∀ l, (f l).toConstruct = l.toConstruct) (hcodes : ∀ l, (f l).codes = l.codes)
    (hf : ∃ runs, f l = { l with runs := runs }.finishVisit)
    (hvisit : l.exhausted = true ∨ l.visit = .running) :
    Agrees L j (r.finish l.index l.codes) (t.modifyLoop p f) := by
  refine h.modifyLoop hL hl hsite hcodes (Reading.read_finish _ _ _) (fun k hk => ?_)
    (fun haround hbody => ?_) fun hle => by omega
  · rw [Reading.exhausted_finish_of_ne _ hk, Reading.pointer_finish]
    exact ⟨rfl, rfl⟩
  · obtain ⟨hexhausted, hpointer⟩ := h.nested l (List.mem_of_getElem? hl) hbody haround
    rw [Reading.exhausted_finish, Reading.pointer_finish, ← hexhausted]
    obtain ⟨runs, heq⟩ := hf
    rw [heq]
    set x : Loop := { l with runs := runs } with hx
    by_cases hout : l.exhausted = true
    · have hx' : x.finishVisit.exhausted = true := finishVisit_exhausted hout
      rw [hx', hout, Bool.true_or]
      exact ⟨rfl, fun hno => by cases hno⟩
    · have hparent := isSome_parent_iff hL hP (h.layout ▸ mem_layout_loops (List.mem_of_getElem? hl))
        hbody
      obtain ⟨hlast, hkeep⟩ := finishVisit_running (l := x) (hvisit.resolve_left hout)
        (hparent.trans haround)
      rw [← hpointer (Bool.not_eq_true _ ▸ hout)]
      exact ⟨hlast, hkeep⟩

/-- The loop at a place starts another pass, for the traversal and for the reading. -/
theorem Agrees.nextPass (h : Agrees L j r t) (hL : L.Nested) (hP : L.Parented) {p : Nat} {l : Loop}
    (hl : t.loops[p]? = some l) : Agrees L j (L.nextPass l.index r) (t.nextPass p) := by
  have hparent : ∀ x ∈ t.loops, x.body.isSome →
      (x.parent = some p ↔ L.around? x.index = some l.index) := by
    intro x hx hbody
    have hp := getElem?_layout_loops hl
    rw [h.layout] at hp
    refine (hP _ (h.layout ▸ mem_layout_loops hx) hbody p).trans ⟨?_, fun haround => ⟨_, hp, haround⟩⟩
    rintro ⟨outer, houter, haround⟩
    obtain rfl := Option.some.inj (houter.symm.trans hp)
    exact haround
  refine ⟨(t.layout_nextPass p).trans h.layout, fun b hb hbody => ?_, fun x hx hbody => ?_,
    fun x hx hbody => ?_⟩
  · obtain ⟨b, hmem, rfl⟩ := List.mem_map.mp hb
    have hread := h.read b hmem
    split_ifs at hbody ⊢
    · exact hread hbody
    · exact hread hbody
  · obtain ⟨y, hmem, rfl⟩ := List.mem_map.mp hx
    intro haround
    have hsite : (if y.parent = some p then y.advance else y).toConstruct = y.toConstruct := by
      split_ifs
      · exact Loop.site_advance y
      · rfl
    rw [hsite] at hbody haround ⊢
    obtain ⟨hexhausted, hpointer⟩ := h.nested y hmem hbody haround
    unfold Layout.nextPass
    dsimp only
    by_cases hdirect : L.around? y.index = some l.index
    · rw [if_pos ((hparent y hmem hbody).mpr hdirect), if_pos hdirect, decide_eq_true hdirect,
        Bool.true_and, ← hexhausted]
      obtain ⟨b, hb⟩ := Option.isSome_iff_exists.mp hbody
      rw [show L.loop? y.index = some (b.size, y.codes) from
        hL.loop?_eq_some (h.layout ▸ mem_layout_loops hmem) hb, Option.any_some]
      unfold Loop.advance
      by_cases hout : y.exhausted = true
      · rw [if_pos hout, hout, Bool.true_or]
        exact ⟨rfl, fun hno => by cases hno⟩
      · rw [if_neg hout]
        rw [Bool.not_eq_true] at hout
        rw [hout, Bool.false_or, ← hpointer hout]
        exact ⟨rfl, fun _ => rfl⟩
    · rw [if_neg fun hyes => hdirect ((hparent y hmem hbody).mp hyes), if_neg hdirect,
        decide_eq_false hdirect, Bool.false_and, Bool.or_false]
      exact ⟨hexhausted, hpointer⟩
  · obtain ⟨y, hmem, rfl⟩ := List.mem_map.mp hx
    intro haround hle
    by_cases hyes : y.parent = some p
    · rw [if_pos hyes, Loop.site_advance] at hbody haround
      rw [(hparent y hmem hbody).mp hyes] at haround
      cases haround
    · rw [if_neg hyes] at hbody haround hle ⊢
      exact h.fresh y hmem hbody haround hle

/-- The loops that start over are in the body of the loop that starts another pass. -/
theorem frame_nextPass (h : Agrees L j r t) (hL : L.Nested) (hP : L.Parented) {p : Nat} {l : Loop}
    (hl : t.loops[p]? = some l) {b : Body} (hb : l.body = some b) :
    Frame b.first b.after t (t.nextPass p) := by
  intro q x hx hbody hout
  have hmem := List.mem_of_getElem? hx
  have hyes : x.parent ≠ some p := by
    intro hyes
    obtain ⟨outer, houter, haround⟩ := (hP _ (h.layout ▸ mem_layout_loops hmem) hbody p).mp hyes
    have hp := getElem?_layout_loops hl
    rw [h.layout] at hp
    obtain rfl := Option.some.inj (houter.symm.trans hp)
    obtain ⟨k, hk, hindex, hcovers⟩ :=
      hL.isAround_iff.mp ((L.around?_eq_some_iff _).mp haround).1
    obtain ⟨q', hq'⟩ := List.getElem?_of_mem hk
    obtain rfl := hL.loop_place_inj hq' hp hindex
    obtain rfl := Option.some.inj (hq'.symm.trans hp)
    have hls := Layout.mem_sites_of_loop hk
    obtain ⟨b', hb', hlt, hle⟩ := (hL.covers_iff hls).mp hcovers
    obtain rfl := Option.some.inj (hb'.symm.trans hb)
    obtain ⟨hfirst, -, -⟩ := hL.bodies _ hls b' hb'
    unfold Body.after at hout
    dsimp only at hlt hle hfirst
    omega
  simp only [Traversal.nextPass, List.getElem?_map, hx, Option.map_some, if_neg hyes]

end Traversal

end RhythmChart
