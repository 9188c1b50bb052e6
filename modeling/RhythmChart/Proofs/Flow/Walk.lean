import RhythmChart.Proofs.Flow.Agreement
import RhythmChart.Proofs.Flow.Sites

/-! # Walking a chart plays it

The walk through a chart visits the rows that the interpreter plays.

A run of rows at one level is played by the interpreter, and then the loops around it are left.  So a
walk that starts at the first row of the run visits the rows that the interpreter plays, followed by
those that are visited when the run is left.

Main statements.

* `Traversal.Walks`: a walk visits some rows and ends;
* `Traversal.simulates`: a run of rows at one level is walked as it is played;
* `Traversal.walk_eq_playedRows`: so is a chart. -/

namespace RhythmChart

namespace Traversal

/-- The rows that a walk visits. -/
def visited (steps : Nat) (t : Traversal) (row : Int) : List Int :=
  (t.walk steps row).2.map Navigation.source

/-- The rows that a walk from the first row on visits. -/
def rowSequence (steps : Nat) (t : Traversal) : List Int :=
  match t.firstRow? with
  | some row => t.visited steps row
  | none => []

/-- A walk from `row` on visits these rows and ends. -/
def Walks (t : Traversal) (row : Int) (rows : List Int) : Prop :=
  ∃ enough, ∀ steps, enough ≤ steps → t.visited steps row = rows

/-- A traversal goes on with these rows from where it was led, or ends there. -/
def GoesOn (r : Traversal × Option Int) (rows : List Int) : Prop :=
  match r.2 with
  | some next => r.1.Walks next rows
  | none => rows = []

variable {L : Layout} {i j stop : Nat} {r : Reading} {t t' : Traversal} {row : Int} {rows : List Int}

theorem walks_of_leadsTo {d : Traversal × Option Int} (h : LeadsTo row (t.visit row) d)
    (hd : GoesOn d rows) : t.Walks row (row :: rows) := by
  obtain ⟨hstate, hsource, htarget⟩ := h
  unfold GoesOn at hd
  cases hnext : d.2 with
  | none =>
      rw [hnext] at hd htarget
      refine ⟨1, fun steps hsteps => ?_⟩
      obtain ⟨n, rfl⟩ := Nat.exists_eq_add_of_le' hsteps
      unfold visited walk
      dsimp only
      rw [htarget, hd]
      simp [hsource]
  | some next =>
      rw [hnext] at hd htarget
      obtain ⟨enough, henough⟩ := hd
      refine ⟨enough + 1, fun steps hsteps => ?_⟩
      obtain ⟨n, rfl⟩ := Nat.exists_eq_add_of_le' (Nat.le_trans (Nat.le_add_left 1 enough) hsteps)
      have hrest := henough n (Nat.le_of_succ_le_succ hsteps)
      unfold visited walk
      dsimp only
      rw [htarget, hstate]
      dsimp only
      rw [List.map_cons, hsource]
      exact congrArg (row :: ·) hrest

/-! ### Levels -/

/-- Walking from row `i` on visits the rows that are played up to `stop`, and what is visited when the
loops around them are left. -/
def Simulates (L : Layout) (i stop : Nat) : Prop :=
  ∀ (r : Reading) (t : Traversal), Agrees L i r t →
    ∃ t', Agrees L stop (L.play i stop r).2 t' ∧ Frame i stop t t' ∧
      ∀ (row : Int) (rows : List Int), L.rows[i]? = some row → GoesOn (t'.resume i (stop - 1)) rows →
        t.Walks row (L.ids (L.play i stop r).1 ++ rows)

/-- When the rows up to `j` are dealt with, the rest of the level is walked. -/
theorem exists_resume (hL : L.Nested) (hlevel : L.Level i stop) (hij : i < j) (hj : j ≤ stop)
    (hsize : stop ≤ L.rows.size) (hclear : L.Clear i j) (hrest : j < stop → Simulates L j stop)
    (h : Agrees L j r t) :
    ∃ t', Agrees L stop (L.play j stop r).2 t' ∧ Frame j stop t t' ∧
      ∀ rows, GoesOn (t'.resume i (stop - 1)) rows →
        GoesOn (t.resume i (j - 1)) (L.ids (L.play j stop r).1 ++ rows) := by
  rcases Nat.eq_or_lt_of_le hj with rfl | hlt
  · rw [L.play_of_le (Nat.le_refl _)]
    exact ⟨t, h, fun p l hl _ _ => hl, fun rows hrows => hrows⟩
  · obtain ⟨t', hagrees, hframe, hwalks⟩ := hrest hlt r t h
    refine ⟨t', hagrees, hframe, fun rows hrows => ?_⟩
    have hrow := Array.getElem?_eq_getElem (show j < L.rows.size by omega)
    have hresume : t.resume i (j - 1) = (t, L.rows[j]?) := by
      unfold resume
      rw [h.layout, Layout.leaving_eq_nil hlevel (show j - 1 + 1 < stop by omega)]
      dsimp only [closePasses]
      rw [h.rows, Nat.sub_add_cancel (by omega)]
    rw [hresume]
    change match L.rows[j]? with
      | some next => t.Walks next _
      | none => _
    rw [hrow]
    refine hwalks _ rows hrow ?_
    unfold resume at hrows ⊢
    rw [hagrees.layout] at hrows ⊢
    rw [hL.leaving_later hlevel (Nat.le_of_lt hij) hlt hclear]
    exact hrows

/-- What is left when the body of a running loop is dealt with: the loop begins again if it has passes
left, else its visit ends and the loops around it are left. -/
theorem resume_body (hL : L.Nested) (h : Agrees L j r t) {p : Nat} {l : Loop}
    (hl : t.loops[p]? = some l) (hvisit : l.visit = .running) {b : Body} (hb : l.body = some b) :
    t.resume b.first b.last =
      if l.repeats then (((t.modifyLoop p Loop.finishPass).nextPass p), L.rows[b.first]?)
      else (t.modifyLoop p Loop.finishPass).resume l.index b.last := by
  have hp := getElem?_layout_loops hl
  rw [h.layout] at hp
  have hleaving := hL.leaving_body hp hb
  have hlayout : (t.modifyLoop p Loop.finishPass).layout = L :=
    (t.layout_modifyLoop p Loop.site_finishPass Loop.codes_finishPass).trans h.layout
  unfold resume
  rw [h.layout, hleaving, hlayout, closePasses, hl]
  dsimp only
  rw [if_pos hvisit]
  cases hrepeats : l.repeats with
  | true =>
      rw [hb]
      dsimp only
      rw [if_pos rfl]
      have hrows := congrArg Layout.rows (((t.modifyLoop p Loop.finishPass).layout_nextPass p).trans
        hlayout)
      change ((t.modifyLoop p Loop.finishPass).nextPass p).rows = L.rows at hrows
      rw [hrows]
  | false => rfl

section Passes

variable {p : Nat} {l : Loop} {b : Body}

/-- The last pass of a running loop ends its visit. -/
theorem Agrees.lastPass (hL : L.Nested) (hP : L.Parented) (h : Agrees L j r t)
    (hl : t.loops[p]? = some l) (hindex : l.index < j) (hvisit : l.visit = .running)
    (hspent : l.repeats = false) :
    Agrees L j (r.finish l.index l.codes) (t.modifyLoop p Loop.finishPass) :=
  h.finish hL hP hl hindex Loop.site_finishPass Loop.codes_finishPass
    ⟨Loop.addCounts l.runs 1, Loop.finishPass_of_spent hspent⟩ (.inr hvisit)

/-- A running loop that has passes left begins the next one. -/
theorem Agrees.anotherPass (hL : L.Nested) (hP : L.Parented) (h : Agrees L b.after r t)
    (hl : t.loops[p]? = some l) (hb : l.body = some b) (hrepeats : l.repeats = true) :
    let u := (t.modifyLoop p Loop.finishPass).nextPass p
    Agrees L b.first (L.nextPass l.index r) u ∧ Frame l.index b.after t u ∧
      u.loops[p]? = some l.finishPass := by
  have hmem := List.mem_of_getElem? hl
  have hmem' : (l.toConstruct, l.codes) ∈ L.loops := h.layout ▸ mem_layout_loops hmem
  obtain ⟨hfirst, hord, -⟩ := hL.bodies _ (Layout.mem_sites_of_loop hmem') b hb
  dsimp only at hfirst
  have hfinish := Loop.finishPass_of_repeats hrepeats
  have hml : (t.modifyLoop p Loop.finishPass).loops[p]? = some l.finishPass := by
    rw [getElem?_modifyLoop, hl, Option.map_some, if_pos rfl]
  have hmb : l.finishPass.body = some b := by rw [Loop.site_finishPass, hb]
  have hagrees : Agrees L b.after r (t.modifyLoop p Loop.finishPass) := by
    refine h.modifyLoop hL hl Loop.site_finishPass Loop.codes_finishPass rfl
      (fun k _ => ⟨rfl, rfl⟩) (fun haround hbody => ?_) fun _ => ?_
    · rw [hfinish]
      exact h.nested l hmem hbody haround
    · rw [hfinish]
      exact ⟨rfl, rfl⟩
  have hnext := hagrees.nextPass hL hP hml
  rw [Loop.site_finishPass] at hnext
  have hframe := frame_nextPass hagrees hL hP hml hmb
  have hafter : l.index < b.after := by
    unfold Body.after
    omega
  refine ⟨hnext.earlier hL hmem' hb rfl, ?_, ?_⟩
  · exact (frame_modifyLoop hl _ (Nat.le_refl _) hafter).trans
      (hframe.widen (by omega) (Nat.le_refl _))
  · exact hframe p _ hml (by rw [hmb]; rfl) (.inl (by rw [Loop.site_finishPass]; omega))

end Passes

/-- The passes of a loop that has entered its body for the first of `n + 1` times. -/
theorem exists_passes (hL : L.Nested) (hP : L.Parented) {p : Nat} {b : Body} {codes : List Nat}
    (hbody : Simulates L b.first b.after) (n : Nat) {l : Loop} (h : Agrees L b.first r t)
    (hl : t.loops[p]? = some l) (hindex : l.index = i) (hcodes : l.codes = codes)
    (hb : l.body = some b) (hvisit : l.visit = .running) (hpasses : l.passesLeft = n) :
    ∃ t', Agrees L b.after ((Layout.repeated (fun r => L.play b.first b.after r) (L.nextPass i)
        (n + 1) r).2.finish i codes) t' ∧ Frame i b.after t t' ∧
      ∀ (row : Int) (rows : List Int), L.rows[b.first]? = some row →
        GoesOn (t'.resume i b.last) rows →
          t.Walks row (L.ids (Layout.repeated (fun r => L.play b.first b.after r) (L.nextPass i)
            (n + 1) r).1 ++ rows) := by
  subst hindex hcodes
  obtain ⟨hfirst, hord, -⟩ :=
    hL.bodies _ (h.layout ▸ mem_sites_of_loops (List.mem_of_getElem? hl)) b hb
  have hlast : b.after = b.last + 1 := rfl
  induction n generalizing r t l with
  | zero =>
      obtain ⟨t', hagrees, hframe, hwalks⟩ := hbody r t h
      have hl' : t'.loops[p]? = some l := hframe p l hl (by rw [hb]; rfl) (.inl (by omega))
      have hrepeats : l.repeats = false := by simp [Loop.repeats, hpasses]
      have hresume := resume_body hL hagrees hl' hvisit hb
      rw [hrepeats, if_neg Bool.false_ne_true] at hresume
      refine ⟨t'.modifyLoop p Loop.finishPass,
        hagrees.lastPass hL hP hl' (by omega) hvisit hrepeats, ?_, fun row rows hrow hrows => ?_⟩
      · exact (hframe.widen (by omega) (Nat.le_refl _)).trans
          (frame_modifyLoop hl' _ (by omega) (by omega))
      · exact hwalks row rows hrow (hresume ▸ hrows)
  | succ n ih =>
      obtain ⟨t', hagrees, hframe, hwalks⟩ := hbody r t h
      have hl' : t'.loops[p]? = some l := hframe p l hl (by rw [hb]; rfl) (.inl (by omega))
      have hrepeats : l.repeats = true := by simp [Loop.repeats, hpasses]
      have hresume := resume_body hL hagrees hl' hvisit hb
      rw [hrepeats, if_pos rfl] at hresume
      -- The loop after the pass, with one pass less.
      obtain ⟨hnext, hnextframe, hnextl⟩ := hagrees.anotherPass hL hP hl' hb hrepeats
      have hfinish := Loop.finishPass_of_repeats hrepeats
      obtain ⟨t'', hagrees'', hframe'', hwalks''⟩ :=
        ih hnext hnextl (by rw [Loop.site_finishPass, hb]) (by rw [hfinish]; exact hvisit)
          (by rw [hfinish, hpasses, Nat.add_sub_cancel]) (by rw [Loop.site_finishPass]; exact hfirst)
      rw [Loop.site_finishPass, Loop.codes_finishPass] at hagrees''
      rw [Loop.site_finishPass] at hframe'' hwalks''
      refine ⟨t'', hagrees'', ((hframe.widen (by omega) (Nat.le_refl _)).trans hnextframe).trans hframe'',
        fun row rows hrow hrows => ?_⟩
      have hrest := hwalks'' row rows hrow hrows
      have hgoes : ∀ more, ((t'.modifyLoop p Loop.finishPass).nextPass p).Walks row more →
          GoesOn (t'.resume b.first b.last) more := by
        intro more hmore
        rw [hresume, hrow]
        exact hmore
      have hwalk := hwalks row _ hrow (hgoes _ hrest)
      rw [Layout.repeated]
      dsimp only
      rw [Layout.ids_append, List.append_assoc]
      exact hwalk

/-! ### Rows -/

/-- The body of a construct at a row of a level ends in the level, before a row that is in no body from
there on. -/
theorem body_of_level (hL : L.Nested) (hlevel : L.Level i stop) (hlt : i < stop) {k : Construct}
    (hk : k ∈ L.sites) (hindex : k.index = i) {b : Body} (hb : k.body = some b) :
    i + 1 + b.size = b.after ∧ i < b.after ∧ b.after ≤ stop ∧ L.Clear i b.after := by
  subst hindex
  obtain ⟨hfirst, hord, -⟩ := hL.bodies k hk b hb
  refine ⟨?_, ?_, hlevel.inner k hk b hb (Nat.le_refl _) hlt, hL.clear_after hk hb⟩
  · unfold Body.size Body.after
    omega
  · unfold Body.after
    omega

/-- A conditional that is passed over is walked as a single row, with the row after its body next. -/
theorem exists_walk_passedOver (hL : L.Nested) (hlevel : L.Level i stop) (hlt : i < stop)
    (h : Agrees L i r t) (hrow : L.rows[i]? = some row) {size : Nat}
    (hover : L.passedOver? r i = some size) :
    ∃ b : Body, i + 1 + size = b.after ∧ i < b.after ∧ b.after ≤ stop ∧ L.Clear i b.after ∧
      Agrees L b.after (r.visit i) (t.arrive row) ∧ Frame i stop t (t.arrive row) ∧
        ∀ rows, GoesOn ((t.arrive row).resume i (b.after - 1)) rows → t.Walks row ([row] ++ rows) := by
  have harrive := h.arrive hL hrow
  obtain ⟨p, b, hskips, rfl⟩ := h.skipsAt hL hrow hover
  have hleads := depart_skipping (harrive.nestedLayout hL)
    (show (t.arrive row).rows[i]? = some row by rw [harrive.rows, hrow]) hskips
  obtain ⟨k, hk, hindex, hb⟩ := hskips.exists_site
  rw [harrive.layout] at hk
  obtain ⟨hafter, hlater, hin, hclear⟩ := body_of_level hL hlevel hlt hk hindex hb
  exact ⟨b, hafter, hlater, hin, hclear, harrive.later (Nat.le_of_lt hlater),
    frame_arrive h hL hrow hlt, fun rows hgoes => walks_of_leadsTo hleads hgoes⟩

/-- A row without a body is walked as a single row, with the next row next. -/
theorem walk_plain (hL : L.Nested) (h : Agrees L i r t) (hrow : L.rows[i]? = some row)
    (hover : L.passedOver? r i = none) (hloop : L.loop? i = none) :
    ∀ rows, GoesOn ((t.arrive row).resume i (i + 1 - 1)) rows → t.Walks row ([row] ++ rows) := by
  have harrive := h.arrive hL hrow
  have hleads := depart_plainly (harrive.nestedLayout hL)
    (show (t.arrive row).rows[i]? = some row by rw [harrive.rows, hrow]) (h.unskipped hL hrow hover)
    (harrive.layout.symm ▸ hloop)
  exact fun rows hgoes => walks_of_leadsTo hleads hgoes

/-- A loop at a row of a level is played as often as the interpreter plays it. -/
theorem exists_walk_loop (hL : L.Nested) (hP : L.Parented) (hlevel : L.Level i stop)
    (hlt : i < stop) (h : Agrees L i r t) (hrow : L.rows[i]? = some row)
    (hover : L.passedOver? r i = none) {size : Nat} {codes : List Nat}
    (hloop : L.loop? i = some (size, codes))
    (hinside : Simulates L (i + 1) (min (i + 1 + size) stop)) :
    let inside := Layout.repeated (fun r => L.play (i + 1) (min (i + 1 + size) stop) r) (L.nextPass i)
      (L.passes r i codes) (r.visit i)
    ∃ t', Agrees L (i + 1 + size) (inside.2.finish i codes) t' ∧ Frame i stop t t' ∧
      ∀ rows, GoesOn (t'.resume i (i + 1 + size - 1)) rows →
        t.Walks row ((row :: L.ids inside.1) ++ rows) := by
  obtain ⟨p, l, b, hl, hindex, hb, rfl, rfl⟩ := h.exists_loop hloop
  have hmem := List.mem_of_getElem? hl
  have hsite : l.toConstruct ∈ L.sites := h.layout ▸ mem_sites_of_loops hmem
  obtain ⟨hfirst, hord, hlast⟩ := hL.bodies _ hsite b hb
  obtain ⟨hafter, hlater, hin, -⟩ := body_of_level hL hlevel hlt hsite hindex hb
  rw [hindex] at hfirst
  rw [hafter, Nat.min_eq_left hin, ← hfirst] at hinside ⊢
  have harrive := h.arrive hL hrow
  have hframe := frame_arrive h hL hrow hlt
  have hunskipped := h.unskipped hL hrow hover
  have hnested := harrive.nestedLayout hL
  have hrows : (t.arrive row).rows[i]? = some row := by rw [harrive.rows, hrow]
  have hanchor : l.anchor = row := (anchor_eq_iff hL hrow hsite).mpr hindex
  have hl' : (t.arrive row).loops[p]? = some l.encounter := by
    simp only [Traversal.arrive, List.getElem?_map, hl, Option.map_some, if_pos hanchor]
  have hb' : l.encounter.body = some b := by rw [Loop.site_encounter, hb]
  have hindex' : l.encounter.index = i := by rw [Loop.site_encounter, hindex]
  obtain ⟨hblocks, hgranted⟩ := h.encountered hL hP hmem hindex (by rw [hb]; rfl)
  intro inside
  by_cases hzero : L.passes r i l.codes = 0
  · -- The body is skipped, and that is a visit of the loop.
    rw [hzero, decide_eq_true rfl] at hblocks
    have hleads := depart_skipping hnested hrows (.loop p _ hl' hindex' hb' hblocks hunskipped)
    have hfinish := (harrive.later (Nat.le_of_lt hlater)).finish hL hP hl' (by rw [hindex']; omega)
      Loop.site_finishVisit Loop.codes_finishVisit ⟨_, rfl⟩ l.visit_encounter
    rw [hindex', Loop.codes_encounter] at hfinish
    have hinside : inside = ([], r.visit i) := by
      change Layout.repeated _ _ (L.passes r i l.codes) _ = _
      rw [hzero]
      rfl
    rw [hinside]
    refine ⟨_, hfinish, hframe.trans (frame_modifyLoop hl' _ (by omega) (by omega)), ?_⟩
    exact fun rows hgoes => walks_of_leadsTo hleads hgoes
  · -- The body is played at least once.
    obtain ⟨n, hn⟩ := Nat.exists_eq_add_one_of_ne_zero hzero
    obtain ⟨hopen, hvisit, hpasses⟩ := hgranted hzero
    rw [decide_eq_false hzero] at hblocks
    have hleads := depart_entering hnested hrows hunskipped hl' hindex' hb' hblocks
    set q := (t.arrive row).modifyLoop p Loop.enterBody with hq
    have hql : q.loops[p]? = some l.encounter.enterBody := by
      rw [hq, getElem?_modifyLoop, hl', Option.map_some, if_pos rfl]
    have hqagrees : Agrees L b.first (r.visit i) q := by
      have hmem' := List.mem_of_getElem? hl'
      refine (harrive.later (show i ≤ b.first by omega)).modifyLoop hL hl' Loop.site_enterBody
        Loop.codes_enterBody rfl (fun k _ => ⟨rfl, rfl⟩) (fun haround hbody => ?_)
        fun _ => ⟨rfl, rfl⟩
      exact harrive.nested l.encounter hmem' hbody haround
    obtain ⟨t', hagrees, hframe', hwalks⟩ := exists_passes hL hP hinside n hqagrees hql hindex'
      (Loop.codes_encounter l) hb' hvisit (by
        change l.encounter.passesLeft - 1 = n
        rw [hpasses, hn, Nat.add_sub_cancel])
    rw [← hn] at hagrees hwalks
    refine ⟨t', hagrees, (hframe.trans (frame_modifyLoop hl' _ (by omega) (by omega))).trans
      (hframe'.widen (Nat.le_refl _) hin), fun rows hgoes => ?_⟩
    obtain ⟨next, hnext⟩ : ∃ next, L.rows[b.first]? = some next :=
      ⟨_, Array.getElem?_eq_getElem (show b.first < L.rows.size by omega)⟩
    have hwalk := hwalks next rows hnext hgoes
    refine walks_of_leadsTo hleads ?_
    rw [harrive.rows, hnext]
    exact hwalk

/-- A row that is walked as it is played, with the rest of its level after it. -/
theorem exists_walk_rest (hL : L.Nested) (hlevel : L.Level i stop) (hij : i < j) (hj : j ≤ stop)
    (hsize : stop ≤ L.rows.size) (hclear : L.Clear i j) (hrest : j < stop → Simulates L j stop)
    (hrow : L.rows[i]? = some row) {u : Traversal} (hagrees : Agrees L j r u) (hframe : Frame i stop t u)
    {ids : List Int} (hwalks : ∀ rows, GoesOn (u.resume i (j - 1)) rows → t.Walks row (ids ++ rows)) :
    ∃ t', Agrees L stop (L.play j stop r).2 t' ∧ Frame i stop t t' ∧
      ∀ (first : Int) (rows : List Int), L.rows[i]? = some first → GoesOn (t'.resume i (stop - 1)) rows →
        t.Walks first (ids ++ L.ids (L.play j stop r).1 ++ rows) := by
  obtain ⟨t', hagrees', hframe', hgoes⟩ :=
    exists_resume hL hlevel hij hj hsize hclear hrest hagrees
  refine ⟨t', hagrees', hframe.trans (hframe'.widen (Nat.le_of_lt hij) (Nat.le_refl _)),
    fun first rows hfirst hrows => ?_⟩
  obtain rfl := Option.some.inj (hrow.symm.trans hfirst)
  rw [List.append_assoc]
  exact hwalks _ (hgoes rows hrows)

/-- A run of rows at one level is walked as it is played. -/
theorem simulates (hL : L.Nested) (hP : L.Parented) (n : Nat) :
    ∀ i stop, stop - i ≤ n → i < stop → stop ≤ L.rows.size → L.Level i stop →
      Simulates L i stop := by
  induction n with
  | zero =>
      intro i stop hn hlt
      omega
  | succ n ih =>
      intro i stop hn hlt hsize hlevel r t h
      obtain ⟨row, hrow⟩ : ∃ row, L.rows[i]? = some row :=
        ⟨_, Array.getElem?_eq_getElem (show i < L.rows.size by omega)⟩
      have hrest : ∀ {j : Nat}, i < j → L.Clear i j → j < stop → Simulates L j stop :=
        fun hij hclear hj => ih _ stop (by omega) hj hsize
          (hL.level_later hlevel (Nat.le_of_lt hij) hj hclear)
      cases hover : L.passedOver? r i with
      | some size =>
          -- The conditional at the row skips its body.
          obtain ⟨b, hafter, hlater, hin, hclear, hagrees, hframe, hwalks⟩ :=
            exists_walk_passedOver hL hlevel hlt h hrow hover
          have hwalk := exists_walk_rest hL hlevel hlater hin hsize hclear (hrest hlater hclear) hrow
            hagrees hframe hwalks
          rw [L.play_passedOver hlt hover, hafter, L.ids_cons hrow]
          exact hwalk
      | none =>
          cases hloop : L.loop? i with
          | none =>
              -- The next row is played.
              have hclear := hL.clear_next hloop
              have hwalk := exists_walk_rest hL hlevel (Nat.lt_succ_self i) hlt hsize hclear
                (hrest (Nat.lt_succ_self i) hclear) hrow ((h.arrive hL hrow).later (Nat.le_succ i))
                (frame_arrive h hL hrow hlt) (walk_plain hL h hrow hover hloop)
              rw [L.play_plain hlt hover hloop, L.ids_cons hrow]
              exact hwalk
          | some found =>
              obtain ⟨size, codes⟩ := found
              obtain ⟨p, l, b, hl, hindex, hb, rfl, rfl⟩ := h.exists_loop hloop
              have hmem := h.layout ▸ mem_layout_loops (List.mem_of_getElem? hl)
              have hsite := Layout.mem_sites_of_loop hmem
              obtain ⟨hfirst, hord, -⟩ := hL.bodies _ hsite b hb
              obtain ⟨hafter, hlater, hin, hclear⟩ := body_of_level hL hlevel hlt hsite hindex hb
              have hbody := hL.level_body hmem hb
              rw [show (l.toConstruct, l.codes).1.index = i from hindex] at hfirst
              have hinside : Simulates L (i + 1) (min (i + 1 + b.size) stop) := by
                rw [hafter, Nat.min_eq_left hin, ← hfirst]
                unfold Body.after at hin hlater hbody ⊢
                exact ih b.first (b.last + 1) (by omega) (by omega) (by omega) hbody
              obtain ⟨q, hagrees, hframe, hwalks⟩ :=
                exists_walk_loop hL hP hlevel hlt h hrow hover hloop hinside
              rw [hafter] at hagrees hwalks
              have hwalk := exists_walk_rest hL hlevel hlater hin hsize hclear (hrest hlater hclear) hrow
                hagrees hframe hwalks
              rw [L.play_loop hlt hover hloop]
              dsimp only
              rw [hafter, L.ids_cons hrow, L.ids_append]
              exact hwalk

/-! ### Charts -/

theorem agrees_ofChart {c : Chart} (hc : c.Indented) :
    Agrees (ofChart c).layout 0 .start (ofChart c) where
  layout := rfl
  read _ hb _ := fresh_conditionals_ofChart hc hb
  nested l hl hbody _ := by
    obtain ⟨hpointer, hexhausted⟩ := fresh_loops_ofChart hc hl
    rw [← Option.not_isSome, hbody] at hexhausted
    exact ⟨hexhausted, fun _ => hpointer⟩
  fresh l hl hbody _ _ := by
    obtain ⟨hpointer, hexhausted⟩ := fresh_loops_ofChart hc hl
    rw [← Option.not_isSome, hbody] at hexhausted
    exact ⟨hexhausted, hpointer⟩

/-- The walk through a chart ends, and visits the rows that are played by its structure. -/
theorem rowSequence_eq_playedRows (notes : Array Note) (declared : List (Int × Nat))
    (metadata : List (String × String)) (diagnostics : List Diagnostic) :
    let c := Chart.ofParts notes declared metadata diagnostics
    let t := ofChart c
    c.Consecutive → t.SameIndent →
      ∃ enough, ∀ steps, enough ≤ steps → rowSequence steps t = t.layout.playedRows := by
  intro c t hrows hsame
  have hc : c.Indented := Chart.indented_ofParts notes declared metadata diagnostics
  have hL : t.layout.Nested := nested_ofChart hc hrows hsame
  rcases Nat.eq_zero_or_pos t.layout.rows.size with hempty | hsome
  · have hfirst : t.firstRow? = none := Array.getElem?_eq_none (Nat.le_of_eq hempty)
    refine ⟨0, fun steps _ => ?_⟩
    rw [rowSequence, hfirst, Layout.playedRows, hempty, Layout.play_of_le _ (Nat.le_refl _)]
    rfl
  · obtain ⟨t', hagrees, -, hwalks⟩ := simulates hL (parented_ofChart hL) t.layout.rows.size 0
      t.layout.rows.size (Nat.le_refl _) hsome (Nat.le_refl _) hL.level_all .start t
      (agrees_ofChart hc)
    have hrow := Array.getElem?_eq_getElem hsome
    have hend : GoesOn (t'.resume 0 (t.layout.rows.size - 1)) [] := by
      unfold resume
      rw [hagrees.layout, hL.leaving_zero, Nat.sub_add_cancel hsome]
      dsimp only [closePasses]
      rw [hagrees.rows, Array.getElem?_eq_none (Nat.le_refl _)]
      rfl
    obtain ⟨enough, henough⟩ := hwalks _ [] hrow hend
    refine ⟨enough, fun steps hsteps => ?_⟩
    have hfirst : t.firstRow? = some t.layout.rows[0] := hrow
    rw [rowSequence, hfirst, Layout.playedRows]
    exact (henough steps hsteps).trans (List.append_nil _)

/-- A loop of two passes around a loop that reads one code in each of them, and a row after it. -/
def nestedNotes : Array Note :=
  let plain : Note := ⟨-1, 0.0, .tap, 1.0, 0, 0.0, [], [], [], [], 0⟩
  #[{ plain with loopCodes := [2] },
    { plain with row := -2, indent := 1, loopCodes := [1, 2], branchCodes := [true, true] },
    { plain with row := -3, indent := 2 },
    { plain with row := -4 }]

theorem ofParts_nestedNotes :
    Chart.ofParts nestedNotes [] [] [] =
      { notes := nestedNotes
        rows := ([-1, -2, -3, -4].map (Row.ofMembers [] nestedNotes.toList.zipIdx)).toArray
        metadata := []
        diagnostics := [] } :=
  Chart.ofParts_eq _ (by decide +kernel) (by decide) [] []

/-- The inner loop plays its body once in the first pass and twice in the second. -/
theorem rowSequence_nestedNotes :
    let c := Chart.ofParts nestedNotes [] [] []
    c.Consecutive ∧ (ofChart c).SameIndent ∧
      ∃ enough, ∀ steps, enough ≤ steps →
        rowSequence steps (ofChart c) = [-1, -2, -3, -2, -3, -3, -4] := by
  have hrows : (Chart.ofParts nestedNotes [] [] []).Consecutive := by
    rw [ofParts_nestedNotes]
    decide +kernel
  have hsame : (ofChart (Chart.ofParts nestedNotes [] [] [])).SameIndent := by
    rw [ofParts_nestedNotes]
    decide +kernel
  have hplayed : (ofChart (Chart.ofParts nestedNotes [] [] [])).layout.playedRows =
      [-1, -2, -3, -2, -3, -3, -4] := by
    rw [ofParts_nestedNotes]
    decide +kernel
  obtain ⟨enough, henough⟩ := rowSequence_eq_playedRows nestedNotes [] [] [] hrows hsame
  exact ⟨hrows, hsame, enough, fun steps hsteps => (henough steps hsteps).trans hplayed⟩

end Traversal

end RhythmChart
