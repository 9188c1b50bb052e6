import RhythmChart.Holds
import RhythmChart.Proofs.Tally
import RhythmChart.Proofs.Windows

/-! # What the holds do

Time, releases and presses of other keys all go over the tracked holds in order and let each go on, give
it its grade, or drop it.

Main statements.

* `Holds.Lawful`: such a change gives grades to engaged holds only;
* `Holds.sweep_induction`: induction over the holds that a lawful change goes through;
* `Holds.swept`: what a lawful change does to the holds and to the board;
* `Holds.mem_sweep`: what becomes of one hold;
* `Holds.start_cases`: what the start of a hold does. -/

namespace RhythmChart.Holds

/-! ### Lawful changes -/

theorem eq_idle {p : HoldPhase} (h : p.isEngaged = false) : p = .idle := by
  cases p with
  | idle => rfl
  | holding k g => cases h
  | guarded k g r => cases h

/-- The second hold is the first one, perhaps in another phase of being driven by its key. -/
structure Continues (h h' : Hold) : Prop where
  live : h'.live = h.live
  trigger : h'.trigger = h.trigger
  finish : h'.finish = h.finish
  key : h'.phase.key? = h.phase.key?

theorem Continues.refl (h : Hold) : Continues h h := ⟨rfl, rfl, rfl, rfl⟩

theorem Continues.engaged {h h' : Hold} (hc : Continues h h') :
    h'.phase.isEngaged = h.phase.isEngaged := congrArg Option.isSome hc.key

/-- What may become of a hold: only an engaged one gets a grade, and only another one is dropped. -/
inductive Allowed (h : Hold) : HoldFate → Prop where
  | goOn (h' : Hold) (hc : Continues h h') : Allowed h (.goOn h')
  | grade (g : Grade) (time : Float) (he : h.phase.isEngaged = true) (hg : g ≠ .tooFast) :
      Allowed h (.grade g time)
  | drop (he : h.phase.isEngaged = false) : Allowed h .drop

/-- A change that does to each hold what is allowed. -/
def Lawful (fate : Board → Hold → HoldFate) : Prop := ∀ b h, Allowed h (fate b h)

section Lawful

variable {fate : Board → Hold → HoldFate} {b : Board} {h : Hold}

theorem Lawful.continues (hf : Lawful fate) {h' : Hold} (hfate : fate b h = .goOn h') :
    Continues h h' := by
  have hallowed := hf b h
  rw [hfate] at hallowed
  cases hallowed with
  | goOn _ hc => exact hc

theorem Lawful.engaged (hf : Lawful fate) {g : Grade} {time : Float} (hfate : fate b h = .grade g time) :
    h.phase.isEngaged = true ∧ g ≠ .tooFast := by
  have hallowed := hf b h
  rw [hfate] at hallowed
  cases hallowed with
  | grade _ _ he hg => exact ⟨he, hg⟩

theorem Lawful.idle (hf : Lawful fate) (hfate : fate b h = .drop) : h.phase.isEngaged = false := by
  have hallowed := hf b h
  rw [hfate] at hallowed
  cases hallowed with
  | drop he => exact he

end Lawful

theorem lawful_timeFate (w : Windows) (now : Float) : Lawful (timeFate w now) := by
  intro b h
  unfold timeFate
  cases hp : h.phase with
  | idle =>
      dsimp only
      split_ifs
      · exact .drop (by rw [hp]; rfl)
      · exact .goOn h (.refl h)
  | holding k g =>
      dsimp only
      split_ifs
      · exact .grade _ _ (by rw [hp]; rfl) (by decide)
      · exact .goOn h (.refl h)
  | guarded k g released =>
      dsimp only
      split_ifs
      · exact .grade _ _ (by rw [hp]; rfl) (by decide)
      · exact .grade _ _ (by rw [hp]; rfl) (by decide)
      · exact .goOn h (.refl h)

theorem lawful_crossFate (key : Key) (time : Float) : Lawful (crossFate key time) := by
  intro b h
  unfold crossFate
  cases hp : h.phase with
  | idle => exact .goOn h (.refl h)
  | holding k g => exact .goOn h (.refl h)
  | guarded k g released =>
      dsimp only
      split_ifs
      · exact .goOn h (.refl h)
      · exact .grade _ _ (by rw [hp]; rfl) (by decide)

theorem lawful_releaseFate (w : Windows) (key : Key) (time : Float) :
    Lawful (releaseFate w key time) := by
  intro b h
  unfold releaseFate
  cases hp : h.phase with
  | idle => exact .goOn h (.refl h)
  | guarded k g released => exact .goOn h (.refl h)
  | holding k g =>
      dsimp only
      split_ifs
      · exact .grade _ _ (by rw [hp]; rfl) (by decide)
      · exact .goOn _ ⟨rfl, rfl, rfl, by rw [hp]; rfl⟩
      · exact .goOn h (.refl h)

/-! ### Sweeping -/

/-- The note of an engaged hold waits for its grade. -/
def OpenNotes (hs : List Hold) (b : Board) : Prop :=
  ∀ h ∈ hs, h.phase.isEngaged = true → ∃ n, b.live[h.live]? = some n ∧ n.result = none

theorem judges_finishHold {h : Hold} {b : Board} {n : LiveNote} (hn : b.live[h.live]? = some n)
    (hu : n.result = none) {g : Grade} (hg : g ≠ .tooFast) (time : Float) :
    Board.Judges (· = h.live) b (finishHold h g time b) ∧
      (finishHold h g time b).result? h.live = some g := by
  have hjudges := Board.judges_settle b hn hu hg (f := fun s => s.record g)
    (Board.finishes_record hg _) n time
  have hresult := Board.result?_settle hn (fun s => s.record g) n g time
  have hplain : (b.mapScore fun s => s.record g).live[h.live]? = some n := hn
  have hmarked : ∀ k, ((b.mapScore fun s => s.record g).mapScore fun s =>
      s.markError k time).live[h.live]? = some n := fun _ => hn
  unfold finishHold
  cases g.isMiss with
  | false =>
      simp only [hplain]
      exact ⟨hjudges, hresult⟩
  | true =>
      cases h.phase.key? with
      | none =>
          simp only [hplain]
          exact ⟨hjudges, hresult⟩
      | some k =>
          simp only [hmarked]
          exact ⟨hjudges.trans (Board.judges_markError _ _ k time), hresult⟩

/-- What a lawful change does to the holds `hs` and the board. -/
structure Swept (hs : List Hold) (b : Board) (hs' : List Hold) (b' : Board) : Prop where
  judges : Board.Judges (fun id => ∃ h ∈ hs, h.phase.isEngaged = true ∧ h.live = id) b b'
  origin : ∀ h' ∈ hs', ∃ h ∈ hs, Continues h h'
  order : (hs'.map Hold.live).Sublist (hs.map Hold.live)
  openNotes : OpenNotes hs' b'
  finished : ∀ h ∈ hs, h.phase.isEngaged = true →
    (∃ h' ∈ hs', Continues h h') ∨ (b'.result? h.live).isSome

/-- The notes of other holds are left alone. -/
theorem OpenNotes.of_judges {h : Hold} {rest : List Hold} {b b' : Board} (hopen : OpenNotes rest b)
    (hnot : h.live ∉ rest.map Hold.live) (hj : Board.Judges (· = h.live) b b') :
    OpenNotes rest b' := by
  intro k hk he
  obtain ⟨n, hn, hu⟩ := hopen k hk he
  have hne : k.live ≠ h.live := fun heq => hnot (heq ▸ List.mem_map_of_mem hk)
  exact ⟨n, (hj.frame k.live hne).trans hn, hu⟩

/-- A hold that is left after a change went on. -/
theorem origin_sweep {fate : Board → Hold → HoldFate} {hs : List Hold} {b : Board} {h' : Hold}
    (hh : h' ∈ (sweep fate hs b).1) : ∃ h ∈ hs, ∃ b', fate b' h = .goOn h' := by
  induction hs generalizing b with
  | nil => cases hh
  | cons h rest ih =>
      have hrest : ∀ b, h' ∈ (sweep fate rest b).1 → ∃ k ∈ h :: rest, ∃ b', fate b' k = .goOn h' :=
        fun b hmem => by
          obtain ⟨k, hk, hfate⟩ := ih hmem
          exact ⟨k, List.mem_cons_of_mem _ hk, hfate⟩
      unfold sweep at hh
      cases hfate : fate b h with
      | goOn k =>
          rw [hfate] at hh
          rcases List.mem_cons.mp hh with rfl | hh
          · exact ⟨h, List.mem_cons_self, b, hfate⟩
          · exact hrest _ hh
      | grade g time =>
          rw [hfate] at hh
          exact hrest _ hh
      | drop =>
          rw [hfate] at hh
          exact hrest _ hh

/-- Induction over the holds that a lawful change goes through.  A hold goes on, or it is engaged and gets a
grade that its note waits for, or it is idle and dropped; and the notes of the others stay open. -/
theorem sweep_induction {fate : Board → Hold → HoldFate} (hf : Lawful fate)
    {P : List Hold → Board → List Hold → Board → Prop} (hnil : ∀ b, P [] b [] b)
    (hgoOn : ∀ (h h' : Hold) (rest : List Hold) (b : Board), fate b h = .goOn h' → Continues h h' →
      OpenNotes (h :: rest) b → h.live ∉ rest.map Hold.live →
      P rest b (sweep fate rest b).1 (sweep fate rest b).2 →
      P (h :: rest) b (h' :: (sweep fate rest b).1) (sweep fate rest b).2)
    (hgrade : ∀ (h : Hold) (g : Grade) (time : Float) (n : LiveNote) (rest : List Hold) (b : Board),
      fate b h = .grade g time → h.phase.isEngaged = true → g ≠ .tooFast →
      b.live[h.live]? = some n → n.result = none → h.live ∉ rest.map Hold.live →
      let graded := finishHold h g time b
      P rest graded (sweep fate rest graded).1 (sweep fate rest graded).2 →
      P (h :: rest) b (sweep fate rest graded).1 (sweep fate rest graded).2)
    (hdrop : ∀ (h : Hold) (rest : List Hold) (b : Board), fate b h = .drop →
      h.phase.isEngaged = false → h.live ∉ rest.map Hold.live →
      P rest b (sweep fate rest b).1 (sweep fate rest b).2 →
      P (h :: rest) b (sweep fate rest b).1 (sweep fate rest b).2)
    {hs : List Hold} {b : Board} (hnodup : (hs.map Hold.live).Nodup) (hopen : OpenNotes hs b) :
    P hs b (sweep fate hs b).1 (sweep fate hs b).2 := by
  induction hs generalizing b with
  | nil => exact hnil b
  | cons h rest ih =>
      obtain ⟨hnot, hrest⟩ := List.nodup_cons.mp hnodup
      have hopenRest : OpenNotes rest b := fun k hk => hopen k (List.mem_cons_of_mem _ hk)
      unfold sweep
      cases hfate : fate b h with
      | goOn h' =>
          exact hgoOn h h' rest b hfate (hf.continues hfate) hopen hnot (ih hrest hopenRest)
      | grade g time =>
          obtain ⟨he, hg⟩ := hf.engaged hfate
          obtain ⟨n, hn, hu⟩ := hopen h List.mem_cons_self he
          have hjudges := (judges_finishHold hn hu hg time).1
          exact hgrade h g time n rest b hfate he hg hn hu hnot
            (ih hrest (hopenRest.of_judges hnot hjudges))
      | drop => exact hdrop h rest b hfate (hf.idle hfate) hnot (ih hrest hopenRest)

theorem swept {fate : Board → Hold → HoldFate} (hf : Lawful fate) {hs : List Hold} {b : Board}
    (hnodup : (hs.map Hold.live).Nodup) (hopen : OpenNotes hs b) :
    Swept hs b (sweep fate hs b).1 (sweep fate hs b).2 := by
  have hwiden : ∀ (h : Hold) (rest : List Hold) (id : Nat),
      (∃ k ∈ rest, k.phase.isEngaged = true ∧ k.live = id) →
        ∃ k ∈ h :: rest, k.phase.isEngaged = true ∧ k.live = id :=
    fun h rest id ⟨k, hk, hid⟩ => ⟨k, List.mem_cons_of_mem _ hk, hid⟩
  have horigin : ∀ (h : Hold) (rest : List Hold) (h' : Hold), (∃ k ∈ rest, Continues k h') →
      ∃ k ∈ h :: rest, Continues k h' := fun h rest h' ⟨k, hk, hc⟩ => ⟨k, List.mem_cons_of_mem _ hk, hc⟩
  refine sweep_induction hf (P := Swept) (fun b => ?_) ?_ ?_ ?_ hnodup hopen
  · exact ⟨.refl _ _, fun _ h => (nomatch h), .refl _, fun _ h => (nomatch h), fun _ h => (nomatch h)⟩
  · intro h h' rest b _ hc hopen hnot r
    refine ⟨r.judges.mono (hwiden h rest), fun k hk => ?_, ?_, fun k hk he => ?_, fun k hk he => ?_⟩
    · rcases List.mem_cons.mp hk with rfl | hk
      · exact ⟨h, List.mem_cons_self, hc⟩
      · exact horigin h rest k (r.origin k hk)
    · rw [List.map_cons, List.map_cons, hc.live]
      exact r.order.cons_cons _
    · rcases List.mem_cons.mp hk with rfl | hk
      · obtain ⟨n, hn, hu⟩ := hopen h List.mem_cons_self (hc.engaged.symm.trans he)
        refine ⟨n, ?_, hu⟩
        rw [hc.live, ← hn]
        apply r.judges.frame
        rintro ⟨k', hk', -, heq⟩
        exact hnot (heq ▸ List.mem_map_of_mem hk')
      · exact r.openNotes k hk he
    · rcases List.mem_cons.mp hk with rfl | hk
      · exact .inl ⟨h', List.mem_cons_self, hc⟩
      · exact (r.finished k hk he).imp (fun ⟨k', hk', hc'⟩ =>
          ⟨k', List.mem_cons_of_mem _ hk', hc'⟩) id
  · intro h g time n rest b _ he hg hn hu _ graded r
    obtain ⟨hjudges, hresult⟩ := judges_finishHold hn hu hg time
    refine ⟨?_, fun k hk => horigin h rest k (r.origin k hk), r.order.cons _, r.openNotes,
      fun k hk hke => ?_⟩
    · exact (hjudges.mono fun id hid => ⟨h, List.mem_cons_self, he, hid.symm⟩).trans
        (r.judges.mono (hwiden h rest))
    · rcases List.mem_cons.mp hk with rfl | hk
      · exact .inr (Option.isSome_of_eq_some (r.judges.final _ g hresult))
      · exact r.finished k hk hke
  · intro h rest b _ hidle _ r
    refine ⟨r.judges.mono (hwiden h rest), fun k hk => horigin h rest k (r.origin k hk),
      r.order.cons _, r.openNotes, fun k hk hke => ?_⟩
    rcases List.mem_cons.mp hk with rfl | hk
    · rw [hidle] at hke
      cases hke
    · exact r.finished k hk hke

/-- A change lets idle holds go on whose notes wait for their grades. -/
def Patient (fate : Board → Hold → HoldFate) : Prop :=
  ∀ b h, h.phase.isEngaged = false → b.result? h.live = none → fate b h = .goOn h

theorem patient_timeFate (w : Windows) (now : Float) : Patient (timeFate w now) := by
  intro b h he hnone
  have hjudged : (b.live[h.live]?).any LiveNote.isJudged = false := by
    unfold Board.result? at hnone
    cases hn : b.live[h.live]? with
    | none => rfl
    | some n =>
        rw [hn, Option.bind_some] at hnone
        simp [LiveNote.isJudged, hnone]
  unfold timeFate
  rw [eq_idle he]
  dsimp only
  rw [if_neg (by rw [hjudged]; exact Bool.false_ne_true)]

theorem patient_crossFate (key : Key) (time : Float) : Patient (crossFate key time) := by
  intro b h he _
  unfold crossFate
  rw [eq_idle he]

theorem patient_releaseFate (w : Windows) (key : Key) (time : Float) :
    Patient (releaseFate w key time) := by
  intro b h he _
  unfold releaseFate
  rw [eq_idle he]

/-- What becomes of one hold.  When it is its turn, its own note is as it was before the change. -/
theorem mem_sweep {fate : Board → Hold → HoldFate} (hf : Lawful fate) {hs : List Hold} {b : Board}
    (hnodup : (hs.map Hold.live).Nodup) (hopen : OpenNotes hs b) {h : Hold} (hh : h ∈ hs) :
    ∃ b', b'.live[h.live]? = b.live[h.live]? ∧
      ∀ h', h'.live = h.live → (h' ∈ (sweep fate hs b).1 ↔ fate b' h = .goOn h') := by
  -- What goes on of the others is of other notes than the first one.
  have hother : ∀ {first h' : Hold} {rest : List Hold} {b' : Board},
      first.live ∉ rest.map Hold.live → h'.live = first.live → h' ∉ (sweep fate rest b').1 := by
    intro first h' rest b' hnot hlive hmem
    obtain ⟨k, hk, _, hgo⟩ := origin_sweep hmem
    exact hnot (hlive ▸ (hf.continues hgo).live ▸ List.mem_map_of_mem hk)
  have hne : ∀ {first : Hold} {rest : List Hold}, first.live ∉ rest.map Hold.live → h ∈ rest →
      h.live ≠ first.live := fun hnot hmem heq => hnot (heq ▸ List.mem_map_of_mem hmem)
  revert hh
  refine sweep_induction hf (P := fun hs b hs' _ => h ∈ hs → ∃ b' : Board,
    b'.live[h.live]? = b.live[h.live]? ∧ ∀ h', h'.live = h.live → (h' ∈ hs' ↔ fate b' h = .goOn h'))
    (fun b hh => nomatch hh) ?_ ?_ ?_ hnodup hopen
  · intro first next rest b hfate hc _ hnot ih hh
    rcases List.mem_cons.mp hh with rfl | hmem
    · refine ⟨b, rfl, fun h' hlive => ?_⟩
      rw [hfate, List.mem_cons, HoldFate.goOn.injEq, eq_comm, or_iff_left]
      exact hother hnot hlive
    · obtain ⟨b', hsame, hiff⟩ := ih hmem
      refine ⟨b', hsame, fun h' hlive => ?_⟩
      rw [List.mem_cons, ← hiff h' hlive, or_iff_right]
      rintro rfl
      exact hne hnot hmem (hlive.symm.trans hc.live)
  · intro first g time n rest b hfate _ hg hn hu hnot graded ih hh
    rcases List.mem_cons.mp hh with rfl | hmem
    · refine ⟨b, rfl, fun h' hlive => ?_⟩
      rw [hfate]
      exact iff_of_false (hother hnot hlive) (by simp)
    · obtain ⟨b', hsame, hiff⟩ := ih hmem
      have hjudges := (judges_finishHold hn hu hg time).1
      exact ⟨b', hsame.trans (hjudges.frame h.live (hne hnot hmem)), hiff⟩
  · intro first rest b hfate _ hnot ih hh
    rcases List.mem_cons.mp hh with rfl | hmem
    · refine ⟨b, rfl, fun h' hlive => ?_⟩
      rw [hfate]
      exact iff_of_false (hother hnot hlive) (by simp)
    · exact ih hmem

/-! ### Registering -/

/-- Each live note has at most one hold, which knows when it is due. -/
structure Registered (hs : List Hold) (live : Array LiveNote) : Prop where
  once : (hs.map Hold.live).Nodup
  noted : ∀ h ∈ hs, ∃ n, live[h.live]? = some n ∧ h.trigger = n.trigger

theorem find?_eq_none_iff {t : Holds} {id : Nat} : t.find? id = none ↔ id ∉ t.holds.map Hold.live := by
  unfold find?
  rw [List.find?_eq_none, List.mem_map]
  constructor
  · rintro h ⟨k, hk, hid⟩
    exact h k hk (beq_iff_eq.mpr hid)
  · intro h k hk hid
    exact h ⟨k, hk, beq_iff_eq.mp hid⟩

/-- Registering holds of some live notes adds idle ones at the end. -/
structure Grows (ids : List Nat) (t t' : Holds) : Prop where
  windows : t'.windows = t.windows
  holds : ∃ more, t'.holds = t.holds ++ more ∧ ∀ h ∈ more, h.phase = .idle ∧ h.live ∈ ids

theorem Grows.refl (ids : List Nat) (t : Holds) : Grows ids t t :=
  ⟨rfl, [], by simp, fun _ h => (nomatch h)⟩

theorem Grows.trans {ids ids' : List Nat} {t t' t'' : Holds} (h : Grows ids t t')
    (h' : Grows ids' t' t'') : Grows (ids ++ ids') t t'' := by
  obtain ⟨more, hmore, hidle⟩ := h.holds
  obtain ⟨more', hmore', hidle'⟩ := h'.holds
  refine ⟨h'.windows.trans h.windows, more ++ more', by rw [hmore', hmore, List.append_assoc], ?_⟩
  intro k hk
  rcases List.mem_append.mp hk with hk | hk
  · exact ⟨(hidle k hk).1, List.mem_append_left _ (hidle k hk).2⟩
  · exact ⟨(hidle' k hk).1, List.mem_append_right _ (hidle' k hk).2⟩

theorem grows_track (t : Holds) (id : Nat) (live : Array LiveNote) (notes : Array Note)
    (speed : Float) (hr : Registered t.holds live) :
    Grows [id] t (t.track id live notes speed) ∧ Registered (t.track id live notes speed).holds live := by
  unfold track
  cases hfind : t.find? id with
  | some h => exact ⟨.refl _ t, hr⟩
  | none =>
      cases hlive : live[id]? with
      | none => exact ⟨.refl _ t, hr⟩
      | some n =>
          refine ⟨⟨rfl, [_], rfl, fun h hh => ?_⟩, ?_, ?_⟩
          · rw [List.mem_singleton.mp hh]
            exact ⟨rfl, List.mem_singleton_self id⟩
          · dsimp only
            rw [List.map_append, List.nodup_append]
            refine ⟨hr.once, by simp, ?_⟩
            rintro x hx y hy rfl
            rw [List.map_singleton, List.mem_singleton] at hy
            rw [hy] at hx
            exact find?_eq_none_iff.mp hfind hx
          · intro h hh
            rcases List.mem_append.mp hh with hh | hh
            · exact hr.noted h hh
            · rw [List.mem_singleton.mp hh]
              exact ⟨n, hlive, rfl⟩

/-- A live note has a hold once it is registered. -/
theorem mem_track (t : Holds) {id : Nat} {live : Array LiveNote} {n : LiveNote}
    (hn : live[id]? = some n) (notes : Array Note) (speed : Float) :
    id ∈ (t.track id live notes speed).holds.map Hold.live := by
  unfold track
  cases hfind : t.find? id with
  | some h =>
      exact List.mem_map.mpr ⟨h, List.mem_of_find?_eq_some hfind, by simpa using List.find?_some hfind⟩
  | none => simp [hn]

theorem grows_foldl_track (ids : List Nat) (t : Holds) (live : Array LiveNote) (notes : Array Note)
    (speed : Float) (hr : Registered t.holds live) :
    let t' := ids.foldl (fun (t : Holds) id => t.track id live notes speed) t
    Grows ids t t' ∧ Registered t'.holds live := by
  induction ids generalizing t with
  | nil => exact ⟨.refl _ t, hr⟩
  | cons id ids ih =>
      obtain ⟨hgrows, hr'⟩ := grows_track t id live notes speed hr
      obtain ⟨hgrows', hr''⟩ := ih _ hr'
      exact ⟨hgrows.trans hgrows', hr''⟩

/-- Registering holds drops none. -/
theorem Grows.subset {ids : List Nat} {t t' : Holds} (h : Grows ids t t') : t.holds ⊆ t'.holds := by
  obtain ⟨more, hmore, -⟩ := h.holds
  rw [hmore]
  exact List.subset_append_left _ _

theorem Grows.mem_or_idle {ids : List Nat} {t t' : Holds} (h : Grows ids t t') {k : Hold}
    (hk : k ∈ t'.holds) : k ∈ t.holds ∨ k.phase = .idle ∧ k.live ∈ ids := by
  obtain ⟨more, hmore, hidle⟩ := h.holds
  rw [hmore] at hk
  exact (List.mem_append.mp hk).imp_right (hidle k)

/-- Registering holds engages none. -/
theorem Grows.mem_of_isEngaged {ids : List Nat} {t t' : Holds} (h : Grows ids t t') {k : Hold}
    (hk : k ∈ t'.holds) (he : k.phase.isEngaged = true) : k ∈ t.holds := by
  refine (h.mem_or_idle hk).resolve_right fun hnew => ?_
  rw [hnew.1] at he
  cases he

theorem mem_map_foldl_track {ids : List Nat} {t : Holds} {live : Array LiveNote} (notes : Array Note)
    (speed : Float) (hr : Registered t.holds live) {id : Nat} (hid : id ∈ ids) {n : LiveNote}
    (hn : live[id]? = some n) :
    id ∈ (ids.foldl (fun (t : Holds) id => t.track id live notes speed) t).holds.map Hold.live := by
  induction ids generalizing t with
  | nil => cases hid
  | cons first ids ih =>
      have hr' := (grows_track t first live notes speed hr).2
      rcases List.mem_cons.mp hid with rfl | hid
      · exact List.map_subset _ (grows_foldl_track ids _ live notes speed hr').1.subset
          (mem_track t hn notes speed)
      · exact ih hr' hid

/-! ### Changing one hold -/

theorem map_live_modifyFirst {test : Hold → Bool} {f : Hold → Hold}
    (hf : ∀ h, (f h).live = h.live) (hs : List Hold) :
    (modifyFirst test f hs).map Hold.live = hs.map Hold.live := by
  induction hs with
  | nil => rfl
  | cons h rest ih =>
      unfold modifyFirst
      split_ifs
      · rw [List.map_cons, List.map_cons, hf]
      · rw [List.map_cons, List.map_cons, ih]

/-- A hold after the change of the first one that passes a test is an old one, or that one changed. -/
theorem mem_modifyFirst {test : Hold → Bool} {f : Hold → Hold} {hs : List Hold} {h : Hold}
    (hh : h ∈ modifyFirst test f hs) : h ∈ hs ∨ ∃ k ∈ hs, test k = true ∧ h = f k := by
  induction hs with
  | nil => cases hh
  | cons first rest ih =>
      unfold modifyFirst at hh
      split_ifs at hh with htest
      · rcases List.mem_cons.mp hh with rfl | hh
        · exact .inr ⟨first, List.mem_cons_self, htest, rfl⟩
        · exact .inl (List.mem_cons_of_mem _ hh)
      · rcases List.mem_cons.mp hh with rfl | hh
        · exact .inl List.mem_cons_self
        · rcases ih hh with hh | ⟨k, hk, hkt, heq⟩
          · exact .inl (List.mem_cons_of_mem _ hh)
          · exact .inr ⟨k, List.mem_cons_of_mem _ hk, hkt, heq⟩

/-- An old hold is still there, or changed. -/
theorem mem_or_mem_modifyFirst (test : Hold → Bool) (f : Hold → Hold) {hs : List Hold} {h : Hold}
    (hh : h ∈ hs) : h ∈ modifyFirst test f hs ∨ f h ∈ modifyFirst test f hs ∧ test h = true := by
  induction hs with
  | nil => cases hh
  | cons first rest ih =>
      unfold modifyFirst
      split_ifs with htest
      · rcases List.mem_cons.mp hh with rfl | hh
        · exact .inr ⟨List.mem_cons_self, htest⟩
        · exact .inl (List.mem_cons_of_mem _ hh)
      · rcases List.mem_cons.mp hh with rfl | hh
        · exact .inl List.mem_cons_self
        · exact (ih hh).imp (List.mem_cons_of_mem _) fun h => ⟨List.mem_cons_of_mem _ h.1, h.2⟩

theorem exists_mem_modifyFirst (test : Hold → Bool) (f : Hold → Hold) {hs : List Hold} {h : Hold}
    (hh : h ∈ hs) (ht : test h = true) : ∃ k, test k = true ∧ f k ∈ modifyFirst test f hs := by
  induction hs with
  | nil => cases hh
  | cons first rest ih =>
      unfold modifyFirst
      split_ifs with htest
      · exact ⟨first, htest, List.mem_cons_self⟩
      · rcases List.mem_cons.mp hh with rfl | hh
        · exact absurd ht htest
        · obtain ⟨k, hk, hmem⟩ := ih hh
          exact ⟨k, hk, List.mem_cons_of_mem _ hmem⟩

theorem continues_resumed (h : Hold) : Continues h (resumed h) := by
  unfold resumed
  cases hp : h.phase with
  | idle => exact .refl h
  | holding k g => exact .refl h
  | guarded k g r => exact ⟨rfl, rfl, rfl, by rw [hp]; rfl⟩

/-! ### Starting -/

/-- A hold that a key begins. -/
def hold (key : Key) (grade : Grade) (h : Hold) : Hold := { h with phase := .holding key grade }

/-- The holds `t` with the hold of a live note begun by a key. -/
def begun (t : Holds) (id : Nat) (key : Key) (grade : Grade) : Holds :=
  { t with holds := modifyFirst (fun h => h.live == id) (hold key grade) t.holds }

/-- What the start of a hold may do: the hold is refused, or an idle one begins near its time. -/
inductive Started (t : Holds) (id : Nat) (key : Key) (time : Float) (b : Board) :
    Bool × Holds × Board → Prop where
  | refused (t' : Holds) (hg : Grows [id] t t') (hr : Registered t'.holds b.live) :
      Started t id key time b (false, t', b)
  | begun (t' : Holds) (hg : Grows [id] t t') (hr : Registered t'.holds b.live) (h : Hold)
      (hh : h ∈ t'.holds) (hlive : h.live = id) (hidle : h.phase.isEngaged = false)
      (hclose : ¬ t'.windows.exit < (h.trigger - time).abs) :
      Started t id key time b
        (true, t'.begun id key (t'.windows.grade (h.trigger - time)),
          b.mapScore fun s => s.applyGrade (t'.windows.grade (h.trigger - time)))

theorem start_cases {t : Holds} {b : Board} (hr : Registered t.holds b.live) (id : Nat) (key : Key)
    (time : Float) (notes : Array Note) (speed : Float) :
    Started t id key time b (t.start id key time notes speed b) := by
  obtain ⟨hgrows, hr'⟩ := grows_track t id b.live notes speed hr
  unfold start
  dsimp only
  split_ifs with hbusy
  · exact .refused t (.refl _ t) hr
  · cases hfind : (t.track id b.live notes speed).find? id with
    | none => exact .refused _ hgrows hr'
    | some h =>
        have hmem : h ∈ (t.track id b.live notes speed).holds := List.mem_of_find?_eq_some hfind
        have hlive : h.live = id := by simpa using List.find?_some hfind
        dsimp only
        split_ifs with hno
        · exact .refused _ hgrows hr'
        · rw [not_or, Bool.not_eq_true] at hno
          exact .begun _ hgrows hr' h hmem hlive hno.1 hno.2

end RhythmChart.Holds
