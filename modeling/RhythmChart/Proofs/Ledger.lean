import RhythmChart.Proofs.Edges
import RhythmChart.Proofs.Streaks

/-! # Ledgers

A ledger is a desk with what its score counts beside the grades: the last error of each key, the empty
presses and the streak.  Two ledgers that are told the same edges, each at its own times, come out the
same, save for the streak, which depends on the order of hits and misses.

Main statements.

* `Ledger.tell_tell`: being told the time on the way changes nothing but the streak, and not even that
  where time brings only misses or only hits;
* `Ledger.AgreeFrom.tell` and `Ledger.AgreeFrom.edge`: ledgers that agree from some time on still do after
  one of them is told the time, or both of them an edge;
* `Ledger.AgreeFrom.run`: so they agree after all. -/

namespace RhythmChart

open Judge Holds Binary64

/-! ### Tidy desks -/

namespace Desk

/-- Notes that are to come, wait in the queue or are held have no ending yet. -/
structure Tidy (x : Desk) : Prop extends Steady x where
  nodup : x.queue.Nodup
  waiting : ∀ id ∈ x.queue, x.ended id = none
  coming : ∀ id, x.next ≤ id → x.ended id = none
  driven : ∀ id, (x.phase id).isEngaged = true → x.ended id = none

/-- The second desk keeps the endings of the first. -/
def Upholds (x y : Desk) : Prop := ∀ id e, x.ended id = some e → y.ended id = some e

theorem Upholds.trans {x y z : Desk} (h : Upholds x y) (h' : Upholds y z) : Upholds x z :=
  fun id e he => h' id e (h id e he)

variable {S : Sheet} {x y z : Desk} {now t u time : Float} {key : Key}

theorem Tidy.nodup_lined (h : x.Tidy) : (x.lined S now).Nodup := by
  refine List.nodup_append.mpr ⟨h.nodup, Stage.nodup_openBetween _ _ _ _, ?_⟩
  rintro id hq _ ho rfl
  have hlt := (h.queued id hq).1
  have hle := (mem_openBetween.mp ho).1
  omega

theorem Tidy.ended_lined (h : x.Tidy) {id : Nat} (hid : id ∈ x.lined S now) : x.ended id = none := by
  rcases List.mem_append.mp hid with hid | hid
  · exact h.waiting id hid
  · exact h.coming id (mem_openBetween.mp hid).1

theorem Tidy.maintain (h : x.Tidy) (now : Float) : (x.maintain S now).Tidy :=
  { h.toSteady.maintain now with
    nodup := h.nodup_lined.sublist (List.dropWhile_sublist _)
    waiting := fun id hid => by
      have hstays : id ∉ x.lapsed S now := Stage.not_mem_takeWhile h.nodup_lined hid
      rw [ended_maintain, if_neg hstays]
      exact h.ended_lined ((List.dropWhile_sublist _).subset hid)
    coming := fun id hid => by
      have hlater : id ∉ x.lapsed S now := fun hmem =>
        absurd (h.toSteady.lined ((List.takeWhile_sublist _).subset hmem)).1 (Nat.not_lt.mpr hid)
      rw [ended_maintain, if_neg hlater]
      exact h.coming id ((le_frontier' x now).trans hid)
    driven := fun id he => by
      have hfree : id ∉ x.lapsed S now := fun hmem => by
        have hidle := h.toSteady.lapsed hmem
        change (x.phase id).isEngaged = true at he
        rw [hidle] at he
        cases he
      rw [ended_maintain, if_neg hfree]
      exact h.driven id he }

theorem Tidy.upholds_maintain (h : x.Tidy) (now : Float) : Upholds x (x.maintain S now) := by
  intro id e he
  have hfree : id ∉ x.lapsed S now := fun hmem => by
    rw [h.ended_lined ((List.takeWhile_sublist _).subset hmem)] at he
    cases he
  rw [ended_maintain, if_neg hfree, he]

section Change

variable {fate : Board → Hold → HoldFate}

theorem Tidy.change (h : x.Tidy) (hf : Lawful fate) : (x.change S fate).Tidy :=
  { h.toSteady.change hf with
    nodup := h.nodup
    waiting := fun id hid =>
      (ended_change_of_idle hf (h.queued id hid).2).trans (h.waiting id hid)
    coming := fun id hid => by
      refine (ended_change_of_idle hf (Bool.eq_false_iff.mpr fun he => ?_)).trans (h.coming id hid)
      exact absurd (h.known id he) (Nat.not_lt.mpr hid)
    driven := fun id he => by
      obtain ⟨hwas, hnone⟩ := isEngaged_of_change hf he
      rw [ended_change, hnone]
      exact h.driven id hwas }

theorem Tidy.upholds_change (h : x.Tidy) (hf : Lawful fate) : Upholds x (x.change S fate) := by
  intro id e he
  have hidle : (x.phase id).isEngaged = false := Bool.eq_false_iff.mpr fun hengaged => by
    rw [h.driven id hengaged] at he
    cases he
  rw [ended_change_of_idle hf hidle, he]

end Change

theorem Tidy.settle (h : x.Tidy) (now : Float) : (x.settle S now).Tidy :=
  (h.maintain now).change (lawful_timeFate _ _)

theorem Tidy.upholds_settle (h : x.Tidy) (now : Float) : Upholds x (x.settle S now) :=
  (h.upholds_maintain now).trans ((h.maintain now).upholds_change (lawful_timeFate _ _))

theorem Tidy.release (h : x.Tidy) (key : Key) (time : Float) : (x.release S key time).Tidy :=
  (h.change (lawful_timeFate _ _)).change (lawful_releaseFate _ _ _)

theorem Tidy.upholds_release (h : x.Tidy) (key : Key) (time : Float) :
    Upholds x (x.release S key time) :=
  (h.upholds_change (lawful_timeFate _ _)).trans
    ((h.change (lawful_timeFate _ _)).upholds_change (lawful_releaseFate _ _ _))

theorem Tidy.resume (h : x.Tidy) (key : Key) (time : Float) : (x.resume S key time).Tidy :=
  { h.toSteady.resume key time with
    nodup := h.nodup
    waiting := h.waiting
    coming := h.coming
    driven := fun id he => by
      have := congrArg Option.isSome (key_resume (S := S) x key time id)
      exact h.driven id (this.symm.trans he) }

/-- A queued note gets its ending and leaves the queue. -/
theorem Tidy.finish (h : x.Tidy) {id : Nat} (hid : id ∈ x.queue) (e : Ending)
    (hqueue : y.queue = x.queue.erase id) (hnext : y.next = x.next) (hphase : y.phase = x.phase)
    (hended : y.ended = Function.update x.ended id (some e)) : y.Tidy := by
  have hsub : ∀ i ∈ y.queue, i ∈ x.queue ∧ i ≠ id := by
    intro i hi
    rw [hqueue] at hi
    exact ⟨List.mem_of_mem_erase hi, fun heq => h.nodup.not_mem_erase (heq ▸ hi)⟩
  have hother : ∀ i, i ≠ id → y.ended i = x.ended i := by
    intro i hne
    rw [hended, Function.update_of_ne hne]
  obtain ⟨hlt, hidle⟩ := h.queued id hid
  exact
    { h.toSteady.of_subset (fun i hi => (hsub i hi).1) hnext hphase with
      nodup := hqueue ▸ h.nodup.erase id
      waiting := fun i hi => (hother i (hsub i hi).2).trans (h.waiting i (hsub i hi).1)
      coming := fun i hi => by
        rw [hnext] at hi
        exact (hother i (by omega)).trans (h.coming i hi)
      driven := fun i he => by
        rw [hphase] at he
        have hne : i ≠ id := fun heq => by
          rw [heq, hidle] at he
          cases he
        exact (hother i hne).trans (h.driven i he) }

theorem Tidy.hit (h : x.Tidy) (key : Key) (time : Float) : (x.hit S key time).Tidy := by
  unfold Desk.hit
  cases htarget : x.target? S time with
  | none => exact h
  | some id =>
      have hid : id ∈ x.queue := List.mem_of_find?_eq_some htarget
      dsimp only
      cases S.note? id with
      | none => exact h
      | some note =>
          dsimp only
          split_ifs with hhold hbusy hlayers
          · exact h
          · exact
              { h.toSteady.begin (Bool.eq_false_iff.mpr hbusy) hid time with
                nodup := h.nodup.filter _
                waiting := fun i hi => h.waiting i (List.mem_filter.mp hi).1
                coming := h.coming
                driven := fun i he => by
                  change (Function.update x.phase id _ i).isEngaged = true at he
                  rw [Function.update_apply] at he
                  split_ifs at he with heq
                  · exact heq ▸ h.waiting id hid
                  · exact h.driven i he }
          · unfold Desk.hitLayer
            dsimp only
            split_ifs
            · exact h.finish hid _ rfl rfl rfl rfl
            · exact
                { h.toSteady.of_subset (fun _ hq => hq) rfl rfl with
                  nodup := h.nodup
                  waiting := h.waiting
                  coming := h.coming
                  driven := h.driven }
          · exact h.finish hid _ rfl rfl rfl rfl

theorem Tidy.press (h : x.Tidy) (key : Key) (time : Float) : (x.press S key time).Tidy := by
  have hready := ((h.settle (S := S) time).resume (S := S) key time).change (S := S)
    (lawful_crossFate key time)
  unfold Desk.press
  dsimp only
  split_ifs
  · exact hready
  · exact hready.hit key time

theorem Tidy.edge (h : x.Tidy) (e : Edge) : (x.edge S e).Tidy := by
  unfold Desk.edge
  split_ifs
  · exact h.press e.key e.time
  · exact h.release e.key e.time

/-! ### What comes of time alone -/

/-- How many live notes have ended with a grade of some kind. -/
def tally (S : Sheet) (p : Grade → Bool) (x : Desk) : Nat :=
  (List.range S.all.size).countP fun id => (x.ended id).any fun e => p e.grade

/-- From the first desk to the second there are only misses or only hits. -/
def Even (S : Sheet) (x y : Desk) : Prop :=
  x.tally S Grade.isMiss = y.tally S Grade.isMiss ∨
    x.tally S (fun g => !g.isMiss) = y.tally S fun g => !g.isMiss

/-- The streak after what has ended from the first desk to the second. -/
def pay (S : Sheet) (x y : Desk) (c : Streak) : Streak :=
  c.pay (y.tally S Grade.isMiss - x.tally S Grade.isMiss)
    (y.tally S (fun g => !g.isMiss) - x.tally S fun g => !g.isMiss)

theorem Upholds.tally_le (h : Upholds x y) (p : Grade → Bool) : x.tally S p ≤ y.tally S p := by
  refine List.countP_mono_left fun id _ hp => ?_
  obtain ⟨e, he, hpe⟩ := (Option.any_eq_true _ _).mp hp
  exact (Option.any_eq_true _ _).mpr ⟨e, h id e he, hpe⟩

theorem Even.left (h : Even S x z) (hxy : Upholds x y) (hyz : Upholds y z) : Even S x y := by
  have hmisses := hxy.tally_le (S := S) Grade.isMiss
  have hmisses' := hyz.tally_le (S := S) Grade.isMiss
  have hhits := hxy.tally_le (S := S) fun g => !g.isMiss
  have hhits' := hyz.tally_le (S := S) fun g => !g.isMiss
  unfold Even at h ⊢
  omega

theorem Even.right (h : Even S x z) (hxy : Upholds x y) (hyz : Upholds y z) : Even S y z := by
  have hmisses := hxy.tally_le (S := S) Grade.isMiss
  have hmisses' := hyz.tally_le (S := S) Grade.isMiss
  have hhits := hxy.tally_le (S := S) fun g => !g.isMiss
  have hhits' := hyz.tally_le (S := S) fun g => !g.isMiss
  unfold Even at h ⊢
  omega

/-- Where there are only misses or only hits, it does not matter whether they are paid in one go. -/
theorem pay_pay (hxy : Upholds x y) (hyz : Upholds y z) (heven : Even S x z) (c : Streak) :
    pay S y z (pay S x y c) = pay S x z c := by
  have hmisses := hxy.tally_le (S := S) Grade.isMiss
  have hmisses' := hyz.tally_le (S := S) Grade.isMiss
  have hhits := hxy.tally_le (S := S) fun g => !g.isMiss
  have hhits' := hyz.tally_le (S := S) fun g => !g.isMiss
  unfold Even at heven
  unfold pay
  rw [Streak.pay_pay (by omega)]
  congr 1 <;> omega

/-! ### Errors of keys -/

open Classical in
/-- The time of the error that a change counts against a key. -/
noncomputable def fault? (S : Sheet) (fate : Board → Hold → HoldFate) (x : Desk) (k : Key) :
    Option Float :=
  if h : ∃ id, (x.phase id).key? = some k then (fate .blank (x.hold S h.choose)).fault? else none

section Fault

variable {fate : Board → Hold → HoldFate} {k : Key}

theorem fault?_of_free (h : ∀ id, (x.phase id).key? ≠ some k) : fault? S fate x k = none :=
  dif_neg fun ⟨id, hid⟩ => h id hid

theorem fault?_of_drives (hx : x.Steady) {id : Nat} (h : (x.phase id).key? = some k) :
    fault? S fate x k = (fate .blank (x.hold S id)).fault? := by
  have hex : ∃ id, (x.phase id).key? = some k := ⟨id, h⟩
  unfold fault?
  rw [dif_pos hex, hx.alone hex.choose id k hex.choose_spec h]

theorem phase_change (h : x.phase = y.phase) :
    (x.change S fate).phase = (y.change S fate).phase := by
  unfold Desk.change hold
  simp only [h]

theorem fault?_congr (h : x.phase = y.phase) : fault? S fate x k = fault? S fate y k := by
  cases x
  cases y
  subst h
  rfl

theorem fault?_maintain (x : Desk) : fault? S fate (x.maintain S now) k = fault? S fate x k :=
  fault?_congr rfl

theorem fault?_settle (x : Desk) :
    fault? S fate (x.settle S now) k = fault? S fate (x.change S (timeFate S.windows now)) k :=
  fault?_congr rfl

/-- A release is never an error. -/
theorem fault?_releaseFate (w : Windows) (x : Desk) (key : Key) (time : Float) :
    fault? S (releaseFate w key time) x k = none := by
  have hnone : ∀ h : Hold, (releaseFate w key time .blank h).fault? = none := by
    intro h
    unfold releaseFate
    cases h.phase with
    | idle => rfl
    | guarded k g released => rfl
    | holding k g =>
        dsimp only
        split_ifs <;> rfl
  unfold fault?
  split_ifs
  · exact hnone _
  · rfl

/-- The errors that time brings do not depend on whether it was told on the way. -/
theorem fault?_change (hx : x.Steady) (hle : t ≤ u) :
    (fault? S (timeFate S.windows u) (x.change S (timeFate S.windows t)) k).or
      (fault? S (timeFate S.windows t) x k) = fault? S (timeFate S.windows u) x k := by
  set y := x.change S (timeFate S.windows t) with hy
  have hsteady : y.Steady := hx.change (lawful_timeFate _ _)
  -- A key drives what it drove before, or nothing.
  have hkey : ∀ id, (y.phase id).key? = some k → (x.phase id).key? = some k := by
    intro id hid
    rcases key_phase (lawful_timeFate S.windows t) .blank (x.hold S id) with hk | hk
    · exact hk.symm.trans hid
    · change ((timeFate S.windows t .blank (x.hold S id)).phase).key? = some k at hid
      rw [hk] at hid
      cases hid
  by_cases hdrives : ∃ id, (x.phase id).key? = some k
  · obtain ⟨id, hid⟩ := hdrives
    have hhold : y.hold S id = { x.hold S id with
        phase := (timeFate S.windows t .blank (x.hold S id)).phase } := rfl
    rw [fault?_of_drives hx hid, fault?_of_drives hx hid]
    rcases timeFate_cases S.windows hle (x.hold S id) with hkept | ⟨g, time, hthen, hnow⟩
    · rw [hkept] at hhold
      have hsame : y.hold S id = x.hold S id := hhold
      have hdrive : (y.phase id).key? = some k := (congrArg (fun h => h.phase.key?) hsame).trans hid
      rw [fault?_of_drives hsteady hdrive, hsame, hkept]
      exact Option.or_none
    · have hfree : ∀ i, (y.phase i).key? ≠ some k := by
        intro i hi
        obtain rfl := hx.alone i id k (hkey i hi) hid
        rw [hthen] at hhold
        have hidle : y.phase i = .idle := congrArg Hold.phase hhold
        rw [hidle] at hi
        cases hi
      rw [fault?_of_free hfree, hthen, hnow]
      rfl
  · rw [not_exists] at hdrives
    rw [fault?_of_free fun id hid => hdrives id (hkey id hid), fault?_of_free hdrives,
      fault?_of_free hdrives]
    rfl

end Fault

/-- The grade that a press gives to a note or to one of its layers, or begins a hold with. -/
def strike? (S : Sheet) (key : Key) (time : Float) (x : Desk) : Option Grade :=
  (x.target? S time).bind fun id => (S.note? id).bind fun note =>
    if note.noteType = .hold ∧ x.isBusy key = true then none
    else some (S.windows.grade (S.trigger id - time))

end Desk

/-! ### Ledgers -/

/-- A desk, the last error of each key, the empty presses, and the streak. -/
@[ext]
structure Ledger where
  desk : Desk
  errs : Key → Option Float
  empties : Nat
  streak : Streak

namespace Ledger

/-- Nothing has happened. -/
def fresh : Ledger := ⟨.fresh, fun _ => none, 0, ⟨0, 0⟩⟩

variable (S : Sheet)

/-- Applies a change to all holds, and counts errors of keys. -/
noncomputable def change (fate : Board → Hold → HoldFate) (a : Ledger) : Ledger :=
  { a with
    desk := a.desk.change S fate
    errs := fun k => (a.desk.fault? S fate k).or (a.errs k) }

/-- Counts in the streak what has ended since the desk `x`. -/
def pay (x : Desk) (a : Ledger) : Ledger := { a with streak := Desk.pay S x a.desk a.streak }

/-- Brings queue and holds to the time `now`. -/
noncomputable def tell (now : Float) (a : Ledger) : Ledger :=
  (({ a with desk := a.desk.maintain S now }).change S (timeFate S.windows now)).pay S a.desk

/-- A key is released. -/
noncomputable def release (key : Key) (time : Float) (a : Ledger) : Ledger :=
  ((a.change S (timeFate S.windows time)).change S (releaseFate S.windows key time)).pay S a.desk

/-- A key is pressed while holds wait for theirs. -/
noncomputable def cross (key : Key) (time : Float) (a : Ledger) : Ledger :=
  (({ a with desk := a.desk.resume S key time }).change S (crossFate key time)).pay S a.desk

/-- A press that resumes no hold. -/
def hit (key : Key) (time : Float) (a : Ledger) : Ledger :=
  { a with
    desk := a.desk.hit S key time
    streak := (a.desk.strike? S key time).elim a.streak a.streak.move }

/-- Charges an empty press, unless the last error of its key is recent. -/
def charge (key : Key) (time : Float) (a : Ledger) : Ledger :=
  if (a.errs key).any fun last => decide (time - last ≤ S.windows.cooldown) then a
  else
    { a with
      errs := Function.update a.errs key (some time)
      empties := a.empties + 1
      streak := a.streak.miss }

/-- A key is pressed, when the time is told; `empty` says whether the press is an empty one. -/
noncomputable def act (key : Key) (time : Float) (empty : Bool) (a : Ledger) : Ledger :=
  let b := a.cross S key time
  let b := if a.desk.isAwaited S key time then b else b.hit S key time
  if empty then b.charge S key time else b

/-- An accepted edge of a judged key. -/
noncomputable def edge (e : Edge) (empty : Bool) (a : Ledger) : Ledger :=
  if e.pressed then (a.tell S e.time).act S e.key e.time empty else a.release S e.key e.time

variable {S} {a b c : Ledger}

theorem desk_tell (a : Ledger) (now : Float) : (a.tell S now).desk = a.desk.settle S now := rfl

theorem desk_charge (a : Ledger) (key : Key) (time : Float) : (a.charge S key time).desk = a.desk := by
  unfold charge
  split_ifs <;> rfl

theorem desk_edge (a : Ledger) (e : Edge) (empty : Bool) :
    (a.edge S e empty).desk = a.desk.edge S e := by
  unfold edge Desk.edge Desk.press act
  dsimp only
  rw [desk_tell]
  split_ifs <;> first | rfl | exact desk_charge _ _ _

/-! ### The same ledger but for the streak -/

/-- Ledgers that are the same but for the streak, and have the same streak under a condition. -/
structure Same (U : Prop) (a b : Ledger) : Prop where
  desk : a.desk = b.desk
  errs : a.errs = b.errs
  empties : a.empties = b.empties
  streak : U → a.streak = b.streak

section Same

variable {U V : Prop}

theorem Same.refl (a : Ledger) : Same U a a := ⟨rfl, rfl, rfl, fun _ => rfl⟩

theorem Same.symm (h : Same U a b) : Same U b a :=
  ⟨h.desk.symm, h.errs.symm, h.empties.symm, fun hu => (h.streak hu).symm⟩

theorem Same.trans (h : Same U a b) (h' : Same V b c) : Same (U ∧ V) a c :=
  ⟨h.desk.trans h'.desk, h.errs.trans h'.errs, h.empties.trans h'.empties,
    fun hu => (h.streak hu.1).trans (h'.streak hu.2)⟩

theorem Same.mono (h : Same U a b) (hv : V → U) : Same V a b :=
  ⟨h.desk, h.errs, h.empties, fun hu => h.streak (hv hu)⟩

/-- What does not look at the streak keeps ledgers the same. -/
theorem Same.congr (h : Same U a b) {f : Ledger → Ledger}
    (hf : ∀ a c, ∃ c', f { a with streak := c } = { f a with streak := c' }) :
    Same U (f a) (f b) := by
  obtain ⟨c, hc⟩ := hf b a.streak
  have ha : a = { b with streak := a.streak } := by
    obtain ⟨hdesk, herrs, hempties, -⟩ := h
    cases a
    cases b
    subst hdesk herrs hempties
    rfl
  refine ⟨?_, ?_, ?_, fun hu => ?_⟩
  · rw [ha, hc]
  · rw [ha, hc]
  · rw [ha, hc]
  · rw [ha, h.streak hu]

theorem Same.tell (h : Same U a b) (now : Float) : Same U (a.tell S now) (b.tell S now) :=
  h.congr fun _ _ => ⟨_, rfl⟩

theorem Same.release (h : Same U a b) (key : Key) (time : Float) :
    Same U (a.release S key time) (b.release S key time) :=
  h.congr fun _ _ => ⟨_, rfl⟩

theorem Same.act (h : Same U a b) (key : Key) (time : Float) (empty : Bool) :
    Same U (a.act S key time empty) (b.act S key time empty) := by
  refine h.congr fun a c => ?_
  unfold Ledger.act charge
  dsimp only [cross, pay, change, hit]
  split_ifs <;> exact ⟨_, rfl⟩

end Same

/-! ### Being told the time on the way -/

variable {t u : Float}

/-- Being told the time on the way changes nothing, except that what it brings may come to be counted in
another order. -/
theorem tell_tell (hbot : value t ≠ ⊥) (hle : t ≤ u) (ha : a.desk.Tidy) :
    Same (Desk.Even S a.desk (a.desk.settle S u)) ((a.tell S t).tell S u) (a.tell S u) := by
  have hdesk := Desk.settle_settle (S := S) hbot hle ha.toSteady
  refine ⟨hdesk, funext fun k => ?_, rfl, fun heven => ?_⟩
  · change (((a.desk.settle S t).maintain S u).fault? S (timeFate S.windows u) k).or
      (((a.desk.maintain S t).fault? S (timeFate S.windows t) k).or (a.errs k)) =
        ((a.desk.maintain S u).fault? S (timeFate S.windows u) k).or (a.errs k)
    rw [Desk.fault?_maintain, Desk.fault?_maintain, Desk.fault?_maintain, Desk.fault?_settle,
      ← Option.or_assoc, Desk.fault?_change ha.toSteady hle]
  · have hpay := Desk.pay_pay (ha.upholds_settle t) ((ha.settle t).upholds_settle u)
      (hdesk.symm ▸ heven) a.streak
    change Desk.pay S (a.desk.settle S t) ((a.desk.settle S t).settle S u)
      (Desk.pay S a.desk (a.desk.settle S t) a.streak) =
        Desk.pay S a.desk (a.desk.settle S u) a.streak
    rw [hpay, hdesk]

/-- Neither does it before a release. -/
theorem tell_release (hbot : value t ≠ ⊥) (hself : t ≤ t) (ha : a.desk.Tidy) (key : Key) :
    Same (Desk.Even S a.desk ((a.desk.release S key t).settle S t))
      (((a.tell S t).release S key t).tell S t) ((a.release S key t).tell S t) := by
  set x := a.desk with hx
  set z := x.settle S t with hz
  have hzt : z.Tidy := ha.settle t
  have hdesk : (z.release S key t).settle S t = (x.release S key t).settle S t := by
    rw [Desk.settle_release hzt.toSteady, Desk.settle_release ha.toSteady, hz,
      Desk.settle_settle hbot hself ha.toSteady]
  have hover : (z.change S (timeFate S.windows t)).phase =
      (x.change S (timeFate S.windows t)).phase := by
    have hphase : z.phase = (x.change S (timeFate S.windows t)).phase := rfl
    rw [Desk.phase_change hphase, Desk.change_change hself]
  have hphase : (z.release S key t).phase = (x.release S key t).phase :=
    Desk.phase_change hover
  refine ⟨hdesk, funext fun k => ?_, rfl, fun heven => ?_⟩
  · change (((z.release S key t).maintain S t).fault? S (timeFate S.windows t) k).or
        (((z.change S (timeFate S.windows t)).fault? S (releaseFate S.windows key t) k).or
          ((z.fault? S (timeFate S.windows t) k).or
            (((x.maintain S t).fault? S (timeFate S.windows t) k).or (a.errs k)))) =
      (((x.release S key t).maintain S t).fault? S (timeFate S.windows t) k).or
        (((x.change S (timeFate S.windows t)).fault? S (releaseFate S.windows key t) k).or
          ((x.fault? S (timeFate S.windows t) k).or (a.errs k)))
    have hbefore : (z.fault? S (timeFate S.windows t) k).or (x.fault? S (timeFate S.windows t) k) =
        x.fault? S (timeFate S.windows t) k := by
      rw [hz, Desk.fault?_settle]
      exact Desk.fault?_change ha.toSteady hself
    rw [Desk.fault?_maintain, Desk.fault?_maintain, Desk.fault?_maintain, Desk.fault?_releaseFate,
      Desk.fault?_releaseFate, Option.none_or, Option.none_or, Desk.fault?_congr hphase]
    congr 1
    rw [← Option.or_assoc, hbefore]
  · have hxz := ha.upholds_settle (S := S) t
    have hzr := hzt.upholds_release (S := S) key t
    have hrf := (hzt.release (S := S) key t).upholds_settle (S := S) t
    have hxr := ha.upholds_release (S := S) key t
    have hrf' := (ha.release (S := S) key t).upholds_settle (S := S) t
    rw [← hdesk] at heven
    have hlong : Desk.pay S (z.release S key t) ((z.release S key t).settle S t)
        (Desk.pay S z (z.release S key t) (Desk.pay S x z a.streak)) =
          Desk.pay S x ((z.release S key t).settle S t) a.streak := by
      rw [Desk.pay_pay hzr hrf (heven.right hxz (hzr.trans hrf)),
        Desk.pay_pay hxz (hzr.trans hrf) heven]
    have hshort := Desk.pay_pay hxr hrf' (hdesk ▸ heven) a.streak
    rw [← hdesk] at hshort
    change Desk.pay S (z.release S key t) ((z.release S key t).settle S t)
        (Desk.pay S z (z.release S key t) (Desk.pay S x z a.streak)) =
      Desk.pay S (x.release S key t) ((x.release S key t).settle S t)
        (Desk.pay S x (x.release S key t) a.streak)
    rw [hlong, ← hshort, hdesk]

/-! ### Ledgers that agree -/

/-- At all times from `start` on, the ledgers are the same once they are told the time. -/
def AgreeFrom (S : Sheet) (start : EReal) (U : Prop) (a b : Ledger) : Prop :=
  ∀ u, IsNumber u → value u ≠ ⊥ → start ≤ value u →
    Same (U ∧ Desk.Even S a.desk (a.desk.settle S u) ∧ Desk.Even S b.desk (b.desk.settle S u))
      (a.tell S u) (b.tell S u)

/-- What time brings together with an edge. -/
def EvenEdge (S : Sheet) (a : Ledger) (e : Edge) : Prop :=
  if e.pressed then Desk.Even S a.desk (a.desk.settle S e.time)
  else Desk.Even S a.desk ((a.desk.release S e.key e.time).settle S e.time)

section Agree

variable {start : EReal} {U : Prop}

theorem AgreeFrom.refl (S : Sheet) (start : EReal) (a : Ledger) : AgreeFrom S start True a a :=
  fun _ _ _ _ => .refl _

theorem AgreeFrom.symm (h : AgreeFrom S start U a b) : AgreeFrom S start U b a :=
  fun u hu hbot hle => (h u hu hbot hle).symm.mono fun hU => ⟨hU.1, hU.2.2, hU.2.1⟩

/-- Ledgers that agree still do when one of them is told the time. -/
theorem AgreeFrom.tell (h : AgreeFrom S start U a b) (hb : b.desk.Tidy) (ht : IsNumber t)
    (hbot : value t ≠ ⊥) (hstart : start ≤ value t) :
    AgreeFrom S (value t) (U ∧ Desk.Even S a.desk (a.desk.settle S t)) (a.tell S t) b := by
  intro u hu hubot hle
  have hlater : t ≤ u := (le_iff _ _).mpr ⟨ht, hu, hle⟩
  have hnow := (h t ht hbot hstart).tell (S := S) u
  refine (hnow.trans (tell_tell hbot hlater hb)).mono ?_
  rintro ⟨⟨hU, hat⟩, -, hbu⟩
  refine ⟨⟨hU, hat, ?_⟩, hbu⟩
  have hover := Desk.settle_settle (S := S) hbot hlater hb.toSteady
  exact hbu.left (hb.upholds_settle t) (hover ▸ (hb.settle t).upholds_settle u)

/-- Ledgers that agree still do when both of them are told an edge. -/
theorem AgreeFrom.edge (h : AgreeFrom S start U a b) (ha : a.desk.Tidy) (hb : b.desk.Tidy) {e : Edge}
    (ht : IsNumber e.time) (hbot : value e.time ≠ ⊥) (hstart : start ≤ value e.time) (empty : Bool) :
    AgreeFrom S (value e.time) (U ∧ EvenEdge S a e ∧ EvenEdge S b e) (a.edge S e empty)
      (b.edge S e empty) := by
  intro u hu hubot hle
  have hself : e.time ≤ e.time := le_self ht
  have hlater : e.time ≤ u := (le_iff _ _).mpr ⟨ht, hu, hle⟩
  have hnow := h e.time ht hbot hstart
  unfold EvenEdge Ledger.edge
  split_ifs
  · exact ((hnow.act e.key e.time empty).tell u).mono And.left
  · -- A release is made up for once the time is told.
    have hstep : ∀ {c : Ledger}, c.desk.Tidy →
        Same (Desk.Even S c.desk ((c.desk.release S e.key e.time).settle S e.time) ∧
          Desk.Even S (c.desk.release S e.key e.time) ((c.desk.release S e.key e.time).settle S u))
          ((((c.tell S e.time).release S e.key e.time).tell S e.time).tell S u)
          ((c.release S e.key e.time).tell S u) := by
      intro c hc
      have hreleased : (c.release S e.key e.time).desk.Tidy := hc.release e.key e.time
      exact ((tell_release hbot hself hc e.key).tell u).trans (tell_tell hbot hlater hreleased)
    have hleft : ∀ {c : Ledger}, c.desk.Tidy →
        Desk.Even S c.desk ((c.desk.release S e.key e.time).settle S e.time) →
          Desk.Even S c.desk (c.desk.settle S e.time) := by
      intro c hc heven
      have hc' := hc.settle (S := S) e.time
      have hsame : (c.desk.release S e.key e.time).settle S e.time =
          ((c.desk.settle S e.time).release S e.key e.time).settle S e.time := by
        rw [Desk.settle_release hc.toSteady, Desk.settle_release hc'.toSteady,
          Desk.settle_settle hbot hself hc.toSteady]
      rw [hsame] at heven
      exact heven.left (hc.upholds_settle e.time) ((hc'.upholds_release e.key e.time).trans
        ((hc'.release e.key e.time).upholds_settle e.time))
    have hmid := ((hnow.release (S := S) e.key e.time).tell (S := S) e.time).tell (S := S) u
    refine (((hstep ha).symm.trans hmid).trans (hstep hb)).mono ?_
    rintro ⟨⟨hU, hae, hbe⟩, hau, hbu⟩
    exact ⟨⟨⟨hae, hau⟩, hU, hleft ha hae, hleft hb hbe⟩, hbe, hbu⟩

end Agree

end Ledger

/-! ### Runs -/

/-- What judging is told: an edge, with whether it is an empty press, or the time. -/
inductive Moment where
  | edge (e : Edge) (empty : Bool)
  | time (t : Float)

namespace Moment

/-- When it is told. -/
def instant : Moment → Float
  | .edge e _ => e.time
  | .time t => t

/-- The edge that is told. -/
def edge? : Moment → Option (Edge × Bool)
  | .edge e empty => some (e, empty)
  | .time _ => none

/-- A moment is not later than another one. -/
def Le (m m' : Moment) : Prop := value m.instant ≤ value m'.instant

theorem Le.refl (m : Moment) : Le m m := le_refl (value m.instant)

theorem Le.trans {m m' m'' : Moment} (h : Le m m') (h' : Le m' m'') : Le m m'' := LE.le.trans h h'

/-- Moments in order, from some time on. -/
structure Timed (start : EReal) (l : List Moment) : Prop where
  order : l.Pairwise Le
  number : ∀ m ∈ l, IsNumber m.instant ∧ value m.instant ≠ ⊥
  late : ∀ m ∈ l, start ≤ value m.instant

section Timed

variable {start start' : EReal} {l l' : List Moment} {m m' : Moment}

theorem Timed.first_le (h : Timed start (m :: l)) : ∀ m' ∈ m :: l, Le m m' := by
  intro m' hm
  rcases List.mem_cons.mp hm with rfl | hm
  · exact .refl m'
  · exact (List.pairwise_cons.mp h.order).1 m' hm

theorem Timed.tail (h : Timed start (m :: l)) : Timed (value m.instant) l :=
  ⟨(List.pairwise_cons.mp h.order).2, fun m' hm' => h.number m' (List.mem_cons_of_mem _ hm'),
    fun m' hm' => h.first_le m' (List.mem_cons_of_mem _ hm')⟩

theorem Timed.later (h : Timed start l) (hlate : ∀ m' ∈ l, Le m m') : Timed (value m.instant) l :=
  ⟨h.order, h.number, hlate⟩

theorem Timed.append_left (h : Timed start (l ++ l')) : Timed start l :=
  ⟨(List.pairwise_append.mp h.order).1, fun m hm => h.number m (List.mem_append_left _ hm),
    fun m hm => h.late m (List.mem_append_left _ hm)⟩

/-- A first time is not late for a list of moments with the same edges that begins with an edge. -/
theorem Timed.le_of_edges {t : Float} {e : Edge} {empty : Bool} (h : Timed start (.time t :: l))
    (h' : Timed start' (.edge e empty :: l'))
    (hedges : (Moment.time t :: l).filterMap edge? = (Moment.edge e empty :: l').filterMap edge?) :
    ∀ m ∈ Moment.edge e empty :: l', Le (.time t) m := by
  have hhead : (e, empty) ∈ (Moment.edge e empty :: l').filterMap edge? := by simp [edge?]
  rw [← hedges] at hhead
  obtain ⟨m, hm, he⟩ := List.mem_filterMap.mp hhead
  have hmem : m = .edge e empty := by
    cases m with
    | edge e' empty' =>
        obtain ⟨rfl, rfl⟩ := Prod.mk.inj (Option.some.inj he)
        rfl
    | time t => cases he
  have hle : Le (.time t) (.edge e empty) := hmem ▸ h.first_le m hm
  exact fun m' hm' => hle.trans (h'.first_le m' hm')

end Timed

/-- Which of two lists of moments with the same edges is to be looked at next: one that begins with a time
that is not late for the other, or both, if they begin with the same edge. -/
inductive Heads : List Moment → List Moment → Prop where
  | none : Heads [] []
  | left (t : Float) (l l' : List Moment) (h : ∀ m ∈ l', Le (.time t) m) : Heads (.time t :: l) l'
  | right (t : Float) (l l' : List Moment) (h : ∀ m ∈ l, Le (.time t) m) : Heads l (.time t :: l')
  | both (e : Edge) (empty : Bool) (l l' : List Moment)
      (h : l.filterMap edge? = l'.filterMap edge?) : Heads (.edge e empty :: l) (.edge e empty :: l')

theorem heads {start start' : EReal} {l l' : List Moment} (hl : Timed start l)
    (hl' : Timed start' l') (hedges : l.filterMap edge? = l'.filterMap edge?) : Heads l l' := by
  cases l with
  | nil =>
      cases l' with
      | nil => exact .none
      | cons m' r' =>
          cases m' with
          | edge e empty => simp [edge?] at hedges
          | time t => exact .right t [] r' fun _ h => (nomatch h)
  | cons m r =>
      cases l' with
      | nil =>
          cases m with
          | edge e empty => simp [edge?] at hedges
          | time t => exact .left t r [] fun _ h => (nomatch h)
      | cons m' r' =>
          cases m with
          | time t =>
              cases m' with
              | time t' =>
                  rcases le_total (value t) (value t') with hle | hle
                  · have hfirst : Le (.time t) (.time t') := hle
                    exact .left t r _ fun m hm => hfirst.trans (hl'.first_le m hm)
                  · have hfirst : Le (.time t') (.time t) := hle
                    exact .right t' _ r' fun m hm => hfirst.trans (hl.first_le m hm)
              | edge e empty => exact .left t r _ (hl.le_of_edges hl' hedges)
          | edge e empty =>
              cases m' with
              | time t' => exact .right t' _ r' (hl'.le_of_edges hl hedges.symm)
              | edge e' empty' =>
                  simp only [edge?, List.filterMap_cons, List.cons.injEq, Prod.mk.injEq] at hedges
                  obtain ⟨⟨rfl, rfl⟩, hrest⟩ := hedges
                  exact .both e empty r r' hrest

end Moment

namespace Ledger

/-- The ledger after it is told something. -/
noncomputable def face (S : Sheet) (a : Ledger) : Moment → Ledger
  | .edge e empty => a.edge S e empty
  | .time t => a.tell S t

/-- The ledger after a run of moments. -/
noncomputable def run (S : Sheet) (l : List Moment) (a : Ledger) : Ledger := l.foldl (face S) a

/-- At each of the moments, what time has brought since the one before is only misses or only hits. -/
def EvenRun (S : Sheet) : List Moment → Ledger → Prop
  | [], _ => True
  | .edge e empty :: l, a => a.EvenEdge S e ∧ EvenRun S l (a.edge S e empty)
  | .time t :: l, a => Desk.Even S a.desk (a.desk.settle S t) ∧ EvenRun S l (a.tell S t)

variable {S : Sheet} {a b : Ledger} {start : EReal} {U : Prop}

theorem tidy_edge (h : a.desk.Tidy) (e : Edge) (empty : Bool) : (a.edge S e empty).desk.Tidy := by
  rw [desk_edge]
  exact h.edge e

/-- Ledgers that are told the same edges, each at its own times, come out the same at the same time. -/
theorem AgreeFrom.run {T : Float} {l l' : List Moment} (h : AgreeFrom S start U a b)
    (ha : a.desk.Tidy) (hb : b.desk.Tidy) (hl : Moment.Timed start (l ++ [.time T]))
    (hl' : Moment.Timed start (l' ++ [.time T]))
    (hedges : l.filterMap Moment.edge? = l'.filterMap Moment.edge?) :
    Same (U ∧ EvenRun S (l ++ [.time T]) a ∧ EvenRun S (l' ++ [.time T]) b)
      (a.run S (l ++ [.time T])) (b.run S (l' ++ [.time T])) := by
  induction hlength : l.length + l'.length using Nat.strong_induction_on
    generalizing l l' start U a b with
  | _ n ih =>
  -- A time that comes first in one list, if it is not late for the other list, is not late for its end.
  have hlate : ∀ {t : Float} {r l : List Moment} {s : EReal},
      Moment.Timed s (.time t :: (r ++ [.time T])) → (∀ m ∈ l, Moment.Le (.time t) m) →
        ∀ m ∈ l ++ [.time T], Moment.Le (.time t) m := by
    intro t r l s hr hlater m hm
    rcases List.mem_append.mp hm with hm | hm
    · exact hlater m hm
    · exact hr.first_le m (List.mem_cons_of_mem _ (List.mem_append_right _ hm))
  have hheads := Moment.heads hl.append_left hl'.append_left hedges
  cases hheads with
  | none =>
      have hmem : Moment.time T ∈ [] ++ [Moment.time T] := List.mem_singleton_self _
      obtain ⟨hnumber, hbot⟩ := hl.number (.time T) hmem
      exact (h T hnumber hbot (hl.late (.time T) hmem)).mono
        fun hU => ⟨hU.1, hU.2.1.1, hU.2.2.1⟩
  | left t r l' hlater =>
      rw [List.cons_append] at hl ⊢
      obtain ⟨hnumber, hbot⟩ := hl.number (.time t) List.mem_cons_self
      have htold := h.tell hb hnumber hbot (hl.late (.time t) List.mem_cons_self)
      have hshorter : r.length + l'.length < n := by
        rw [← hlength, List.length_cons]
        omega
      exact (ih _ hshorter htold (ha.settle t) hb hl.tail (hl'.later (hlate hl hlater)) hedges
        rfl).mono fun hU => ⟨⟨hU.1, hU.2.1.1⟩, hU.2.1.2, hU.2.2⟩
  | right t l r hlater =>
      rw [List.cons_append] at hl' ⊢
      obtain ⟨hnumber, hbot⟩ := hl'.number (.time t) List.mem_cons_self
      have htold := (h.symm.tell ha hnumber hbot (hl'.late (.time t) List.mem_cons_self)).symm
      have hshorter : l.length + r.length < n := by
        rw [← hlength, List.length_cons]
        omega
      exact (ih _ hshorter htold ha (hb.settle t) (hl.later (hlate hl' hlater)) hl'.tail hedges
        rfl).mono fun hU => ⟨⟨hU.1, hU.2.2.1⟩, hU.2.1, hU.2.2.2⟩
  | both e empty r r' hrest =>
      rw [List.cons_append] at hl hl' ⊢
      obtain ⟨hnumber, hbot⟩ := hl.number (.edge e empty) List.mem_cons_self
      have htold := h.edge ha hb hnumber hbot (hl.late (.edge e empty) List.mem_cons_self) empty
      have hshorter : r.length + r'.length < n := by
        rw [← hlength, List.length_cons, List.length_cons]
        omega
      exact (ih _ hshorter htold (tidy_edge ha e empty) (tidy_edge hb e empty) hl.tail hl'.tail
        hrest rfl).mono fun hU => ⟨⟨hU.1, hU.2.1.1, hU.2.2.1⟩, hU.2.1.2, hU.2.2.2⟩

end Ledger

end RhythmChart
