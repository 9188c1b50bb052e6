import RhythmChart.Config
import RhythmChart.Proofs.Bindings
import RhythmChart.Proofs.Sections

/-! # Configurations that are written and read

The settings text of a configuration configures the same again.

Main statements.

* `Config.readable_ofIni`: what every configuration that is read has in common;
* `Config.ofText_text`: such a configuration is read back from its settings text;
* `Config.ofText_text_ofText`: so reading, writing and reading is no more than reading. -/

namespace RhythmChart

open Number Text

/-! ### Windows -/

theorem Number.raise_raise (floor x : Float) : raise floor (raise floor x) = raise floor x := by
  unfold raise
  split_ifs <;> rfl

theorem IsLength.raise {floor x : Float} (hfloor : IsLength floor) (hx : IsLength x) :
    IsLength (raise floor x) := by
  unfold Number.raise
  split_ifs
  · exact hx
  · exact hfloor

namespace Windows

/-- All times of the windows. -/
def times (w : Windows) : List Float :=
  [w.enter, w.cooldown, w.exit, w.fixed, w.holdEarly, w.holdGrace, w.patched]

/-- Windows in order stay as they are. -/
theorem clamped_clamped (w : Windows) : w.clamped.clamped = w.clamped := by
  simp only [clamped, raise_raise]

/-- Putting windows into order keeps their times finite and not negative. -/
theorem isLength_times_clamped {w : Windows} (h : ∀ x ∈ w.times, IsLength x) :
    ∀ x ∈ w.clamped.times, IsLength x := by
  simp only [times, List.forall_mem_cons] at h ⊢
  obtain ⟨henter, hcooldown, hexit, hfixed, hearly, hgrace, hpatched, -⟩ := h
  have hzero : IsLength 0.0 := by decide +kernel
  have hfixed := hzero.raise hfixed
  have hpatched := hfixed.raise hpatched
  have hexit := hpatched.raise hexit
  exact ⟨hexit.raise henter, hzero.raise hcooldown, hexit, hfixed, hzero.raise hearly, hzero.raise hgrace,
    hpatched, nofun⟩

end Windows

namespace Config

/-! ### What is read -/

/-- What a configuration that was read has: finite numbers in their ranges, windows in order, and
bindings that can be read again. -/
structure Readable (c : Config) : Prop where
  speed : 0.0 < c.speed ∧ c.speed.isFinite = true
  start : c.start.isFinite = true
  tickRate : 1 ≤ c.tickRate ∧ c.tickRate ≤ 10000
  ordered : c.windows.clamped = c.windows
  times : ∀ x ∈ c.windows.times, IsLength x
  keymap : c.keymap.Readable

theorem isLength_seconds (d : Ini) (key : String) {default : Float} (h : IsLength default) :
    IsLength (seconds d key default) := by
  unfold seconds
  cases hread : (number? d "Timing" key).filter fun x => x.isFinite && decide (0.0 ≤ x) with
  | none => exact h
  | some x =>
      obtain ⟨hfinite, hnonneg⟩ := (Bool.and_eq_true _ _).mp (Option.filter_eq_some_iff.mp hread).2
      exact ⟨of_decide_eq_true hnonneg, hfinite⟩

/-- A configuration that is read can be read again. -/
theorem readable_ofIni (d : Ini) : (ofIni d).Readable where
  speed := by
    unfold ofIni
    dsimp only
    cases hread : (number? d "Playback" "Speed").filter fun x => x.isFinite && decide (0.0 < x) with
    | none => decide +kernel
    | some x =>
        obtain ⟨hfinite, hpos⟩ := (Bool.and_eq_true _ _).mp (Option.filter_eq_some_iff.mp hread).2
        exact ⟨of_decide_eq_true hpos, hfinite⟩
  start := by
    unfold ofIni
    dsimp only
    cases hread : (number? d "Playback" "StartOffsetSeconds").filter Float.isFinite with
    | none => decide +kernel
    | some x => exact (Option.filter_eq_some_iff.mp hread).2
  tickRate := by
    unfold ofIni tickRate?
    dsimp only
    cases (value? d "Playback" "TickRate").bind count? with
    | none => decide
    | some n => exact ⟨le_max_left _ _, max_le (by decide) (min_le_right _ _)⟩
  ordered := Windows.clamped_clamped _
  times := by
    refine Windows.isLength_times_clamped ?_
    simp only [Windows.times, List.forall_mem_cons]
    refine ⟨?_, ?_, ?_, ?_, ?_, ?_, ?_, nofun⟩ <;> exact isLength_seconds _ _ (by decide +kernel)
  keymap := by
    unfold ofIni
    dsimp only
    split
    · next keys hread =>
      obtain ⟨list, -, hkeys⟩ := Option.bind_eq_some_iff.mp hread
      exact Keymap.readable_of_read? hkeys
    · exact Keymap.readable_standard

/-- All numbers with a fraction. -/
def numbers (c : Config) : List Float := c.speed :: c.start :: c.windows.times

/-! ### What is written -/

/-- The sections of the settings text of a configuration. -/
def sections (c : Config) : List (List Char × List (List Char × List Char)) :=
  [("Options".toList, [("LogLevel".toList, c.logLevel.name.toList)]),
    ("Playback".toList,
      [("Speed".toList, positional c.speed), ("StartOffsetSeconds".toList, positional c.start),
        ("TickRate".toList, naturalText c.tickRate)]),
    ("Timing".toList,
      [("EnterWindowSeconds".toList, positional c.windows.enter),
        ("ErrorCooldownSeconds".toList, positional c.windows.cooldown),
        ("ExitWindowSeconds".toList, positional c.windows.exit),
        ("FixedWindowSeconds".toList, positional c.windows.fixed),
        ("HoldEarlyReleaseSeconds".toList, positional c.windows.holdEarly),
        ("HoldGraceSeconds".toList, positional c.windows.holdGrace),
        ("PatchedWindowSeconds".toList, positional c.windows.patched)]),
    ("Keymaps".toList, [("Judge".toList, c.keymap.text)])]

theorem text_eq (c : Config) : c.text = Ini.text c.sections := by
  have hend : "]\n".toList = [']', '\n'] := rfl
  unfold Config.text Ini.text sections
  simp only [sectionText, entry, Ini.sectionLines, hend, List.flatMap_cons, List.flatMap_nil, List.map_cons,
    List.map_nil, List.flatten_cons, List.flatten_nil, List.cons_append, List.nil_append, List.append_assoc,
    List.append_nil]

variable {c : Config} (h : c.Readable)

theorem solid_positional {x : Float} (hx : x.isFinite = true) : Solid (positional x) :=
  solid_of_isNumberChar (isNumberChar_positional hx).2

include h

/-- The settings text of a configuration can be read. -/
theorem Readable.writable : Ini.Writable c.sections where
  names := by
    change ∀ name ∈ ["Options".toList, "Playback".toList, "Timing".toList, "Keymaps".toList], IsName name
    decide
  entries := by
    simp only [sections, List.forall_mem_cons]
    refine ⟨⟨?_, ?_, ?_⟩, ⟨?_, ?_, ?_⟩, ⟨?_, ?_, ?_⟩, ⟨?_, ?_, ?_⟩, nofun⟩
    · change ∀ key ∈ ["LogLevel".toList], IsName key
      decide
    · cases c.logLevel <;> decide
    · exact List.nodup_singleton _
    · change ∀ key ∈ ["Speed".toList, "StartOffsetSeconds".toList, "TickRate".toList], IsName key
      decide
    · simp only [List.map_cons, List.map_nil, List.forall_mem_cons]
      exact ⟨solid_positional h.speed.2, solid_positional h.start,
        solid_of_isNumberChar isNumberChar_naturalText, nofun⟩
    · change ["Speed".toList, "StartOffsetSeconds".toList, "TickRate".toList].Nodup
      decide
    · change ∀ key ∈ ["EnterWindowSeconds".toList, "ErrorCooldownSeconds".toList,
        "ExitWindowSeconds".toList, "FixedWindowSeconds".toList, "HoldEarlyReleaseSeconds".toList,
        "HoldGraceSeconds".toList, "PatchedWindowSeconds".toList], IsName key
      decide
    · change ∀ value ∈ c.windows.times.map positional, Solid value
      exact List.forall_mem_map.mpr fun x hx => solid_positional (h.times x hx).2
    · change ["EnterWindowSeconds".toList, "ErrorCooldownSeconds".toList,
        "ExitWindowSeconds".toList, "FixedWindowSeconds".toList, "HoldEarlyReleaseSeconds".toList,
        "HoldGraceSeconds".toList, "PatchedWindowSeconds".toList].Nodup
      decide
    · change ∀ key ∈ ["Judge".toList], IsName key
      decide
    · exact List.forall_mem_singleton.mpr h.keymap.solid_text
    · exact List.nodup_singleton _
  nodup := by
    change ["Options".toList, "Playback".toList, "Timing".toList, "Keymaps".toList].Nodup
    decide

/-- What is read for a key is what was written for it. -/
theorem Readable.value?_text (name key : String) :
    value? (Ini.ofText c.text) name key =
      (c.sections.lookup name.toList).bind fun entries => entries.lookup key.toList := by
  unfold value? Ini.get? Ini.section?
  rw [c.text_eq, Ini.sections_ofText_text h.writable]

/-- A number is read back from its entry. -/
theorem Readable.number?_text (name key : String) {x : Float} (hx : x.isFinite = true)
    (hentry : ((c.sections.lookup name.toList).bind fun entries => entries.lookup key.toList) =
      some (positional x)) : number? (Ini.ofText c.text) name key = some x := by
  rw [number?, h.value?_text, hentry]
  exact float?_positional hx

/-- The windows are read back. -/
theorem Readable.windowsOf_text : windowsOf (Ini.ofText c.text) = c.windows := by
  have hseconds : ∀ (key : String) {x : Float} (default : Float), x ∈ c.windows.times →
      ((c.sections.lookup "Timing".toList).bind fun entries => entries.lookup key.toList) =
        some (positional x) → seconds (Ini.ofText c.text) key default = x := by
    intro key x default hx hentry
    rw [seconds, h.number?_text _ _ (h.times x hx).2 hentry, (h.times x hx).filter_some]
    rfl
  have hmem : ∀ x ∈ c.windows.times, x ∈ c.windows.times := fun _ hx => hx
  simp only [Windows.times, List.forall_mem_cons] at hmem
  obtain ⟨henter, hcooldown, hexit, hfixed, hearly, hgrace, hpatched, -⟩ := hmem
  unfold windowsOf
  dsimp only
  rw [hseconds "EnterWindowSeconds" _ henter rfl, hseconds "ExitWindowSeconds" _ hexit rfl,
    hseconds "PatchedWindowSeconds" _ hpatched rfl, hseconds "FixedWindowSeconds" _ hfixed rfl,
    hseconds "HoldGraceSeconds" _ hgrace rfl, hseconds "HoldEarlyReleaseSeconds" _ hearly rfl,
    hseconds "ErrorCooldownSeconds" _ hcooldown rfl]
  exact h.ordered

/-- A configuration is read back from its settings text. -/
theorem Readable.ofText_text : ofText c.text = c := by
  have hlevel : (value? (Ini.ofText c.text) "Options" "LogLevel").bind LogLevel.ofName? =
      some c.logLevel := by
    rw [h.value?_text]
    change LogLevel.ofName? c.logLevel.name.toList = _
    cases c.logLevel <;> decide
  have hspeed : (number? (Ini.ofText c.text) "Playback" "Speed").filter (fun x =>
      x.isFinite && decide (0.0 < x)) = some c.speed := by
    rw [h.number?_text "Playback" "Speed" h.speed.2 rfl]
    exact Option.filter_eq_some_iff.mpr ⟨rfl, by simp [h.speed.1, h.speed.2]⟩
  have hstart : (number? (Ini.ofText c.text) "Playback" "StartOffsetSeconds").filter Float.isFinite =
      some c.start := by
    rw [h.number?_text "Playback" "StartOffsetSeconds" h.start rfl]
    exact Option.filter_eq_some_iff.mpr ⟨rfl, h.start⟩
  have hrate : tickRate? (Ini.ofText c.text) = some c.tickRate := by
    rw [tickRate?, h.value?_text]
    change (count? (naturalText c.tickRate)).map _ = _
    rw [count?_naturalText (h.tickRate.2.trans (by decide)), Option.map_some, min_eq_left h.tickRate.2,
      max_eq_right h.tickRate.1]
  have hkeymap : (value? (Ini.ofText c.text) "Keymaps" "Judge").bind Keymap.read? =
      some c.keymap.judge := by
    rw [h.value?_text]
    exact h.keymap.read?_text
  unfold ofText ofIni
  rw [hlevel, hspeed, hstart, hrate, hkeymap, h.windowsOf_text]
  rfl

omit h in
/-- Reading, writing and reading is no more than reading, and all numbers of a configuration that is
read are finite. -/
theorem ofText_text_ofText (text : List Char) :
    ofText (ofText text).text = ofText text ∧ ∀ x ∈ (ofText text).numbers, x.isFinite = true := by
  have h := readable_ofIni (Ini.ofText text)
  refine ⟨h.ofText_text, List.forall_mem_cons.mpr ⟨h.speed.2, List.forall_mem_cons.mpr ⟨h.start, ?_⟩⟩⟩
  exact fun x hx => (h.times x hx).2

end Config

end RhythmChart
