import EmacsDir.SpeedbarLaws

/-!
# The paths of a tick

A tick takes one of three paths: it lists another directory, it goes to another file of the same directory, or it does
nothing.  For each path, what the tick does when it returns normally.
-/

namespace EmacsDir

open Command

variable {W : Type}

/-- The file that is remembered, if any, loses its highlight. -/
def unmarkRemembered (sb : Speedbar W) : Option (List Char) → Command Signal (Bar W) Unit
  | some last => unmarkLast sb last
  | none => pure ()

/-- The current file gets the highlight and is shown. -/
def markAndShow (sb : Speedbar W) (table : CaseTable) (current : List Char) : Command Signal (Bar W) Unit := do
  markCurrent sb current
  showCurrent sb table current

theorem onBar_eq_some_iff {α : Type} {c : Command Signal (Bar W) α} {r : Except Signal α} {s s' : SrState W} :
    onBar c s = some (r, s') ↔ ∃ bar, c s.bar = some (r, bar) ∧ s' = { s with bar := bar } := by
  unfold onBar
  constructor
  · intro h
    split at h
    · cases h
    · rename_i r' bar hc
      obtain ⟨hr, rfl⟩ := Prod.mk.inj (Option.some.inj h)
      exact ⟨bar, by rw [hc, hr], rfl⟩
  · rintro ⟨bar, hc, rfl⟩
    rw [hc]

theorem onBar_bind_eq_ok_iff {c : Command Signal (Bar W) Unit} {k : Unit → Command Signal (SrState W) Unit}
    {s s' : SrState W} :
    (onBar c >>= k) s = some (.ok (), s') ↔
      ∃ bar, c s.bar = some (.ok (), bar) ∧ k () { s with bar := bar } = some (.ok (), s') := by
  rw [bind_eq_ok_iff]
  constructor
  · rintro ⟨_, s₁, hc, hk⟩
    obtain ⟨bar, hbar, rfl⟩ := onBar_eq_some_iff.1 hc
    exact ⟨bar, hbar, hk⟩
  · rintro ⟨bar, hc, hk⟩
    exact ⟨(), _, onBar_eq_some_iff.2 ⟨bar, hc, rfl⟩, hk⟩

theorem markAndShow_eq_ok_iff {sb : Speedbar W} {table : CaseTable} {current : List Char} {bar bar' : Bar W} :
    markAndShow sb table current bar = some (.ok (), bar') ↔
      ∃ bar₁, markCurrent sb current bar = some (.ok (), bar₁) ∧
        showCurrent sb table current bar₁ = some (.ok (), bar') := by
  unfold markAndShow
  rw [bind_eq_ok_iff]
  exact ⟨fun ⟨_, bar₁, hm, hs⟩ => ⟨bar₁, hm, hs⟩, fun ⟨bar₁, hm, hs⟩ => ⟨(), bar₁, hm, hs⟩⟩

theorem update_bind (f : SrState W → SrState W) (k : Unit → Command Signal (SrState W) Unit) (s : SrState W) :
    (update f >>= k) s = k () (f s) := rfl

theorem remembered_bind (k : Option (List Char) → Command Signal (SrState W) Unit) (s : SrState W) :
    (gets SrState.lastBufferFilename >>= k) s = k s.lastBufferFilename s := rfl

/-- The path for a changed directory, when it returns normally. -/
theorem directoryChanged_eq_ok_iff {sb : Speedbar W} {table : CaseTable} {t : Tick} {s s' : SrState W} :
    directoryChanged sb table t s = some (.ok (), s') ↔
      ∃ bar₁ bar₂, sb.refresh t.defaultDirectory s.bar = some (.ok (), bar₁) ∧
        unmarkRemembered sb s.lastBufferFilename bar₁ = some (.ok (), bar₂) ∧
        match t.bufferFileName with
        | some current => ∃ bar₃, markAndShow sb table current bar₂ = some (.ok (), bar₃) ∧
          s' = ⟨some t.defaultDirectory, some current, bar₃⟩
        | none => s' = ⟨some t.defaultDirectory, some bar₂.currentBuffer, bar₂⟩ := by
  unfold directoryChanged
  -- the order of the assignments is the only difference
  cases hl : s.lastBufferFilename with
  | none =>
    cases hf : t.bufferFileName with
    | none =>
      simp only [update_bind, remembered_bind, onBar_bind_eq_ok_iff, hl, unmarkRemembered]
      simp [pure_apply, update, eq_comm]
    | some current =>
      simp only [update_bind, remembered_bind, onBar_bind_eq_ok_iff, onBar_eq_some_iff, markAndShow_eq_ok_iff, hl,
        unmarkRemembered]
      simp only [pure_apply, Option.some.injEq, Prod.mk.injEq, true_and]
      grind
  | some last =>
    cases hf : t.bufferFileName with
    | none =>
      simp only [update_bind, remembered_bind, onBar_bind_eq_ok_iff, hl, unmarkRemembered]
      simp [update, eq_comm]
    | some current =>
      simp only [update_bind, remembered_bind, onBar_bind_eq_ok_iff, onBar_eq_some_iff, markAndShow_eq_ok_iff, hl,
        unmarkRemembered]
      grind

/-- The path for another file of the same directory, when it returns normally. -/
theorem fileChanged_eq_ok_iff {sb : Speedbar W} {table : CaseTable} {current : List Char} {s s' : SrState W} :
    fileChanged sb table current s = some (.ok (), s') ↔
      s.lastBufferFilename.isSome = true ∧
      ∃ bar₂ bar₃, unmarkRemembered sb s.lastBufferFilename s.bar = some (.ok (), bar₂) ∧
        markAndShow sb table current bar₂ = some (.ok (), bar₃) ∧
        s' = ⟨s.lastRefreshDictionary, some current, bar₃⟩ := by
  unfold fileChanged
  cases hl : s.lastBufferFilename with
  | none =>
    have hsignal : (signal .wrongTypeArgument : Command Signal (SrState W) Unit) s =
        some (.error .wrongTypeArgument, s) := rfl
    simp only [remembered_bind, hl]
    rw [bind_error hsignal]
    simp
  | some last =>
    simp only [update_bind, remembered_bind, onBar_bind_eq_ok_iff, onBar_eq_some_iff, markAndShow_eq_ok_iff, hl,
      unmarkRemembered]
    grind

/-- The listing that the tick looks its file up in: with a changed directory, the redrawn one. -/
def Redrawn (sb : Speedbar W) (t : Tick) (s : SrState W) (bar : Bar W) : Prop :=
  if t.ChangesDirectory s then
    sb.refresh t.defaultDirectory { s.bar with currentBuffer := t.bufferName } = some (.ok (), bar)
  else
    bar = { s.bar with currentBuffer := t.bufferName }

theorem redrawn_of_changes {sb : Speedbar W} {t : Tick} {s : SrState W} {bar : Bar W} (hd : t.ChangesDirectory s) :
    Redrawn sb t s bar ↔
      sb.refresh t.defaultDirectory { s.bar with currentBuffer := t.bufferName } = some (.ok (), bar) := by
  unfold Redrawn
  rw [if_pos hd]

theorem redrawn_of_same {sb : Speedbar W} {t : Tick} {s : SrState W} {bar : Bar W} (hd : ¬ t.ChangesDirectory s) :
    Redrawn sb t s bar ↔ bar = { s.bar with currentBuffer := t.bufferName } := by
  unfold Redrawn
  rw [if_neg hd]

theorem Redrawn.unique {sb : Speedbar W} {t : Tick} {s : SrState W} {bar bar' : Bar W} (h : Redrawn sb t s bar)
    (h' : Redrawn sb t s bar') : bar = bar' := by
  by_cases hd : t.ChangesDirectory s
  · exact state_unique ((redrawn_of_changes hd).1 h) ((redrawn_of_changes hd).1 h')
  · exact ((redrawn_of_same hd).1 h).trans ((redrawn_of_same hd).1 h').symm

/-- A tick that marks its file: the directory has changed, or the file has. -/
def Tick.Marks (t : Tick) (s : SrState W) (current : List Char) : Prop :=
  t.bufferFileName = some current ∧ (t.ChangesDirectory s ∨ s.lastBufferFilename ≠ some current)

theorem Tick.window_of_file (t : Tick) {current : List Char} (h : t.bufferFileName = some current) :
    t.speedbarWindow = false := by
  cases hw : t.speedbarWindow with
  | false => rfl
  | true =>
    rw [t.window_file hw] at h
    cases h

theorem Tick.same_directory (t : Tick) {s : SrState W} (hw : t.speedbarWindow = false)
    (hd : ¬ t.ChangesDirectory s) : s.lastRefreshDictionary = some t.defaultDirectory := by
  by_cases he : some t.defaultDirectory = s.lastRefreshDictionary
  · exact he.symm
  · exact absurd ⟨he, hw⟩ hd

/-- A tick that leaves its file alone finds nothing changed. -/
theorem Tick.same_of_not_marks (t : Tick) {s : SrState W} {current : List Char}
    (hfile : t.bufferFileName = some current) (h : ¬ t.Marks s current) : ¬ t.ChangesDirectory s ∧ s.lastBufferFilename = some current := by
  refine ⟨fun hd => h ⟨hfile, Or.inl hd⟩, ?_⟩
  by_cases hl : s.lastBufferFilename = some current
  · exact hl
  · exact absurd ⟨hfile, Or.inr hl⟩ h

/-- A tick marks its file, lists another directory without a file, or finds nothing changed. -/
theorem Tick.path_cases (t : Tick) (s : SrState W) :
    (∃ current, t.Marks s current) ∨ (t.ChangesDirectory s ∧ t.bufferFileName = none) ∨
      (¬ t.ChangesDirectory s ∧ ∀ c, t.bufferFileName = some c → s.lastBufferFilename = some c) := by
  cases hfile : t.bufferFileName with
  | none =>
    by_cases hd : t.ChangesDirectory s
    · exact Or.inr (Or.inl ⟨hd, rfl⟩)
    · exact Or.inr (Or.inr ⟨hd, nofun⟩)
  | some current =>
    by_cases hm : t.Marks s current
    · exact Or.inl ⟨current, hm⟩
    · obtain ⟨hd, hl⟩ := t.same_of_not_marks hfile hm
      exact Or.inr (Or.inr ⟨hd, fun c hc => hl.trans hc⟩)

/-- A tick that marks its file, when it returns normally. -/
theorem tick_marks_eq_ok_iff {sb : Speedbar W} {table : CaseTable} {t : Tick} {s s' : SrState W} {current : List Char}
    (h : t.Marks s current) :
    tick sb table t s = some (.ok (), s') ↔
      (t.ChangesDirectory s ∨ s.lastBufferFilename.isSome = true) ∧
      ∃ bar₁ bar₂ bar₃, Redrawn sb t s bar₁ ∧ unmarkRemembered sb s.lastBufferFilename bar₁ = some (.ok (), bar₂) ∧
        markAndShow sb table current bar₂ = some (.ok (), bar₃) ∧
        s' = ⟨some t.defaultDirectory, some current, bar₃⟩ := by
  obtain ⟨hfile, hpath⟩ := h
  have hwindow := t.window_of_file hfile
  unfold tick Redrawn
  rw [update_bind]
  unfold srSpeedbarRefresh
  by_cases hd : t.ChangesDirectory s
  · have hd' : t.ChangesDirectory { s with bar := { s.bar with currentBuffer := t.bufferName } } := hd
    rw [if_pos hd', directoryChanged_eq_ok_iff, hfile]
    simp only [hd, true_or, true_and, if_true]
    grind
  · have hd' : ¬ t.ChangesDirectory { s with bar := { s.bar with currentBuffer := t.bufferName } } := hd
    have hdir := t.same_directory hwindow hd
    have hlast : s.lastBufferFilename ≠ some current := hpath.resolve_left hd
    rw [if_neg hd', hfile]
    simp only [hlast, hwindow, ne_eq, not_false_eq_true, and_self, if_true, fileChanged_eq_ok_iff, hd, false_or, if_false]
    grind

/-- The tick lists another directory, in a buffer without a file. -/
theorem tick_directory_eq_ok_iff {sb : Speedbar W} {table : CaseTable} {t : Tick} {s s' : SrState W}
    (hd : t.ChangesDirectory s) (hfile : t.bufferFileName = none) :
    tick sb table t s = some (.ok (), s') ↔
      ∃ bar₁ bar₂, Redrawn sb t s bar₁ ∧ unmarkRemembered sb s.lastBufferFilename bar₁ = some (.ok (), bar₂) ∧
        s' = ⟨some t.defaultDirectory, some bar₂.currentBuffer, bar₂⟩ := by
  unfold tick Redrawn
  rw [update_bind]
  unfold srSpeedbarRefresh
  have hd' : t.ChangesDirectory { s with bar := { s.bar with currentBuffer := t.bufferName } } := hd
  rw [if_pos hd', directoryChanged_eq_ok_iff, hfile]
  simp only [hd, if_true]

/-- Nothing has changed for the tick. -/
theorem tick_rest {sb : Speedbar W} {table : CaseTable} {t : Tick} {s : SrState W} (hd : ¬ t.ChangesDirectory s)
    (hfile : ∀ c, t.bufferFileName = some c → s.lastBufferFilename = some c) :
    tick sb table t s = some (.ok (), { s with bar := { s.bar with currentBuffer := t.bufferName } }) := by
  unfold tick
  rw [update_bind]
  unfold srSpeedbarRefresh
  have hd' : ¬ t.ChangesDirectory { s with bar := { s.bar with currentBuffer := t.bufferName } } := hd
  rw [if_neg hd']
  cases hf : t.bufferFileName with
  | none => rfl
  | some current => simp [hfile current hf]

/-- A tick that leaves its file alone changes only the current buffer. -/
theorem tick_of_not_marks {sb : Speedbar W} (table : CaseTable) {t : Tick} {s : SrState W} {bar : Bar W}
    {current : List Char} (hfile : t.bufferFileName = some current) (h : ¬ t.Marks s current)
    (hr : Redrawn sb t s bar) :
    bar = { s.bar with currentBuffer := t.bufferName } ∧ tick sb table t s = some (.ok (), { s with bar := bar }) := by
  obtain ⟨hd, hl⟩ := t.same_of_not_marks hfile h
  have hbar := (redrawn_of_same hd).1 hr
  refine ⟨hbar, ?_⟩
  rw [hbar]
  exact tick_rest hd fun c hc => hl.trans (hfile.symm.trans hc)

section Laws

variable {sb : Speedbar W} (laws : SpeedbarLaws sb)

/-- After the lookup of the remembered file its line has no highlight, and the others are as before. -/
theorem unmarkRemembered_carries {bar bar' : Bar W} {last : Option (List Char)}
    (h : unmarkRemembered sb last bar = some (.ok (), bar')) :
    (∀ f, (laws.nameSpan bar'.world f).isSome = (laws.nameSpan bar.world f).isSome) ∧
      (∀ f, Carries laws.nameSpan bar' f ↔ Carries laws.nameSpan bar f ∧ last ≠ some f) ∧
      (bar'.currentBuffer = bar.currentBuffer ∨ bar'.currentBuffer = laws.bufferName) := by
  cases last with
  | none =>
    obtain rfl : bar = bar' := (Prod.mk.inj (Option.some.inj h)).2
    simp
  | some last =>
    obtain ⟨hlisted, hcarries, hbuffer⟩ := unmarkLast_carries laws h
    refine ⟨hlisted, ?_, hbuffer⟩
    intro f
    rw [hcarries, ne_eq, ne_eq, Option.some.injEq, eq_comm]

/-- A listed file that is marked and shown has the highlight, and the other lines are as before. -/
theorem markAndShow_carries {table : CaseTable} {bar bar' : Bar W} {current : List Char}
    (hlisted : (laws.nameSpan bar.world current).isSome = true)
    (h : markAndShow sb table current bar = some (.ok (), bar')) :
    (∀ f, (laws.nameSpan bar'.world f).isSome = (laws.nameSpan bar.world f).isSome) ∧
      ∀ f, Carries laws.nameSpan bar' f ↔ Carries laws.nameSpan bar f ∨ f = current := by
  obtain ⟨bar₁, hmark, hshow⟩ := markAndShow_eq_ok_iff.1 h
  obtain ⟨hlisted₁, hcarries₁⟩ := markCurrent_carries laws hlisted hmark
  obtain ⟨hkept, -⟩ := showCurrent_kept laws hshow
  refine ⟨fun f => (hkept.listed f).trans (hlisted₁ f), ?_⟩
  intro f
  rw [hkept.carries, hcarries₁]

/-- A tick that marks a listed file, when it returns normally: the file is still listed when it is marked. -/
theorem tick_marks_listed {table : CaseTable} {t : Tick} {s s' : SrState W} {bar : Bar W} {current : List Char}
    (hm : t.Marks s current) (hr : Redrawn sb t s bar) (hlisted : (laws.nameSpan bar.world current).isSome = true)
    (h : tick sb table t s = some (.ok (), s')) :
    ∃ bar₂, unmarkRemembered sb s.lastBufferFilename bar = some (.ok (), bar₂) ∧
      (laws.nameSpan bar₂.world current).isSome = true ∧
      markAndShow sb table current bar₂ = some (.ok (), s'.bar) ∧
      s'.lastRefreshDictionary = some t.defaultDirectory ∧ s'.lastBufferFilename = some current := by
  obtain ⟨-, bar₁, bar₂, bar₃, hr₁, hunmark, hshow, rfl⟩ := (tick_marks_eq_ok_iff hm).1 h
  obtain rfl := hr.unique hr₁
  refine ⟨bar₂, hunmark, ?_, hshow, rfl, rfl⟩
  rw [(unmarkRemembered_carries laws hunmark).1, hlisted]

end Laws

end EmacsDir
