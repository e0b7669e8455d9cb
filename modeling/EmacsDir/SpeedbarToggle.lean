import EmacsDir.FoldedListings
import EmacsDir.Runs
import Mathlib.Logic.Basic

/-!
# `sb-toggle-expansion-curren-file`

The command of `init.el` makes a tick, looks up the current file and flips its line.  The tick may signal, and it may
have expanded or contracted the line before it is flipped.  Behind the first call that returns the speedbar is settled
on the file (`Settled`), and every further call in the same buffer returns, flips the line and does nothing else to it.
-/

namespace EmacsDir

open Command

variable {W : Type}

/-- `sb-toggle-expansion-curren-file`, with `speedbar-toggle-line-expansion` as a parameter. -/
def sbToggleExpansionCurrenFile (sb : Speedbar W) (toggleLineExpansion : Command Signal (Bar W) Unit)
    (table : CaseTable) (t : Tick) : Command Signal (SrState W) Unit := do
  tick sb table t
  match t.bufferFileName with
  | some current =>
    let _ ← onBar (sb.findSelectedFile current)
    onBar toggleLineExpansion
  | none => signal .wrongTypeArgument

/-- What is assumed of `speedbar-toggle-line-expansion`, which handles its own errors: it flips the selected line, if
this is expandable, and the listing shows the same files. -/
structure ToggleLaws {sb : Speedbar W} {laws : SpeedbarLaws sb} (folds : FoldLaws laws)
    (toggleLineExpansion : Command Signal (Bar W) Unit) : Prop where
  returns : ∀ bar, ∃ bar', toggleLineExpansion bar = some (.ok (), bar')
  inListing : Preserves (InListing laws.nameSpan) toggleLineExpansion
  listed : ∀ {bar bar'}, toggleLineExpansion bar = some (.ok (), bar') →
    ∀ f, (laws.nameSpan bar'.world f).isSome = (laws.nameSpan bar.world f).isSome
  flips : ∀ {bar bar' f}, toggleLineExpansion bar = some (.ok (), bar') → folds.selected bar.world = some f →
    folds.expandable f → (folds.expanded bar'.world f ↔ ¬ folds.expanded bar.world f)

/-- The tick of the first call leaves the line as it found it, or its file alone. -/
def LeavesLine {sb : Speedbar W} {laws : SpeedbarLaws sb} (folds : FoldLaws laws) (table : CaseTable) (t : Tick)
    (s : SrState W) (bar : Bar W) (current : List Char) : Prop :=
  t.Marks s current → ((ContainsSuffix table current ∨
    (folds.expanded bar.world current ∧ s.lastBufferFilename ≠ some current)) ↔ folds.expanded s.bar.world current)

/-- The directory and the file of the tick are remembered, and the file is listed. -/
structure Settled {sb : Speedbar W} (laws : SpeedbarLaws sb) (t : Tick) (current : List Char) (s : SrState W) :
    Prop where
  dictionary : s.lastRefreshDictionary = some t.defaultDirectory
  filename : s.lastBufferFilename = some current
  listed : (laws.nameSpan s.bar.world current).isSome = true

section Laws

variable {sb : Speedbar W} {laws : SpeedbarLaws sb} {folds : FoldLaws laws}
variable (view : ViewLaws laws)
variable {toggleLineExpansion : Command Signal (Bar W) Unit} (toggles : ToggleLaws folds toggleLineExpansion)
variable {table : CaseTable} {t : Tick} {s s' : SrState W} {bar : Bar W} {current : List Char}

theorem Settled.not_changesDirectory (h : Settled laws t current s) : ¬ t.ChangesDirectory s :=
  fun hd => hd.1 h.dictionary.symm

theorem tick_settles (hfile : t.bufferFileName = some current) (hr : Redrawn sb t s bar)
    (hlisted : (laws.nameSpan bar.world current).isSome = true) (h : tick sb table t s = some (.ok (), s')) :
    Settled laws t current s' := by
  by_cases hm : t.Marks s current
  · obtain ⟨bar₂, -, hlisted₂, hshow, hdict, hlast⟩ := tick_marks_listed laws hm hr hlisted h
    refine ⟨hdict, hlast, ?_⟩
    rw [(markAndShow_carries laws hlisted₂ hshow).1, hlisted₂]
  · obtain ⟨hd, hl⟩ := t.same_of_not_marks hfile hm
    obtain rfl := state_unique (tick_of_not_marks table hfile hm hr).2 h
    exact ⟨t.same_directory (t.window_of_file hfile) hd, hl, hlisted⟩

/-- What the tick of a call does to the current file's line. -/
theorem tick_line (table : CaseTable) {s₁ : SrState W} (hfile : t.bufferFileName = some current)
    (hr : Redrawn sb t s bar) (hlisted : (laws.nameSpan bar.world current).isSome = true) (he : folds.expandable current)
    (h : tick sb table t s = some (.ok (), s₁)) :
    (folds.expanded s₁.bar.world current ↔ folds.expanded s.bar.world current) ↔
      LeavesLine folds table t s bar current := by
  unfold LeavesLine
  by_cases hm : t.Marks s current
  · rw [tick_expanded folds hm hr hlisted h]
    simp only [hm, he, true_and, and_true, forall_const]
    rw [or_comm]
  · obtain ⟨rfl, hrest⟩ := tick_of_not_marks table hfile hm hr
    obtain rfl := state_unique hrest h
    simp [hm]

include view in
/-- The tick of a call returns if it leaves its file alone or can show it. -/
theorem call_tick_returns_iff (table : CaseTable) (hfile : t.bufferFileName = some current) (hr : Redrawn sb t s bar)
    (hlisted : (laws.nameSpan bar.world current).isSome = true) (hin : InListing laws.nameSpan bar) :
    (∃ s₁, tick sb table t s = some (.ok (), s₁)) ↔ (t.Marks s current → t.CanShow sb s bar) := by
  by_cases hm : t.Marks s current
  · rw [tick_returns_iff view hm hr hlisted hin]
    simp [hm]
  · simp [hm, (tick_of_not_marks table hfile hm hr).2]

include toggles

/-- Behind its tick a call returns: the file is listed, so its line is selected and flipped. -/
theorem call_flips (hfile : t.bufferFileName = some current) (he : folds.expandable current) {s₁ : SrState W}
    (h₁ : tick sb table t s = some (.ok (), s₁)) (hs : Settled laws t current s₁) :
    ∃ s', sbToggleExpansionCurrenFile sb toggleLineExpansion table t s = some (.ok (), s') ∧
      Settled laws t current s' ∧ (folds.expanded s'.bar.world current ↔ ¬ folds.expanded s₁.bar.world current) := by
  obtain ⟨bar₁, hfind, -, hworld, -⟩ := laws.find current s₁.bar
  rw [hs.listed] at hfind
  obtain ⟨hsame, hsel⟩ := folds.find hfind
  have hbar : onBar (sb.findSelectedFile current) s₁ = some (.ok true, { s₁ with bar := bar₁ }) :=
    onBar_eq_some_iff.2 ⟨bar₁, hfind, rfl⟩
  obtain ⟨bar₂, htoggle⟩ := toggles.returns bar₁
  refine ⟨{ s₁ with bar := bar₂ }, ?_, ⟨hs.dictionary, hs.filename, ?_⟩, ?_⟩
  · unfold sbToggleExpansionCurrenFile
    rw [bind_ok h₁, hfile]
    dsimp only
    rw [bind_ok hbar]
    exact onBar_eq_some_iff.2 ⟨bar₂, htoggle, rfl⟩
  · rw [toggles.listed htoggle, ← hs.listed, ← hworld]
  · rw [toggles.flips htoggle (hsel rfl) he, hsame]

/-- Behind the first call, a call returns and flips the line. -/
theorem settled_call (hs : Settled laws t current s) (hfile : t.bufferFileName = some current)
    (he : folds.expandable current) :
    ∃ s', sbToggleExpansionCurrenFile sb toggleLineExpansion table t s = some (.ok (), s') ∧
      Settled laws t current s' ∧ (folds.expanded s'.bar.world current ↔ ¬ folds.expanded s.bar.world current) := by
  have hm : ¬ t.Marks s current := by
    rintro ⟨-, hd | hl⟩
    · exact hs.not_changesDirectory hd
    · exact hl hs.filename
  have hr : Redrawn sb t s { s.bar with currentBuffer := t.bufferName } :=
    (redrawn_of_same hs.not_changesDirectory).2 rfl
  have htick := (tick_of_not_marks table hfile hm hr).2
  have hcall := call_flips toggles hfile he htick (tick_settles hfile hr hs.listed htick)
  exact hcall

/-- Every further call returns and flips the line once. -/
theorem settled_calls (hs : Settled laws t current s) (hfile : t.bufferFileName = some current)
    (he : folds.expandable current) (n : Nat) :
    ∃ s', times (sbToggleExpansionCurrenFile sb toggleLineExpansion table t) n s = some (.ok (), s') ∧
      (folds.expanded s'.bar.world current ↔ (folds.expanded s.bar.world current ↔ n % 2 = 0)) := by
  induction n generalizing s with
  | zero => exact ⟨s, rfl, by simp⟩
  | succ n ih =>
    obtain ⟨s₁, h₁, hs₁, hflip⟩ := settled_call toggles hs hfile he
    obtain ⟨s', hrun, hexpanded⟩ := ih hs₁
    have hpar : (n + 1) % 2 = 0 ↔ ¬ n % 2 = 0 := by omega
    refine ⟨s', bind_eq_ok_iff.2 ⟨(), s₁, h₁, hrun⟩, ?_⟩
    rw [hexpanded, hflip, hpar]
    grind

include view

/-- However a call ends, the names are still in the listing. -/
theorem preserves_sbToggleExpansionCurrenFile (table : CaseTable) (t : Tick) :
    Preserves (fun s => InListing laws.nameSpan s.bar)
      (sbToggleExpansionCurrenFile sb toggleLineExpansion table t) := by
  refine (preserves_tick view table t).bind fun _ => ?_
  cases t.bufferFileName with
  | none => exact preserves_signal _
  | some current =>
    exact (preserves_onBar (preserves_findSelectedFile current)).bind fun _ => preserves_onBar toggles.inListing

/-- The names are in the listing in every state that is reached by ticks and calls, whether they return or signal, if
they are at the start, as in an empty listing. -/
theorem inListing_run {start : SrState W} {u : List Tick} (hstart : InListing laws.nameSpan start.bar)
    (hrun : Runs (fun s t s' => ∃ r, tick sb table t s = some (r, s') ∨
      sbToggleExpansionCurrenFile sb toggleLineExpansion table t s = some (r, s')) start u s) :
    InListing laws.nameSpan s.bar := by
  refine hrun.invariant (fun s => InListing laws.nameSpan s.bar) hstart ?_
  rintro s t s' hin ⟨r, h | h⟩
  · exact preserves_tick view table t _ _ _ h hin
  · exact preserves_sbToggleExpansionCurrenFile view toggles table t _ _ _ h hin

/-- A call from the buffer of a listed file with an expandable line returns and flips the line if and only if its tick
returns and leaves the line as it found it.  Two calls return and leave the line as it was under the same condition, and
behind a call that returns every further call returns and flips the line. -/
theorem sbToggleExpansionCurrenFile_iff (table : CaseTable) (hfile : t.bufferFileName = some current)
    (hr : Redrawn sb t s bar) (hlisted : (laws.nameSpan bar.world current).isSome = true)
    (he : folds.expandable current) (hin : InListing laws.nameSpan s.bar) :
    ((∃ s', sbToggleExpansionCurrenFile sb toggleLineExpansion table t s = some (.ok (), s') ∧
        (folds.expanded s'.bar.world current ↔ ¬ folds.expanded s.bar.world current)) ↔
      (t.Marks s current → t.CanShow sb s bar) ∧ LeavesLine folds table t s bar current) ∧
    ((∃ s' s'', sbToggleExpansionCurrenFile sb toggleLineExpansion table t s = some (.ok (), s') ∧
        sbToggleExpansionCurrenFile sb toggleLineExpansion table t s' = some (.ok (), s'') ∧
        (folds.expanded s''.bar.world current ↔ folds.expanded s.bar.world current)) ↔
      (t.Marks s current → t.CanShow sb s bar) ∧ LeavesLine folds table t s bar current) ∧
    ∀ s', sbToggleExpansionCurrenFile sb toggleLineExpansion table t s = some (.ok (), s') →
      ∀ n, ∃ s'', times (sbToggleExpansionCurrenFile sb toggleLineExpansion table t) n s' = some (.ok (), s'') ∧
        (folds.expanded s''.bar.world current ↔ (folds.expanded s'.bar.world current ↔ n % 2 = 0)) := by
  rw [← call_tick_returns_iff view table hfile hr hlisted (inListing_redrawn view hr hin)]
  -- a call that returns has made its tick, and one whose tick returns returns
  have hcall : ∀ {s'}, sbToggleExpansionCurrenFile sb toggleLineExpansion table t s = some (.ok (), s') →
      (∃ s₁, tick sb table t s = some (.ok (), s₁)) ∧ Settled laws t current s' ∧
        ((folds.expanded s'.bar.world current ↔ ¬ folds.expanded s.bar.world current) ↔
          LeavesLine folds table t s bar current) := by
    intro s' h
    obtain ⟨_, s₁, h₁, -⟩ := bind_eq_ok_iff.1 h
    obtain ⟨s₂, h₂, hs₂, hflip⟩ := call_flips toggles hfile he h₁ (tick_settles hfile hr hlisted h₁)
    obtain rfl := state_unique h₂ h
    refine ⟨⟨s₁, h₁⟩, hs₂, ?_⟩
    rw [← tick_line table hfile hr hlisted he h₁, hflip]
    exact not_iff_not
  have hreturns : ∀ {s₁}, tick sb table t s = some (.ok (), s₁) →
      ∃ s', sbToggleExpansionCurrenFile sb toggleLineExpansion table t s = some (.ok (), s') := by
    intro s₁ h₁
    obtain ⟨s', h, -⟩ := call_flips toggles hfile he h₁ (tick_settles hfile hr hlisted h₁)
    exact ⟨s', h⟩
  refine ⟨⟨?_, ?_⟩, ⟨?_, ?_⟩, ?_⟩
  · rintro ⟨s', h, hflip⟩
    obtain ⟨htick, -, hline⟩ := hcall h
    exact ⟨htick, hline.1 hflip⟩
  · rintro ⟨⟨s₁, h₁⟩, hline⟩
    obtain ⟨s', h⟩ := hreturns h₁
    exact ⟨s', h, (hcall h).2.2.2 hline⟩
  · rintro ⟨s', s'', h, h', hsame⟩
    obtain ⟨htick, hs', hline⟩ := hcall h
    obtain ⟨s₂, h₂, -, hflip⟩ := settled_call toggles hs' hfile he
    obtain rfl := state_unique h₂ h'
    refine ⟨htick, hline.1 ?_⟩
    rw [← hsame, hflip, Classical.not_not]
  · rintro ⟨⟨s₁, h₁⟩, hline⟩
    obtain ⟨s', h⟩ := hreturns h₁
    obtain ⟨-, hs', hiff⟩ := hcall h
    obtain ⟨s'', h', -, hflip⟩ := settled_call toggles hs' hfile he
    refine ⟨s', s'', h, h', ?_⟩
    rw [hflip, hiff.2 hline, Classical.not_not]
  · intro s' h n
    exact settled_calls toggles (hcall h).2.1 hfile he n

end Laws

/-- The expanded files with one file flipped. -/
def flipLine (f : List Char) (expanded : List (List Char)) : List (List Char) :=
  if f ∈ expanded then expanded.filter (· ≠ f) else f :: expanded

theorem mem_flipLine {f : List Char} {expanded : List (List Char)} : f ∈ flipLine f expanded ↔ f ∉ expanded := by
  unfold flipLine
  split
  · simp [*]
  · simp [*]

/-- The toggle of the speedbar with expanded lines. -/
def foldingToggle (files : List Char → List (List Char)) (name : List Char) : Command Signal (Bar Folds) Unit :=
  fun bar =>
    match bar.world.selectedLine files with
    | some f => some (.ok (), ⟨bar.shown, none, name, { bar.world with expanded := flipLine f bar.world.expanded }⟩)
    | none => some (.ok (), { bar with currentBuffer := name })

theorem foldingToggle_laws (files : List Char → List (List Char)) (name : List Char) (hname : ∀ d, name ∉ files d) :
    ToggleLaws (foldingFolds files name hname) (foldingToggle files name) where
  returns bar := by
    unfold foldingToggle
    split
    · exact ⟨_, rfl⟩
    · exact ⟨_, rfl⟩
  inListing bar r bar' h hin := by
    unfold foldingToggle at h
    split at h
    · cases h
      exact hin
    · cases h
      exact hin
  listed {bar bar'} h f := by
    unfold foldingToggle at h
    split at h
    · cases h
      rfl
    · cases h
      rfl
  flips {bar bar' f} h hsel _ := by
    have hmem := Folds.selectedLine_mem files hsel
    unfold foldingToggle at h
    rw [show bar.world.selectedLine files = some f from hsel] at h
    cases h
    have hflip : f ∈ flipLine f bar.world.expanded ↔ f ∉ bar.world.expanded := mem_flipLine
    show f ∈ flipLine f bar.world.expanded ∧ f ∈ files bar.world.directory ↔ ¬ (f ∈ bar.world.expanded ∧ _)
    rw [hflip]
    exact ⟨fun h h' => h.1 h'.1, fun h => ⟨fun hf => h ⟨hf, hmem⟩, hmem⟩⟩

/-- The toggle of the speedbar on `/a/`. -/
def sourceToggle : Command Signal (Bar Folds) Unit := foldingToggle sourceDirectory speedbarName

theorem sourceToggle_laws : ToggleLaws sourceFolds sourceToggle :=
  foldingToggle_laws sourceDirectory speedbarName speedbarName_notMem_source

/-- The call of the command in a file of `/a/`. -/
def sourceCall (file : List Char) : Command Signal (SrState Folds) Unit :=
  sbToggleExpansionCurrenFile sourceSpeedbar sourceToggle asciiTable (fileTick ['/', 'a', '/'] file)

/-- After a tick in the source file, whose line it has expanded. -/
def afterSource : SrState Folds where
  lastRefreshDictionary := some ['/', 'a', '/']
  lastBufferFilename := some ['/', 'a', '/', 'm', '.', 'e', 'l']
  bar := ⟨[⟨0, .currentBuffer⟩, ⟨1, .file⟩], none, speedbarName,
    ⟨⟨['/', 'a', '/'], []⟩, some ['/', 'a', '/', 'm', '.', 'e', 'l'], [['/', 'a', '/', 'm', '.', 'e', 'l']]⟩⟩

/-- After a call in the source file that has contracted its line. -/
def afterContract : SrState Folds where
  lastRefreshDictionary := some ['/', 'a', '/']
  lastBufferFilename := some ['/', 'a', '/', 'm', '.', 'e', 'l']
  bar := ⟨[⟨0, .currentBuffer⟩, ⟨1, .file⟩], none, speedbarName,
    ⟨⟨['/', 'a', '/'], []⟩, some ['/', 'a', '/', 'm', '.', 'e', 'l'], []⟩⟩

/-- A call after the tick contracts the line of the source file. -/
theorem sbToggleExpansionCurrenFile_after_tick :
    sourceCall ['/', 'a', '/', 'm', '.', 'e', 'l'] afterSource = some (.ok (), afterContract) ∧
      (sourceFolds.expanded afterContract.bar.world ['/', 'a', '/', 'm', '.', 'e', 'l'] ↔
        ¬ sourceFolds.expanded afterSource.bar.world ['/', 'a', '/', 'm', '.', 'e', 'l']) := by
  have hcall : sourceCall ['/', 'a', '/', 'm', '.', 'e', 'l'] afterSource = some (.ok (), afterContract) := rfl
  have hm : ¬ (fileTick ['/', 'a', '/'] ['/', 'a', '/', 'm', '.', 'e', 'l']).Marks afterSource
      ['/', 'a', '/', 'm', '.', 'e', 'l'] := by
    rintro ⟨-, hd | hl⟩
    · exact hd.1 rfl
    · exact hl rfl
  have hr : Redrawn sourceSpeedbar (fileTick ['/', 'a', '/'] ['/', 'a', '/', 'm', '.', 'e', 'l']) afterSource
      { afterSource.bar with currentBuffer := ['/', 'a', '/', 'm', '.', 'e', 'l'] } :=
    (redrawn_of_same fun hd => hd.1 rfl).2 rfl
  have hin : InListing sourceLaws.nameSpan afterSource.bar := fun f a b hspan => listedSpan_le sourceDirectory hspan
  have hiff := sbToggleExpansionCurrenFile_iff sourceView sourceToggle_laws asciiTable rfl hr rfl trivial hin
  obtain ⟨s', h, hflip⟩ := hiff.1.2 ⟨fun h => absurd h hm, fun h => absurd h hm⟩
  obtain rfl := state_unique hcall h
  exact ⟨hcall, hflip⟩

/-- The first call of all, in the source file: the tick expands the line and the toggle contracts it. -/
theorem sbToggleExpansionCurrenFile_first :
    sourceCall ['/', 'a', '/', 'm', '.', 'e', 'l'] beforeFolds = some (.ok (), afterContract) ∧
      ¬ (sourceFolds.expanded afterContract.bar.world ['/', 'a', '/', 'm', '.', 'e', 'l'] ↔
        ¬ sourceFolds.expanded beforeFolds.bar.world ['/', 'a', '/', 'm', '.', 'e', 'l']) := by
  refine ⟨rfl, ?_⟩
  intro h
  have hbefore : ¬ sourceFolds.expanded beforeFolds.bar.world ['/', 'a', '/', 'm', '.', 'e', 'l'] := by
    rintro ⟨hmem, -⟩
    cases hmem
  obtain ⟨hmem, -⟩ := h.2 hbefore
  cases hmem

end EmacsDir
