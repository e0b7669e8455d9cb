import EmacsDir.Runs
import EmacsDir.SavedListings
import EmacsDir.SpeedbarTick

/-!
# The highlight over whole runs

A tick takes the highlight from the remembered file's line if the listing shows this file, and gives it to its own
file's line.  Whatever else the redrawn listing shows with the highlight keeps it, so a listing that comes back with
an old highlight ends up with two.  Without such listings (`Harmless`) there is one highlight after every run, and
it is the current file's.
-/

namespace EmacsDir

open Command

section Ticks

variable {W : Type} {sb : Speedbar W} (laws : SpeedbarLaws sb) (table : CaseTable)

/-- One line at most has the highlight, and after a tick in a file's buffer it is this file's. -/
def Highlighted (t : Tick) (bar : Bar W) : Prop :=
  (∀ f g, Carries laws.nameSpan bar f → Carries laws.nameSpan bar g → f = g) ∧
    ∀ current, t.bufferFileName = some current → ∀ g, Carries laws.nameSpan bar g ↔ g = current

/-- A tick that returns normally, in a buffer whose file, if any, is listed in its directory. -/
structure TickStep (s : SrState W) (t : Tick) (s' : SrState W) : Prop where
  returns : tick sb table t s = some (.ok (), s')
  listed : ∀ current, t.bufferFileName = some current → laws.files t.defaultDirectory current

/-- In the listing that the tick works on, the highlight is only on the remembered file's line and on that of the
current file; without a current file, on one more line, and the buffer is not named like a listed file. -/
structure Harmless (s : SrState W) (t : Tick) : Prop where
  file : ∀ bar current, Redrawn sb t s bar → t.Marks s current →
    ∀ g, Carries laws.nameSpan bar g → s.lastBufferFilename = some g ∨ g = current
  noFile : ∀ bar, Redrawn sb t s bar → t.ChangesDirectory s → t.bufferFileName = none →
    ∀ f g, Carries laws.nameSpan bar f → Carries laws.nameSpan bar g →
      s.lastBufferFilename ≠ some f → s.lastBufferFilename ≠ some g → f = g
  name : t.ChangesDirectory s → t.bufferFileName = none → ¬ laws.files t.defaultDirectory t.bufferName

structure HarmlessStep (s : SrState W) (t : Tick) (s' : SrState W) : Prop extends TickStep laws table s t s' where
  harmless : Harmless laws s t

/-- What a run of harmless ticks keeps: the highlight is on one line at most, the listing is that of the remembered
directory, and if the remembered file is one of it the highlight is on its line. -/
structure Consistent (s : SrState W) : Prop where
  unique : ∀ f g, Carries laws.nameSpan s.bar f → Carries laws.nameSpan s.bar g → f = g
  listing : ∀ d, s.lastRefreshDictionary = some d →
    ∀ f, (laws.nameSpan s.bar.world f).isSome = true ↔ laws.files d f
  last : ∀ d f, s.lastRefreshDictionary = some d → s.lastBufferFilename = some f → laws.files d f →
    ∀ g, Carries laws.nameSpan s.bar g ↔ g = f

variable {laws table} {s s' : SrState W} {t : Tick}

/-- Only one line has the highlight if it is the current file's. -/
private theorem unique_of_carries {bar : Bar W} {current : List Char}
    (h : ∀ g, Carries laws.nameSpan bar g ↔ g = current) :
    ∀ f g, Carries laws.nameSpan bar f → Carries laws.nameSpan bar g → f = g := by
  intro f g hf hg
  rw [(h f).1 hf, (h g).1 hg]

/-- The listing that a tick of a file works on is that of the tick's directory. -/
private theorem redrawn_listing (hs : Consistent laws s) (hd : t.ChangesDirectory s ∨ t.speedbarWindow = false)
    {bar : Bar W} (h : Redrawn sb t s bar) (f : List Char) :
    (laws.nameSpan bar.world f).isSome = true ↔ laws.files t.defaultDirectory f := by
  unfold Redrawn at h
  split at h
  · exact (laws.refresh h).1 f
  · rename_i hsame
    rw [h]
    have hw : t.speedbarWindow = false := hd.resolve_left hsame
    exact hs.listing t.defaultDirectory (t.same_directory hw hsame) f

/-- What a tick that marks its file does to the highlights. -/
private theorem marks_spec (hs : Consistent laws s) (hstep : TickStep laws table s t s') {current : List Char}
    (hm : t.Marks s current) :
    ∃ bar, Redrawn sb t s bar ∧ s'.lastRefreshDictionary = some t.defaultDirectory ∧
      s'.lastBufferFilename = some current ∧
      (∀ f, (laws.nameSpan s'.bar.world f).isSome = true ↔ laws.files t.defaultDirectory f) ∧
      ∀ g, Carries laws.nameSpan s'.bar g ↔
        (Carries laws.nameSpan bar g ∧ s.lastBufferFilename ≠ some g) ∨ g = current := by
  obtain ⟨-, bar, -, -, hr, -⟩ := (tick_marks_eq_ok_iff hm).1 hstep.returns
  have hlisting := redrawn_listing hs (Or.inr (t.window_of_file hm.1)) hr
  have hcurrent : (laws.nameSpan bar.world current).isSome = true := (hlisting current).2 (hstep.listed current hm.1)
  obtain ⟨bar₂, hunmark, hcurrent₂, hshow, hdict, hlast⟩ := tick_marks_listed laws hm hr hcurrent hstep.returns
  obtain ⟨hlisted₂, hcarries₂, -⟩ := unmarkRemembered_carries laws hunmark
  obtain ⟨hlisted₃, hcarries₃⟩ := markAndShow_carries laws hcurrent₂ hshow
  refine ⟨bar, hr, hdict, hlast, ?_, ?_⟩
  · intro f
    rw [hlisted₃, hlisted₂, hlisting]
  · intro g
    rw [hcarries₃, hcarries₂]

/-- What a tick of a buffer without a file that lists another directory does to the highlights. -/
private theorem directory_spec (hs : Consistent laws s) (hstep : TickStep laws table s t s')
    (hd : t.ChangesDirectory s) (hfile : t.bufferFileName = none) :
    ∃ bar name, Redrawn sb t s bar ∧ s'.lastRefreshDictionary = some t.defaultDirectory ∧
      s'.lastBufferFilename = some name ∧ (name = t.bufferName ∨ name = laws.bufferName) ∧
      (∀ f, (laws.nameSpan s'.bar.world f).isSome = true ↔ laws.files t.defaultDirectory f) ∧
      ∀ g, Carries laws.nameSpan s'.bar g ↔ Carries laws.nameSpan bar g ∧ s.lastBufferFilename ≠ some g := by
  obtain ⟨bar₁, bar₂, hredrawn, hunmark, rfl⟩ := (tick_directory_eq_ok_iff hd hfile).1 hstep.returns
  obtain ⟨hlisted₂, hcarries₂, hbuffer₂⟩ := unmarkRemembered_carries laws hunmark
  have hlisting₁ := redrawn_listing hs (Or.inl hd) hredrawn
  have hbuffer₁ : bar₁.currentBuffer = t.bufferName ∨ bar₁.currentBuffer = laws.bufferName := by
    exact (laws.refresh ((redrawn_of_changes hd).1 hredrawn)).2
  refine ⟨bar₁, bar₂.currentBuffer, hredrawn, rfl, rfl, or_eq_trans hbuffer₁ hbuffer₂, ?_, hcarries₂⟩
  intro f
  rw [hlisted₂, hlisting₁]

/-- A tick that marks its file moves the highlight to it. -/
theorem consistent_of_marks (hs : Consistent laws s) (hstep : TickStep laws table s t s') (hh : Harmless laws s t)
    {current : List Char} (hm : t.Marks s current) : Consistent laws s' ∧ Highlighted laws t s'.bar := by
  obtain ⟨bar, hredrawn, hdir, hlast, hlisting, hcarries⟩ := marks_spec hs hstep hm
  -- what is left over of the old highlights is the current file's own
  have hline : ∀ g, Carries laws.nameSpan s'.bar g ↔ g = current := by
    intro g
    rw [hcarries]
    constructor
    · intro h
      rcases h with ⟨hg, hne⟩ | hg
      · exact (hh.file bar current hredrawn hm g hg).resolve_left hne
      · exact hg
    · exact Or.inr
  refine ⟨⟨unique_of_carries hline, ?_, ?_⟩, unique_of_carries hline, ?_⟩
  · intro d hd
    obtain rfl := Option.some.inj (hdir.symm.trans hd)
    exact hlisting
  · intro d f _ hf _
    obtain rfl := Option.some.inj (hlast.symm.trans hf)
    exact hline
  · intro c hc
    obtain rfl := Option.some.inj (hm.1.symm.trans hc)
    exact hline

/-- A tick of a buffer without a file that lists another directory leaves one highlight at most. -/
theorem consistent_of_directory (hs : Consistent laws s) (hstep : TickStep laws table s t s')
    (hh : Harmless laws s t) (hd : t.ChangesDirectory s) (hfile : t.bufferFileName = none) :
    Consistent laws s' ∧ Highlighted laws t s'.bar := by
  obtain ⟨bar, name, hredrawn, hdir, hlast, hbuffer, hlisting, hcarries⟩ := directory_spec hs hstep hd hfile
  have hunique : ∀ f g, Carries laws.nameSpan s'.bar f → Carries laws.nameSpan s'.bar g → f = g := by
    intro f g hf hg
    obtain ⟨hf₁, hfl⟩ := (hcarries f).1 hf
    obtain ⟨hg₁, hgl⟩ := (hcarries g).1 hg
    exact hh.noFile bar hredrawn hd hfile f g hf₁ hg₁ hfl hgl
  -- the name that is remembered is not that of a listed file
  have hname : ¬ laws.files t.defaultDirectory name := by
    rcases hbuffer with h | h
    · rw [h]
      exact hh.name hd hfile
    · rw [h]
      exact laws.bufferName_file t.defaultDirectory
  refine ⟨⟨hunique, ?_, ?_⟩, hunique, ?_⟩
  · intro d hd
    obtain rfl := Option.some.inj (hdir.symm.trans hd)
    exact hlisting
  · intro d f hd hf hlisted
    obtain rfl := Option.some.inj (hdir.symm.trans hd)
    obtain rfl := Option.some.inj (hlast.symm.trans hf)
    exact absurd hlisted hname
  · intro c hc
    rw [hfile] at hc
    cases hc

/-- A tick for which nothing has changed finds the highlight where it should be. -/
theorem consistent_of_rest (hs : Consistent laws s) (hstep : TickStep laws table s t s')
    (hd : ¬ t.ChangesDirectory s) (hfile : ∀ c, t.bufferFileName = some c → s.lastBufferFilename = some c) :
    Consistent laws s' ∧ Highlighted laws t s'.bar := by
  obtain rfl := state_unique (tick_rest hd hfile) hstep.returns
  refine ⟨⟨hs.unique, hs.listing, hs.last⟩, hs.unique, ?_⟩
  intro current hc
  have hdir := t.same_directory (t.window_of_file hc) hd
  exact hs.last t.defaultDirectory current hdir (hfile current hc) (hstep.listed current hc)

theorem consistent_step (hs : Consistent laws s) (hstep : HarmlessStep laws table s t s') :
    Consistent laws s' ∧ Highlighted laws t s'.bar := by
  obtain ⟨hstep, hh⟩ := hstep
  rcases t.path_cases s with ⟨current, hm⟩ | ⟨hd, hfile⟩ | ⟨hd, hfile⟩
  · exact consistent_of_marks hs hstep hh hm
  · exact consistent_of_directory hs hstep hh hd hfile
  · exact consistent_of_rest hs hstep hd hfile

/-- The condition is exact: a tick that leaves the highlight where it should be is harmless, unless its buffer is
named like a listed file. -/
theorem harmless_of_highlighted (hs : Consistent laws s) (hstep : TickStep laws table s t s')
    (hname : t.ChangesDirectory s → t.bufferFileName = none → ¬ laws.files t.defaultDirectory t.bufferName)
    (h : Highlighted laws t s'.bar) : Harmless laws s t where
  file := by
    intro bar current hr hm g hg
    obtain ⟨bar₁, hr₁, -, -, -, hcarries⟩ := marks_spec hs hstep hm
    obtain rfl := hr.unique hr₁
    by_cases hl : s.lastBufferFilename = some g
    · exact Or.inl hl
    · exact Or.inr ((h.2 current hm.1 g).1 ((hcarries g).2 (Or.inl ⟨hg, hl⟩)))
  noFile := by
    intro bar hr hd hfile f g hf hg hfl hgl
    obtain ⟨bar₁, -, hr₁, -, -, -, -, hcarries⟩ := directory_spec hs hstep hd hfile
    obtain rfl := hr.unique hr₁
    exact h.1 f g ((hcarries f).2 ⟨hf, hfl⟩) ((hcarries g).2 ⟨hg, hgl⟩)
  name := hname

/-- A tick is harmless if the listing that it works on shows no highlight. -/
theorem harmless_of_fresh (hfresh : ∀ bar, Redrawn sb t s bar → ∀ g, ¬ Carries laws.nameSpan bar g)
    (hname : t.bufferFileName = none → ¬ laws.files t.defaultDirectory t.bufferName) : Harmless laws s t where
  file bar _ hr _ g hg := absurd hg (hfresh bar hr g)
  noFile bar hr _ _ f _ hf := absurd hf (hfresh bar hr f)
  name _ hfile := hname hfile

/-- A tick in the remembered directory is harmless if this lists the remembered file. -/
theorem harmless_of_same_directory (hs : Consistent laws s) (hd : ¬ t.ChangesDirectory s) {last : List Char}
    (hlast : s.lastBufferFilename = some last) (hlisted : laws.files t.defaultDirectory last) :
    Harmless laws s t where
  file bar current hr hm g hg := by
    rw [(redrawn_of_same hd).1 hr] at hg
    have hdir := t.same_directory (t.window_of_file hm.1) hd
    have hg' : g = last := (hs.last t.defaultDirectory last hdir hlast hlisted g).1 hg
    exact Or.inl (by rw [hlast, hg'])
  noFile _ _ hd' := absurd hd' hd
  name hd' := absurd hd' hd

/-- Before the first tick there is no remembered directory and no highlight. -/
def Started (laws : SpeedbarLaws sb) (s : SrState W) : Prop :=
  s.lastRefreshDictionary = none ∧ ∀ f, ¬ Carries laws.nameSpan s.bar f

theorem Started.consistent (h : Started laws s) : Consistent laws s where
  unique f g hf _ := absurd hf (h.2 f)
  listing d hd := by
    rw [h.1] at hd
    cases hd
  last d f hd := by
    rw [h.1] at hd
    cases hd

variable (laws table) in
/-- In every run of harmless ticks, after each tick one line at most has the highlight, and after a tick in a file's
buffer it is this file's. -/
theorem srSpeedbarRefresh_runs {start s : SrState W} {ticks : List Tick} {t : Tick} (hstart : Started laws start)
    (h : Runs (HarmlessStep laws table) start (ticks ++ [t]) s) : Highlighted laws t s.bar := by
  have hstep : ∀ s t s', Consistent laws s → HarmlessStep laws table s t s' →
      Consistent laws s' ∧ Highlighted laws t s'.bar := by
    intro s t s' hs hstep
    exact consistent_step hs hstep
  exact h.established (Consistent laws) (fun t s => Highlighted laws t s.bar) hstart.consistent hstep

end Ticks

theorem beforeTicks_started : Started twoLaws beforeTicks := by
  refine ⟨rfl, ?_⟩
  rintro f ⟨a, b, -, i, g, -, -, hg, -⟩
  cases hg

/-- A listed file of the two directories. -/
private theorem listed_of_mem {directory file : List Char} (h : file ∈ twoDirectories directory) :
    ∀ c, (fileTick directory file).bufferFileName = some c → twoLaws.files directory c := by
  intro c hc
  obtain rfl : file = c := Option.some.inj hc
  exact h

/-- A listing that is drawn for the first time shows no highlight. -/
private theorem beforeTicks_harmless :
    Harmless twoLaws beforeTicks (fileTick ['/', 'a', '/'] ['/', 'a', '/', 'x']) := by
  have hd : (fileTick ['/', 'a', '/'] ['/', 'a', '/', 'x']).ChangesDirectory beforeTicks := ⟨nofun, rfl⟩
  have hmem : ∀ g ∈ drawn twoDirectories ['/', 'a', '/'], g.face ≠ .currentBuffer := by decide
  apply harmless_of_fresh
  · intro bar hr f hf
    obtain rfl := (Prod.mk.inj (Option.some.inj ((redrawn_of_changes hd).1 hr))).2
    obtain ⟨a, b, -, i, g, -, -, hg, hface⟩ := hf
    exact absurd hface (hmem g (List.mem_of_getElem? hg))
  · nofun

/-- From one file of `/a/` to the other. -/
theorem srSpeedbarRefresh_runs_two_files : ∃ s,
    Runs (HarmlessStep twoLaws asciiTable) beforeTicks
      ([fileTick ['/', 'a', '/'] ['/', 'a', '/', 'x']] ++ [fileTick ['/', 'a', '/'] ['/', 'a', '/', 'y']]) s ∧
    Highlighted twoLaws (fileTick ['/', 'a', '/'] ['/', 'a', '/', 'y']) s.bar := by
  have hfirst : HarmlessStep twoLaws asciiTable beforeTicks (fileTick ['/', 'a', '/'] ['/', 'a', '/', 'x']) afterFirst :=
    ⟨⟨rfl, listed_of_mem (by decide)⟩, beforeTicks_harmless⟩
  have hs := (consistent_step beforeTicks_started.consistent hfirst).1
  have hharmless : Harmless twoLaws afterFirst (fileTick ['/', 'a', '/'] ['/', 'a', '/', 'y']) :=
    harmless_of_same_directory hs (by decide) rfl (listed_of_mem (by decide) _ rfl)
  have hsecond : HarmlessStep twoLaws asciiTable afterFirst (fileTick ['/', 'a', '/'] ['/', 'a', '/', 'y']) _ :=
    ⟨⟨rfl, listed_of_mem (by decide)⟩, hharmless⟩
  have hrun := Runs.snoc (Runs.snoc Runs.nil hfirst) hsecond
  exact ⟨_, hrun, srSpeedbarRefresh_runs twoLaws asciiTable beforeTicks_started hrun⟩

/-- From `/a/` to `/b/` and back to the other file of `/a/`: the first file's line comes back with its highlight. -/
theorem srSpeedbarRefresh_old_highlight : Started twoLaws beforeTicks ∧
    ¬ ∀ s, Runs (TickStep twoLaws asciiTable) beforeTicks
        [fileTick ['/', 'a', '/'] ['/', 'a', '/', 'x'], fileTick ['/', 'b', '/'] ['/', 'b', '/', 'z'],
          fileTick ['/', 'a', '/'] ['/', 'a', '/', 'y']] s →
      Highlighted twoLaws (fileTick ['/', 'a', '/'] ['/', 'a', '/', 'y']) s.bar := by
  refine ⟨beforeTicks_started, ?_⟩
  intro h
  have hlast := h _ (Runs.snoc (Runs.snoc (Runs.snoc Runs.nil ⟨rfl, listed_of_mem (by decide)⟩)
    ⟨rfl, listed_of_mem (by decide)⟩) ⟨rfl, listed_of_mem (by decide)⟩)
  have hxy := hlast.1 ['/', 'a', '/', 'x'] ['/', 'a', '/', 'y']
    ⟨0, 1, rfl, 0, ⟨0, .currentBuffer⟩, by decide, by decide, rfl, rfl⟩
    ⟨1, 2, rfl, 1, ⟨1, .currentBuffer⟩, by decide, by decide, rfl, rfl⟩
  exact absurd hxy (by decide)

end EmacsDir
