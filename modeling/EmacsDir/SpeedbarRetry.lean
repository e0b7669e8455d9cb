import EmacsDir.Runs
import EmacsDir.SavedListings
import EmacsDir.SpeedbarTick

/-!
# Ticks that fail

A tick in which an operation of the speedbar signals.  On the path for a changed directory the directory has been
remembered before anything can fail, so the next tick takes this directory for listed.  On the path for another file
the file is remembered between the highlight and the expansion: a tick that fails before is made again, a tick that
fails behind is not.
-/

namespace EmacsDir

open Command

variable {W : Type}

/-- After a tick that failed the variables are as before, and the next tick takes the same path. -/
structure Retried (t : Tick) (s s' : SrState W) : Prop where
  dictionary : s'.lastRefreshDictionary = s.lastRefreshDictionary
  filename : s'.lastBufferFilename = s.lastBufferFilename
  directory : t.ChangesDirectory s' ↔ t.ChangesDirectory s
  marks : ∀ current, t.Marks s' current ↔ t.Marks s current

theorem Retried.of_eq {t : Tick} {s s' : SrState W} (hd : s'.lastRefreshDictionary = s.lastRefreshDictionary)
    (hf : s'.lastBufferFilename = s.lastBufferFilename) : Retried t s s' where
  dictionary := hd
  filename := hf
  directory := by unfold Tick.ChangesDirectory; rw [hd]
  marks current := by unfold Tick.Marks Tick.ChangesDirectory; rw [hd, hf]

/-- The remembered file is looked up, and it and the current file get their faces, without a signal. -/
def Highlights (sb : Speedbar W) (last : Option (List Char)) (current : List Char) (bar : Bar W) : Prop :=
  ∃ file bar₁ bar₂, last = some file ∧ unmarkLast sb file bar = some (.ok (), bar₁) ∧
    markCurrent sb current bar₁ = some (.ok (), bar₂)

/-- The directory has not changed, and the signal comes before the tick's file has the highlight. -/
def Tick.FailsEarly (sb : Speedbar W) (t : Tick) (s : SrState W) : Prop :=
  ¬ t.ChangesDirectory s ∧ ∀ current, t.bufferFileName = some current →
    ¬ Highlights sb s.lastBufferFilename current { s.bar with currentBuffer := t.bufferName }

/-- A tick that looks up the remembered file where none is remembered. -/
def Tick.LooksUpNil (t : Tick) (s : SrState W) : Prop :=
  ¬ t.ChangesDirectory s ∧ s.lastBufferFilename = none ∧ t.bufferFileName.isSome = true

section Failures

variable {sb : Speedbar W} {table : CaseTable} {t : Tick} {s s' : SrState W} {e : Signal}

theorem keeps_onBar {α τ : Type} {f : SrState W → τ} (hf : ∀ s bar, f { s with bar := bar } = f s)
    (c : Command Signal (Bar W) α) : Keeps f (onBar c) := by
  intro s r s' h
  obtain ⟨bar, -, rfl⟩ := onBar_eq_some_iff.1 h
  exact hf s bar

theorem onBar_bind_eq_error_iff {c : Command Signal (Bar W) Unit} {k : Unit → Command Signal (SrState W) Unit} :
    (onBar c >>= k) s = some (.error e, s') ↔
      (∃ bar, c s.bar = some (.error e, bar) ∧ s' = { s with bar := bar }) ∨
        ∃ bar, c s.bar = some (.ok (), bar) ∧ k () { s with bar := bar } = some (.error e, s') := by
  rw [bind_eq_error_iff, onBar_eq_some_iff]
  constructor
  · rintro (h | ⟨_, s₁, hc, hk⟩)
    · exact Or.inl h
    · obtain ⟨bar, hbar, rfl⟩ := onBar_eq_some_iff.1 hc
      exact Or.inr ⟨bar, hbar, hk⟩
  · rintro (h | ⟨bar, hc, hk⟩)
    · exact Or.inl h
    · exact Or.inr ⟨(), _, onBar_eq_some_iff.2 ⟨bar, hc, rfl⟩, hk⟩

/-- However the path for a changed directory ends, the directory is remembered. -/
theorem directoryChanged_dictionary {r : Except Signal Unit} (h : directoryChanged sb table t s = some (r, s')) :
    s'.lastRefreshDictionary = some t.defaultDirectory := by
  have hbar : ∀ {α : Type} (c : Command Signal (Bar W) α), Keeps SrState.lastRefreshDictionary (onBar c) :=
    keeps_onBar fun _ _ => rfl
  unfold directoryChanged at h
  rw [update_bind] at h
  refine (Keeps.bind (hbar _) fun _ => Keeps.bind (keeps_gets _) fun last => ?_) _ _ _ h
  cases t.bufferFileName with
  | none =>
    have hrest : Keeps SrState.lastRefreshDictionary (update fun s : SrState W =>
        { s with lastBufferFilename := some s.bar.currentBuffer } : Command Signal (SrState W) Unit) :=
      keeps_update fun _ => rfl
    cases last with
    | none => exact hrest
    | some last => exact Keeps.bind (hbar _) fun _ => hrest
  | some current =>
    have hset : Keeps SrState.lastRefreshDictionary (update fun s : SrState W =>
        { s with lastBufferFilename := some current } : Command Signal (SrState W) Unit) :=
      keeps_update fun _ => rfl
    cases last with
    | none => exact hset.bind fun _ => (hbar _).bind fun _ => hbar _
    | some last => exact (hbar _).bind fun _ => hset.bind fun _ => (hbar _).bind fun _ => hbar _

/-- The path for another file, when it signals: behind the assignment or before it. -/
theorem fileChanged_eq_error {current : List Char} (h : fileChanged sb table current s = some (.error e, s')) :
    s'.lastRefreshDictionary = s.lastRefreshDictionary ∧
      (Highlights sb s.lastBufferFilename current s.bar ∧ s'.lastBufferFilename = some current ∨
        ¬ Highlights sb s.lastBufferFilename current s.bar ∧ s'.lastBufferFilename = s.lastBufferFilename) := by
  unfold fileChanged at h
  rw [remembered_bind] at h
  cases hl : s.lastBufferFilename with
  | none =>
    rw [hl] at h
    have hsignal : (signal .wrongTypeArgument : Command Signal (SrState W) Unit) s =
        some (.error .wrongTypeArgument, s) := rfl
    simp only [bind_error hsignal] at h
    cases h
    simp [Highlights, hl]
  | some last =>
    rw [hl] at h
    rcases onBar_bind_eq_error_iff.1 h with ⟨bar, hbar, rfl⟩ | ⟨bar₁, hunmark, h⟩
    · -- the remembered file cannot be unmarked
      refine ⟨rfl, Or.inr ⟨?_, hl⟩⟩
      rintro ⟨file, bar₁, bar₂, hfile, hunmark, -⟩
      cases hfile
      rw [hbar] at hunmark
      cases hunmark
    rcases onBar_bind_eq_error_iff.1 h with ⟨bar, hbar, rfl⟩ | ⟨bar₂, hmark, h⟩
    · -- the current file cannot be marked
      refine ⟨rfl, Or.inr ⟨?_, hl⟩⟩
      rintro ⟨file, bar₂, bar₃, hfile, hunmark', hmark⟩
      cases hfile
      obtain rfl := state_unique hunmark hunmark'
      rw [hbar] at hmark
      cases hmark
    rw [update_bind] at h
    obtain ⟨bar, -, rfl⟩ := onBar_eq_some_iff.1 h
    exact ⟨rfl, Or.inl ⟨⟨last, bar₁, bar₂, rfl, hunmark, hmark⟩, rfl⟩⟩

/-- A tick that failed is made again exactly if it failed early on the path for another file. -/
theorem retried_iff (h : tick sb table t s = some (.error e, s')) : Retried t s s' ↔ t.FailsEarly sb s := by
  unfold tick at h
  rw [update_bind] at h
  unfold srSpeedbarRefresh at h
  split at h
  · rename_i hd
    have hdict := directoryChanged_dictionary h
    constructor
    · intro hr
      exact absurd (hdict.symm.trans hr.dictionary) hd.1
    · intro hf
      exact absurd hd hf.1
  rename_i hd
  split at h
  · rename_i current hfile
    split at h
    · rename_i hpath
      obtain ⟨hdict, hlast⟩ := fileChanged_eq_error h
      rcases hlast with ⟨hhigh, hset⟩ | ⟨hhigh, hkept⟩
      · constructor
        · intro hr
          exact absurd (hr.filename.symm.trans hset) hpath.1
        · intro hf
          exact absurd hhigh (hf.2 current hfile)
      · constructor
        · intro _
          refine ⟨hd, ?_⟩
          intro c hc
          obtain rfl : current = c := Option.some.inj (hfile.symm.trans hc)
          exact hhigh
        · intro _
          exact Retried.of_eq hdict hkept
    · cases h
  · cases h

/-- Once a directory is remembered, a file is. -/
def Remembers (s : SrState W) : Prop := s.lastRefreshDictionary ≠ none → s.lastBufferFilename ≠ none

theorem Remembers.of_eq (hs : Remembers s) (hd : s'.lastRefreshDictionary = s.lastRefreshDictionary)
    (hf : s'.lastBufferFilename = s.lastBufferFilename) : Remembers s' := by
  unfold Remembers
  rw [hd, hf]
  exact hs

theorem remembers_of_ok (hs : Remembers s) (h : tick sb table t s = some (.ok (), s')) : Remembers s' := by
  rcases t.path_cases s with ⟨current, hm⟩ | ⟨hd, hfile⟩ | ⟨hd, hfile⟩
  · obtain ⟨-, bar₁, bar₂, bar₃, -, -, -, rfl⟩ := (tick_marks_eq_ok_iff hm).1 h
    exact fun _ => nofun
  · obtain ⟨bar₁, bar₂, -, -, rfl⟩ := (tick_directory_eq_ok_iff hd hfile).1 h
    exact fun _ => nofun
  · obtain rfl := state_unique (tick_rest hd hfile) h
    exact hs

theorem Remembers.not_looksUpNil (hs : Remembers s) : ¬ t.LooksUpNil s := by
  rintro ⟨hd, hnil, hfile⟩
  obtain ⟨current, hfile⟩ := Option.isSome_iff_exists.1 hfile
  have hdict := t.same_directory (t.window_of_file hfile) hd
  exact hs (by rw [hdict]; nofun) hnil

end Failures

/-- A tick, which returns or fails early, on a listing that may have been changed since the last tick. -/
def FailsEarlyStep (sb : Speedbar W) (table : CaseTable) (s : SrState W) (t : Tick) (s' : SrState W) : Prop :=
  ∃ bar r, tick sb table t { s with bar := bar } = some (r, s') ∧
    ∀ e, r = .error e → t.FailsEarly sb { s with bar := bar }

theorem remembers_step {sb : Speedbar W} {table : CaseTable} {t : Tick} {s s' : SrState W} (hs : Remembers s)
    (h : FailsEarlyStep sb table s t s') : Remembers s' := by
  obtain ⟨bar, r, htick, hearly⟩ := h
  cases r with
  | ok =>
    have hs₁ : Remembers { s with bar := bar } := hs
    exact remembers_of_ok hs₁ htick
  | error e =>
    have hr := (retried_iff htick).2 (hearly e rfl)
    exact hs.of_eq hr.dictionary hr.filename

/-- A tick that failed is made again exactly if it failed early, and after a run of ticks that fail early, if at all,
no tick looks up a remembered file where none is remembered. -/
theorem srSpeedbarRefresh_retry (sb : Speedbar W) (table : CaseTable) :
    (∀ t s s' e, tick sb table t s = some (.error e, s') → (Retried t s s' ↔ t.FailsEarly sb s)) ∧
      ∀ start ticks s, Remembers start → Runs (FailsEarlyStep sb table) start ticks s →
        ∀ t : Tick, ¬ t.LooksUpNil s := by
  refine ⟨fun t s s' e h => retried_iff h, ?_⟩
  intro start ticks s hstart hrun t
  have hs := hrun.invariant Remembers hstart fun s t s' hs h => remembers_step hs h
  exact hs.not_looksUpNil

/-- From the first file of `/a/` to a file that is not listed: the signal comes before the file is remembered. -/
theorem srSpeedbarRefresh_retry_unlisted : ∃ s',
    tick twoSpeedbar asciiTable (fileTick ['/', 'a', '/'] ['/', 'a', '/', 'q']) afterFirst =
        some (.error .wrongTypeArgument, s') ∧
      Retried (fileTick ['/', 'a', '/'] ['/', 'a', '/', 'q']) afterFirst s' := by
  refine ⟨_, rfl, ((srSpeedbarRefresh_retry twoSpeedbar asciiTable).1 _ _ _ _ rfl).2 ⟨by decide, ?_⟩⟩
  rintro current hfile ⟨last, bar₁, bar₂, hlast, hunmark, hmark⟩
  cases hfile
  cases hlast
  cases hunmark
  cases hmark

/-- A speedbar that cannot redraw its listing. -/
def brokenSpeedbar : Speedbar Listings := { twoSpeedbar with refresh := fun _ => signal .wrongTypeArgument }

/-- The first tick of all: in a file that is not listed it is not made again, and if the listing cannot be redrawn the
next tick looks up a file where none is remembered. -/
theorem srSpeedbarRefresh_retry_first :
    (∃ s', tick twoSpeedbar asciiTable (fileTick ['/', 'a', '/'] ['/', 'a', '/', 'q']) beforeTicks =
        some (.error .wrongTypeArgument, s') ∧
      ¬ Retried (fileTick ['/', 'a', '/'] ['/', 'a', '/', 'q']) beforeTicks s') ∧
    ∃ s', tick brokenSpeedbar asciiTable (fileTick ['/', 'a', '/'] ['/', 'a', '/', 'x']) beforeTicks =
        some (.error .wrongTypeArgument, s') ∧
      (fileTick ['/', 'a', '/'] ['/', 'a', '/', 'x']).LooksUpNil s' := by
  refine ⟨⟨_, rfl, ?_⟩, _, rfl, ?_⟩
  · intro h
    cases h.dictionary
  · exact ⟨by decide, rfl, rfl⟩

end EmacsDir
