import EmacsDir.SpeedbarView

/-!
# A speedbar that saves its listings

A speedbar with one line of one character a file, in a window.  When it leaves a directory it saves the listing with
its faces, and puts it back when it returns, if it still has as many lines.  It satisfies `SpeedbarLaws` and
`ViewLaws`.
-/

namespace EmacsDir

/-- The directory that is listed, and the listings that have been left. -/
structure Listings where
  directory : List Char
  saved : List (List Char × List Glyph)

variable (files : List Char → List (List Char)) (name : List Char)

/-- A listing that is drawn for the first time. -/
def drawn (directory : List Char) : List Glyph :=
  (files directory).mapIdx fun i _ => ⟨i, .file⟩

/-- The saved listing of the directory, if there is one, and otherwise a new one. -/
def redrawn (w : Listings) (directory : List Char) : List Glyph :=
  ((w.saved.lookup directory).filter fun shown => shown.length = (files directory).length).getD (drawn files directory)

theorem length_redrawn (w : Listings) (directory : List Char) :
    (redrawn files w directory).length = (files directory).length := by
  unfold redrawn
  cases h : (w.saved.lookup directory).filter fun shown => shown.length = (files directory).length with
  | none => exact List.length_mapIdx
  | some shown => simpa using (Option.filter_eq_some_iff.1 h).2

/-- The name of the file that is the `i`-th of its directory is the `i`-th character. -/
def listedSpan (w : Listings) (file : List Char) : Option (Nat × Nat) :=
  ((files w.directory).idxOf? file).map fun i => (i, i + 1)

/-- Its searches for a line to expand or to contract leave match data without a group 1. -/
def savingSpeedbar : Speedbar Listings where
  refresh directory := fun bar =>
    if directory = bar.world.directory then
      some (.ok (), { bar with currentBuffer := name })
    else
      some (.ok (),
        { shown := redrawn files bar.world directory
          matchData := none
          currentBuffer := name
          world := ⟨directory, (bar.world.directory, bar.shown) :: bar.world.saved⟩ })
  findSelectedFile file := fun bar =>
    some (.ok (listedSpan files bar.world file).isSome,
      { bar with matchData := (listedSpan files bar.world file).or bar.matchData, currentBuffer := name })
  contractLine := fun bar => some (.ok (), { bar with matchData := none, currentBuffer := name })
  expandLine := fun bar => some (.ok (), { bar with matchData := none, currentBuffer := name })
  lineNumberAtPos _ := 1
  getBufferWindow _ := some 0
  scrollUp _ num := fun bar =>
    if num = 0 ∨ num < (files bar.world.directory).length then some (.ok (), { bar with currentBuffer := name })
    else some (.error .endOfBuffer, bar)

theorem listedSpan_eq_some {w : Listings} {file : List Char} {a b : Nat} :
    listedSpan files w file = some (a, b) ↔ (files w.directory).idxOf? file = some a ∧ b = a + 1 := by
  unfold listedSpan
  rw [Option.map_eq_some_iff]
  constructor
  · rintro ⟨i, hi, he⟩
    obtain ⟨rfl, rfl⟩ := Prod.mk.inj he
    exact ⟨hi, rfl⟩
  · rintro ⟨hi, rfl⟩
    exact ⟨a, hi, rfl⟩

theorem listedSpan_isSome {w : Listings} {file : List Char} :
    (listedSpan files w file).isSome = true ↔ file ∈ files w.directory := by
  unfold listedSpan
  simp [List.isSome_idxOf?]

/-- Nothing that a file name or its highlight depends on has changed. -/
private theorem kept_of_shown {bar bar' : Bar Listings} (hs : bar'.shown = bar.shown) (hw : bar'.world = bar.world)
    (hc : bar'.currentBuffer = name) : Kept (listedSpan files) name bar bar' :=
  Kept.refl hs (by rw [hw]) (Or.inr hc)

/-- The speedbar that saves its listings does what is assumed. -/
def savingLaws (hname : ∀ d, name ∉ files d) : SpeedbarLaws (savingSpeedbar files name) where
  nameSpan := listedSpan files
  files d f := f ∈ files d
  bufferName := name
  bufferName_file := hname
  span_lt := by
    intro w f a b h
    obtain ⟨-, rfl⟩ := (listedSpan_eq_some files).1 h
    exact Nat.lt_succ_self a
  span_disjoint := by
    intro w f f' a b a' b' h h' hne
    obtain ⟨hf, rfl⟩ := (listedSpan_eq_some files).1 h
    obtain ⟨hf', rfl⟩ := (listedSpan_eq_some files).1 h'
    have hdiff : a ≠ a' := by
      rintro rfl
      obtain ⟨hlt, hget, -⟩ := List.idxOf?_eq_some_iff.1 hf
      obtain ⟨hlt', hget', -⟩ := List.idxOf?_eq_some_iff.1 hf'
      exact hne (hget.symm.trans hget')
    omega
  refresh := by
    intro d bar bar' h
    simp only [savingSpeedbar] at h
    split at h
    · rename_i hd
      obtain rfl := (Prod.mk.inj (Option.some.inj h)).2
      refine ⟨?_, Or.inr rfl⟩
      intro f
      rw [listedSpan_isSome, hd]
    · obtain rfl := (Prod.mk.inj (Option.some.inj h)).2
      exact ⟨fun f => listedSpan_isSome files, Or.inr rfl⟩
  find f bar := ⟨_, rfl, rfl, rfl, rfl, Or.inr rfl⟩
  contract bar := ⟨_, rfl, kept_of_shown files name rfl rfl rfl, fun _ hg _ => hg⟩
  expand bar := ⟨_, rfl, kept_of_shown files name rfl rfl rfl, fun _ _ => Iff.rfl⟩
  scroll {window num bar bar'} h := by
    simp only [savingSpeedbar] at h
    split at h
    · obtain rfl := (Prod.mk.inj (Option.some.inj h)).2
      exact ⟨kept_of_shown files name rfl rfl rfl, fun _ _ => Iff.rfl⟩
    · cases h

/-- The names lie in a listing that has a line for each file. -/
theorem listedSpan_le {w : Listings} {file : List Char} {a b : Nat} (h : listedSpan files w file = some (a, b)) :
    b ≤ (files w.directory).length := by
  obtain ⟨ha, rfl⟩ := (listedSpan_eq_some files).1 h
  obtain ⟨hlt, -⟩ := List.idxOf?_eq_some_iff.1 ha
  exact hlt

/-- Its window and its text are what is assumed. -/
def savingView (hname : ∀ d, name ∉ files d) : ViewLaws (savingLaws files name hname) where
  lines w := (files w.directory).length
  refresh d bar r bar' h hin := by
    simp only [savingSpeedbar] at h
    split at h
    · cases h
      exact hin
    · cases h
      intro f a b hspan
      exact Nat.le_trans (listedSpan_le files hspan) (Nat.le_of_eq (length_redrawn files bar.world d).symm)
  contract bar r bar' h hin := by
    cases h
    exact hin
  expand bar r bar' h hin := by
    cases h
    exact hin
  scroll window num bar r bar' h hin := by
    simp only [savingSpeedbar] at h
    split at h
    · cases h
      exact hin
    · cases h
      exact hin
  find {f bar found bar'} _ := ⟨rfl, fun _ => Nat.le_add_left 1 _⟩
  contract_window _ := rfl
  contract_matchData _ h := by
    cases h
    rfl
  expand_window h := by
    cases h
    exact ⟨rfl, Nat.le_refl _⟩
  scroll_returns h := ⟨_, if_pos h⟩

/-- The name of the speedbar's buffer. -/
def speedbarName : List Char := ['*', 'S', 'P', 'E', 'E', 'D', 'B', 'A', 'R', '*']

/-- `/a/` holds two files and `/b/` one. -/
def twoDirectories (directory : List Char) : List (List Char) :=
  if directory = ['/', 'a', '/'] then [['/', 'a', '/', 'x'], ['/', 'a', '/', 'y']]
  else if directory = ['/', 'b', '/'] then [['/', 'b', '/', 'z']]
  else []

theorem speedbarName_notMem (d : List Char) : speedbarName ∉ twoDirectories d := by
  unfold twoDirectories
  split
  · decide
  · split
    · decide
    · decide

/-- The speedbar on the two directories. -/
def twoSpeedbar : Speedbar Listings := savingSpeedbar twoDirectories speedbarName

def twoLaws : SpeedbarLaws twoSpeedbar := savingLaws twoDirectories speedbarName speedbarName_notMem

def twoView : ViewLaws twoLaws := savingView twoDirectories speedbarName speedbarName_notMem

/-- A tick in the buffer of a file. -/
def fileTick (directory file : List Char) : Tick where
  defaultDirectory := directory
  bufferFileName := some file
  bufferName := file
  speedbarWindow := false
  window_file := nofun

/-- Before the first tick, with an empty listing. -/
def beforeTicks : SrState Listings where
  lastRefreshDictionary := none
  lastBufferFilename := none
  bar := ⟨[], none, [], ⟨[], []⟩⟩

/-- After a tick in the first file of `/a/`. -/
def afterFirst : SrState Listings where
  lastRefreshDictionary := some ['/', 'a', '/']
  lastBufferFilename := some ['/', 'a', '/', 'x']
  bar := ⟨[⟨0, .currentBuffer⟩, ⟨1, .file⟩], some (0, 1), speedbarName, ⟨['/', 'a', '/'], [([], [])]⟩⟩

end EmacsDir
