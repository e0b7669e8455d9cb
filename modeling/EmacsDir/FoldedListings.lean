import EmacsDir.SavedListings
import EmacsDir.SpeedbarFolds

/-!
# A speedbar with expanded lines

A speedbar with one character a file that knows which of its lines is selected and which are expanded.  It draws every
listing afresh, and every line is expandable.  It satisfies `SpeedbarLaws`, `FoldLaws` and `ViewLaws`.
-/

namespace EmacsDir

open Command

/-- The directory that is listed, the file whose line is selected, and the files whose lines are expanded. -/
structure Folds extends Listings where
  selected : Option (List Char)
  expanded : List (List Char)

variable (files : List Char → List (List Char)) (name : List Char)

/-- The selected line of the listing. -/
def Folds.selectedLine (w : Folds) : Option (List Char) :=
  w.selected.filter fun f => (files w.directory).contains f

theorem Folds.selectedLine_mem {w : Folds} {f : List Char} (h : w.selectedLine files = some f) :
    f ∈ files w.directory := by
  have := (Option.filter_eq_some_iff.1 h).2
  simpa using this

def foldingSpeedbar : Speedbar Folds where
  refresh directory := fun bar =>
    some (.ok (), ⟨drawn files directory, none, name, ⟨⟨directory, bar.world.saved⟩, none, []⟩⟩)
  findSelectedFile file := fun bar =>
    match listedSpan files bar.world.toListings file with
    | some span => some (.ok true,
        ⟨bar.shown, some span, name, { bar.world with selected := some file }⟩)
    | none => some (.ok false, { bar with currentBuffer := name })
  contractLine := fun bar => some (.ok (), ⟨bar.shown, none, name,
    { bar.world with expanded := bar.world.expanded.filter fun f => bar.world.selectedLine files ≠ some f }⟩)
  expandLine := fun bar => some (.ok (), ⟨bar.shown, none, name,
    { bar.world with expanded := (bar.world.selectedLine files).toList ++ bar.world.expanded }⟩)
  lineNumberAtPos _ := 1
  getBufferWindow _ := some 0
  scrollUp _ num := fun bar =>
    if num = 0 ∨ num < (files bar.world.directory).length then some (.ok (), { bar with currentBuffer := name })
    else some (.error .endOfBuffer, bar)

/-- The names of the files stand where they do without expanded lines. -/
def foldingLaws (hname : ∀ d, name ∉ files d) : SpeedbarLaws (foldingSpeedbar files name) where
  nameSpan w := listedSpan files w.toListings
  files d f := f ∈ files d
  bufferName := name
  bufferName_file := hname
  span_lt := (savingLaws files name hname).span_lt
  span_disjoint := (savingLaws files name hname).span_disjoint
  refresh := by
    intro d bar bar' h
    obtain rfl := (Prod.mk.inj (Option.some.inj h)).2
    exact ⟨fun f => listedSpan_isSome files, Or.inr rfl⟩
  find f bar := by
    unfold foldingSpeedbar
    dsimp only
    cases hspan : listedSpan files bar.world.toListings f with
    | none => exact ⟨_, rfl, rfl, rfl, rfl, Or.inr rfl⟩
    | some span => exact ⟨_, rfl, rfl, rfl, rfl, Or.inr rfl⟩
  contract bar := ⟨_, rfl, Kept.refl rfl rfl (Or.inr rfl), fun _ hg _ => hg⟩
  expand bar := ⟨_, rfl, Kept.refl rfl rfl (Or.inr rfl), fun _ _ => Iff.rfl⟩
  scroll {window num bar bar'} h := by
    simp only [foldingSpeedbar] at h
    split at h
    · obtain rfl := (Prod.mk.inj (Option.some.inj h)).2
      exact ⟨Kept.refl rfl rfl (Or.inr rfl), fun _ _ => Iff.rfl⟩
    · cases h

/-- A line is expanded if it is listed and has been expanded. -/
def foldingFolds (hname : ∀ d, name ∉ files d) : FoldLaws (foldingLaws files name hname) where
  expanded w f := f ∈ w.expanded ∧ f ∈ files w.directory
  selected w := w.selectedLine files
  expandable _ := True
  listed h := (listedSpan_isSome files).2 h.2
  find {f bar found bar'} h := by
    unfold foldingSpeedbar at h
    dsimp only at h
    split at h
    · rename_i span hspan
      cases h
      have hmem : f ∈ files bar.world.directory := (listedSpan_isSome files).1 (by rw [hspan]; rfl)
      refine ⟨fun _ => Iff.rfl, fun _ => ?_⟩
      simp [Folds.selectedLine, hmem]
    · cases h
      exact ⟨fun _ => Iff.rfl, nofun⟩
  contract {bar bar'} h g := by
    cases h
    simp only [List.mem_filter, decide_eq_true_eq]
    exact and_right_comm
  expand {bar bar'} h g := by
    cases h
    simp only [List.mem_append, Option.mem_toList, and_true]
    constructor
    · rintro ⟨hg | hg, hmem⟩
      · exact Or.inr hg
      · exact Or.inl ⟨hg, hmem⟩
    · rintro (⟨hg, hmem⟩ | hg)
      · exact ⟨Or.inr hg, hmem⟩
      · exact ⟨Or.inl hg, Folds.selectedLine_mem files hg⟩
  scroll {window num bar bar'} h g := by
    simp only [foldingSpeedbar] at h
    split at h
    · cases h
      exact Iff.rfl
    · cases h

/-- Its window and its text are what is assumed. -/
def foldingView (hname : ∀ d, name ∉ files d) : ViewLaws (foldingLaws files name hname) where
  lines w := (files w.directory).length
  refresh d bar r bar' h _ := by
    cases h
    intro f a b hspan
    have hdrawn : (drawn files d).length = (files d).length := List.length_mapIdx
    exact Nat.le_trans (listedSpan_le files hspan) (Nat.le_of_eq hdrawn.symm)
  contract bar r bar' h hin := by
    cases h
    exact hin
  expand bar r bar' h hin := by
    cases h
    exact hin
  scroll window num bar r bar' h hin := by
    simp only [foldingSpeedbar] at h
    split at h
    · cases h
      exact hin
    · cases h
      exact hin
  find {f bar found bar'} _ := ⟨rfl, fun _ => Nat.le_add_left 1 _⟩
  contract_window _ := rfl
  contract_matchData _ h := by
    cases h
    rfl
  expand_window {bar bar'} h := by
    cases h
    exact ⟨rfl, Nat.le_refl _⟩
  scroll_returns h := ⟨_, if_pos h⟩

/-- `/a/` holds a source file and a web page. -/
def sourceDirectory (directory : List Char) : List (List Char) :=
  if directory = ['/', 'a', '/'] then
    [['/', 'a', '/', 'm', '.', 'e', 'l'], ['/', 'a', '/', 'x', '.', 'h', 't', 'm', 'l']]
  else
    []

theorem speedbarName_notMem_source (d : List Char) : speedbarName ∉ sourceDirectory d := by
  unfold sourceDirectory
  split
  · decide
  · decide

def sourceSpeedbar : Speedbar Folds := foldingSpeedbar sourceDirectory speedbarName

def sourceLaws : SpeedbarLaws sourceSpeedbar := foldingLaws sourceDirectory speedbarName speedbarName_notMem_source

def sourceFolds : FoldLaws sourceLaws := foldingFolds sourceDirectory speedbarName speedbarName_notMem_source

def sourceView : ViewLaws sourceLaws := foldingView sourceDirectory speedbarName speedbarName_notMem_source

/-- Before the first tick, with an empty listing. -/
def beforeFolds : SrState Folds where
  lastRefreshDictionary := none
  lastBufferFilename := none
  bar := ⟨[], none, [], ⟨⟨[], []⟩, none, []⟩⟩

end EmacsDir
