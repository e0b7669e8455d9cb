import EmacsDir.FoldedListings

/-!
# Source files

The tick expands the line of a file whose path contains one of five strings anywhere, where it means the files whose
names end in one of them.
-/

namespace EmacsDir

open Command Regexp

/-- The five strings of `expandedRegexp`. -/
def sourceSuffixes : List (List Char) :=
  [['.', 'C'], ['.', 'h'], ['.', 'c', 'x', 'x'], ['.', 'e', 'l'], ['.', 'p', 'y']]

/-- The name ends in one of the five strings, up to letter case. -/
def IsSource (table : CaseTable) (name : List Char) : Prop :=
  ∃ w ∈ sourceSuffixes, (name.drop (name.length - w.length)).map table.canon = w.map table.canon

instance (table : CaseTable) (name : List Char) : Decidable (IsSource table name) :=
  inferInstanceAs (Decidable (∃ w ∈ sourceSuffixes, _))

theorem matches_expanded {canon : Char → Char} {c : Cursor Char} :
    (∃ d, Matches (expandedRegexp canon) c d) ↔ ∃ w ∈ sourceSuffixes, ∃ d, Matches (word canon w) c d := by
  simp only [expandedRegexp, Matches, sourceSuffixes, List.mem_cons, List.not_mem_nil, or_false, exists_eq_or_imp,
    exists_eq_left, exists_or]

/-- The search finds the five strings anywhere in the path. -/
theorem containsSuffix_iff {table : CaseTable} {path : List Char} :
    ContainsSuffix table path ↔
      ∃ w ∈ sourceSuffixes, ∃ u x v, path = u ++ (x ++ v) ∧ x.map table.canon = w.map table.canon := by
  unfold ContainsSuffix
  rw [search_isSome]
  constructor
  · rintro ⟨u, v, d, rfl, hm⟩
    obtain ⟨w, hw, d, hd⟩ := matches_expanded.1 ⟨d, hm⟩
    obtain ⟨x, y, hxy, hx, -⟩ := matches_word.1 hd
    exact ⟨w, hw, u, x, y, by rw [show v = x ++ y from hxy], hx⟩
  · rintro ⟨w, hw, u, x, v, rfl, hx⟩
    obtain ⟨d, hd⟩ := (matches_expanded (c := ⟨u, x ++ v, []⟩)).2 ⟨w, hw, _, matches_word.2 ⟨x, v, rfl, hx, rfl⟩⟩
    exact ⟨u, x ++ v, d, rfl, hd⟩

theorem IsSource.containsSuffix {table : CaseTable} {name : List Char} (h : IsSource table name) :
    ContainsSuffix table name := by
  obtain ⟨w, hw, hend⟩ := h
  refine containsSuffix_iff.2 ⟨w, hw, name.take (name.length - w.length), _, [], ?_, hend⟩
  rw [List.append_nil, List.take_append_drop]

section Laws

variable {W : Type} {sb : Speedbar W} {laws : SpeedbarLaws sb} (folds : FoldLaws laws)

/-- From a listing where at most the remembered file's line is expanded, a tick that marks a listed file leaves exactly
the lines of source files expanded if and only if a source file's line is expandable, and an expandable line whose
path contains one of the five strings is a source file's. -/
theorem srSpeedbarRefresh_expands_iff (table : CaseTable) {t : Tick} {s s' : SrState W} {bar : Bar W}
    {current : List Char} (hm : t.Marks s current) (hr : Redrawn sb t s bar)
    (hlisted : (laws.nameSpan bar.world current).isSome = true)
    (hold : ∀ f, folds.expanded bar.world f → s.lastBufferFilename = some f)
    (h : tick sb table t s = some (.ok (), s')) :
    (∀ f, folds.expanded s'.bar.world f ↔ f = current ∧ IsSource table current) ↔
      (IsSource table current → folds.expandable current) ∧
        (folds.expandable current → ContainsSuffix table current → IsSource table current) := by
  -- the remembered file's line is contracted, so only the current file's can be expanded
  have hafter : ∀ f, folds.expanded s'.bar.world f ↔
      f = current ∧ ContainsSuffix table current ∧ folds.expandable current := by
    intro f
    rw [tick_expanded folds hm hr hlisted h]
    constructor
    · rintro (⟨hf, hlast⟩ | hf)
      · exact absurd (hold f hf) hlast
      · exact hf
    · exact Or.inr
  constructor
  · intro hall
    have hcurrent := (hafter current).symm.trans (hall current)
    refine ⟨fun hs => (hcurrent.2 ⟨rfl, hs⟩).2.2, ?_⟩
    intro he hc
    exact (hcurrent.1 ⟨rfl, hc, he⟩).2
  · rintro ⟨hsource, hcontains⟩ f
    rw [hafter]
    constructor
    · rintro ⟨hf, hc, he⟩
      exact ⟨hf, hcontains he hc⟩
    · rintro ⟨hf, hs⟩
      exact ⟨hf, hs.containsSuffix, hsource hs⟩

end Laws

private theorem changes_first (file : List Char) : (fileTick ['/', 'a', '/'] file).ChangesDirectory beforeFolds :=
  ⟨nofun, rfl⟩

/-- The first tick draws the listing, in which no line is expanded. -/
private theorem redrawn_first (file : List Char) :
    Redrawn sourceSpeedbar (fileTick ['/', 'a', '/'] file) beforeFolds
      ⟨drawn sourceDirectory ['/', 'a', '/'], none, speedbarName, ⟨⟨['/', 'a', '/'], []⟩, none, []⟩⟩ :=
  (redrawn_of_changes (changes_first file)).2 rfl

/-- The first tick, in the source file. -/
theorem srSpeedbarRefresh_expands_source : ∃ s',
    tick sourceSpeedbar asciiTable (fileTick ['/', 'a', '/'] ['/', 'a', '/', 'm', '.', 'e', 'l']) beforeFolds =
        some (.ok (), s') ∧
      ∀ f, sourceFolds.expanded s'.bar.world f ↔
        f = ['/', 'a', '/', 'm', '.', 'e', 'l'] ∧ IsSource asciiTable ['/', 'a', '/', 'm', '.', 'e', 'l'] := by
  refine ⟨_, rfl, ?_⟩
  have hm : (fileTick ['/', 'a', '/'] ['/', 'a', '/', 'm', '.', 'e', 'l']).Marks beforeFolds
      ['/', 'a', '/', 'm', '.', 'e', 'l'] := ⟨rfl, Or.inl (changes_first _)⟩
  apply (srSpeedbarRefresh_expands_iff sourceFolds asciiTable hm (redrawn_first _) rfl ?_ rfl).2
  · exact ⟨fun _ => trivial, fun _ _ => by decide⟩
  · rintro f ⟨hf, -⟩
    cases hf

/-- The first tick, in the web page: `.h` occurs in its name. -/
theorem srSpeedbarRefresh_expands_page :
    ¬ IsSource asciiTable ['/', 'a', '/', 'x', '.', 'h', 't', 'm', 'l'] ∧ ∃ s',
      tick sourceSpeedbar asciiTable (fileTick ['/', 'a', '/'] ['/', 'a', '/', 'x', '.', 'h', 't', 'm', 'l'])
        beforeFolds = some (.ok (), s') ∧
      sourceFolds.expanded s'.bar.world ['/', 'a', '/', 'x', '.', 'h', 't', 'm', 'l'] :=
  ⟨by decide, _, rfl, by constructor <;> decide⟩

end EmacsDir
