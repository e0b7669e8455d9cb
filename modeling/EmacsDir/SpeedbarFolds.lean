import EmacsDir.SpeedbarTick

/-!
# Expanded lines

Which lines of the listing are expanded, and what a tick does to them: the remembered file's line is contracted, the
current file's line is expanded if its path contains one of five strings and the line has something to show, and no
other line changes (`tick_expanded`).
-/

namespace EmacsDir

open Command

variable {W : Type}

/-- What is assumed of the expansion of lines: only lines of the listing are expanded, the lookup of a file selects its
line, and contracting and expanding work on the selected line.  A line is expandable if it has the button for it. -/
structure FoldLaws {sb : Speedbar W} (laws : SpeedbarLaws sb) where
  expanded : W → List Char → Prop
  selected : W → Option (List Char)
  expandable : List Char → Prop
  listed : ∀ {w f}, expanded w f → (laws.nameSpan w f).isSome = true
  find : ∀ {f bar found bar'}, sb.findSelectedFile f bar = some (.ok found, bar') →
    (∀ g, expanded bar'.world g ↔ expanded bar.world g) ∧ (found = true → selected bar'.world = some f)
  contract : ∀ {bar bar'}, sb.contractLine bar = some (.ok (), bar') →
    ∀ g, expanded bar'.world g ↔ expanded bar.world g ∧ selected bar.world ≠ some g
  expand : ∀ {bar bar'}, sb.expandLine bar = some (.ok (), bar') →
    ∀ g, expanded bar'.world g ↔ expanded bar.world g ∨ (selected bar.world = some g ∧ expandable g)
  scroll : ∀ {window num bar bar'}, sb.scrollUp window num bar = some (.ok (), bar') →
    ∀ g, expanded bar'.world g ↔ expanded bar.world g

section Laws

variable {sb : Speedbar W} {laws : SpeedbarLaws sb} (folds : FoldLaws laws) {table : CaseTable}
variable {bar bar' : Bar W} {current : List Char}

/-- Scrolling leaves the expansions as they are. -/
theorem scrollSpeedbarBufferUp_expanded {num : Nat} (h : scrollSpeedbarBufferUp sb num bar = some (.ok (), bar'))
    (g : List Char) : folds.expanded bar'.world g ↔ folds.expanded bar.world g := by
  obtain ⟨window, bar₁, -, hscroll, rfl⟩ := scrollSpeedbarBufferUp_eq_ok_iff.1 h
  exact folds.scroll hscroll g

/-- The selected line is expanded if the path says so. -/
theorem showCurrent_expanded (hsel : folds.selected bar.world = some current)
    (h : showCurrent sb table current bar = some (.ok (), bar')) (g : List Char) :
    folds.expanded bar'.world g ↔
      folds.expanded bar.world g ∨ (g = current ∧ ContainsSuffix table current ∧ folds.expandable current) := by
  by_cases hc : ContainsSuffix table current
  · rw [showCurrent_of_suffix hc] at h
    obtain ⟨_, bar₁, hexpand, hscroll⟩ := bind_eq_ok_iff.1 h
    rw [scrollSpeedbarBufferUp_expanded folds hscroll, folds.expand hexpand, hsel, Option.some.injEq]
    constructor
    · rintro (hg | ⟨rfl, hg⟩)
      · exact Or.inl hg
      · exact Or.inr ⟨rfl, hc, hg⟩
    · rintro (hg | ⟨rfl, -, hg⟩)
      · exact Or.inl hg
      · exact Or.inr ⟨rfl, hg⟩
  · rw [showCurrent_of_not_suffix hc] at h
    rw [scrollSpeedbarBufferUp_expanded folds h]
    simp [hc]

/-- Marking a listed file selects its line and changes no expansion. -/
theorem markCurrent_selected (hlisted : (laws.nameSpan bar.world current).isSome = true)
    (h : markCurrent sb current bar = some (.ok (), bar')) :
    folds.selected bar'.world = some current ∧ ∀ g, folds.expanded bar'.world g ↔ folds.expanded bar.world g := by
  obtain ⟨bar₁, hfind, -⟩ := laws.find current bar
  rw [hlisted] at hfind
  obtain ⟨hsame, hsel⟩ := folds.find hfind
  unfold markCurrent at h
  rw [bind_ok hfind] at h
  obtain ⟨a, b, -, -, -, rfl⟩ := putFace_eq_ok.1 h
  exact ⟨hsel rfl, hsame⟩

/-- The remembered file's line is contracted. -/
theorem unmarkRemembered_expanded {last : Option (List Char)}
    (h : unmarkRemembered sb last bar = some (.ok (), bar')) (g : List Char) :
    folds.expanded bar'.world g ↔ folds.expanded bar.world g ∧ last ≠ some g := by
  cases last with
  | none =>
    obtain rfl : bar = bar' := (Prod.mk.inj (Option.some.inj h)).2
    simp
  | some last =>
    obtain ⟨bar₁, hfind, -, hkept, ⟨hspan, rfl⟩ | ⟨a, b, hspan, -, hcontract⟩⟩ := unmarkLast_cases laws h
    · -- what is not listed is not expanded either
      rw [(folds.find hfind).1]
      constructor
      · intro hg
        refine ⟨hg, ?_⟩
        intro he
        cases he
        have hlisted := folds.listed hg
        rw [hspan] at hlisted
        cases hlisted
      · exact And.left
    · obtain ⟨hsame, hselected⟩ := folds.find hfind
      have hlisted : (laws.nameSpan bar.world last).isSome = true := by
        rw [← hkept.listed, hspan]
        rfl
      rw [folds.contract hcontract g]
      show folds.expanded bar₁.world g ∧ folds.selected bar₁.world ≠ some g ↔ _
      rw [hsame, hselected hlisted]

/-- What a tick that marks a listed file does to the expanded lines. -/
theorem tick_expanded {t : Tick} {s s' : SrState W} (hm : t.Marks s current) (hr : Redrawn sb t s bar)
    (hlisted : (laws.nameSpan bar.world current).isSome = true) (h : tick sb table t s = some (.ok (), s'))
    (g : List Char) :
    folds.expanded s'.bar.world g ↔ (folds.expanded bar.world g ∧ s.lastBufferFilename ≠ some g) ∨
      (g = current ∧ ContainsSuffix table current ∧ folds.expandable current) := by
  obtain ⟨bar₂, hunmark, hlisted₂, hshow, -, -⟩ := tick_marks_listed laws hm hr hlisted h
  obtain ⟨bar₃, hmark, hshow⟩ := markAndShow_eq_ok_iff.1 hshow
  obtain ⟨hsel, hsame⟩ := markCurrent_selected folds hlisted₂ hmark
  rw [showCurrent_expanded folds hsel hshow, hsame, unmarkRemembered_expanded folds hunmark]

end Laws

end EmacsDir
