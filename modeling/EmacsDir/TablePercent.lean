import EmacsDir.LineRun

/-!
# Percent signs

In the formatted row, a `%` is a literal percent sign for LaTeX when an odd number of backslashes stands immediately
before it.  The pass puts one backslash before each `%` that it looks at and none before the others, whatever stands
there already.  So a `%` comes out literal exactly when it is looked at with an even number of backslashes before
it, or passed with an odd number.
-/

namespace EmacsDir

open Transducer

/-- The number of consecutive backslashes at the end of a text. -/
def trailingBackslashes (u : List Char) : Nat := (u.reverse.takeWhile (· == '\\')).length

/-- Every `%` of the line is a literal percent sign. -/
def LiteralPercents (line : List Char) : Prop :=
  ∀ u v, line = u ++ '%' :: v → trailingBackslashes u % 2 = 1

theorem trailingBackslashes_concat (u : List Char) (c : Char) :
    trailingBackslashes (u ++ [c]) = if c = '\\' then trailingBackslashes u + 1 else 0 := by
  unfold trailingBackslashes
  by_cases h : c = '\\' <;> simp [h]

private theorem trailingBackslashes_of_ne (u : List Char) {c : Char} (h : c ≠ '\\') :
    trailingBackslashes (u ++ [c]) = 0 := by
  rw [trailingBackslashes_concat, if_neg h]

theorem literalPercents_concat {l : List Char} {c : Char} :
    LiteralPercents (l ++ [c]) ↔ LiteralPercents l ∧ (c = '%' → trailingBackslashes l % 2 = 1) :=
  forall_split_concat

section Read

variable {word : Char → Bool}

/-- What one character does to the backslashes at the end and to the percent signs. -/
private theorem percent_step {u o o' : List Char} {q q' : Mode} {c : Char}
    (h : (rowScan word).read .start u = some (o, q)) (hs : (rowScan word).step q c = some (o', q'))
    (ht : trailingBackslashes o = trailingBackslashes u) :
    trailingBackslashes (o ++ o') = trailingBackslashes (u ++ [c]) ∧
      (LiteralPercents (o ++ o') ↔ LiteralPercents o ∧
        (c = '%' → (trailingBackslashes u % 2 = 1 ↔ Passed word u '%'))) := by
  have happ : ∀ d, o ++ [d, c] = o ++ [d] ++ [c] := by simp
  rcases step_cases h hs with ⟨hp, rfl, -⟩ | ⟨-, hb, rfl, -⟩ | ⟨hp, rfl, rfl, -⟩ | ⟨-, -, hc, rfl, -⟩
  · refine ⟨by simp only [trailingBackslashes_concat, ht], ?_⟩
    rw [literalPercents_concat, ht]
    refine and_congr_right fun _ => ⟨fun hc he => ?_, fun hc he => ?_⟩
    · subst he; exact ⟨fun _ => hp, fun _ => hc rfl⟩
    · subst he; exact (hc rfl).2 hp
  · have hc : c ≠ '\\' := by rintro rfl; cases hb
    have hc' : c ≠ '%' := by rintro rfl; cases hb
    rw [happ]
    constructor
    · rw [trailingBackslashes_of_ne _ hc, trailingBackslashes_of_ne _ hc]
    · simp only [literalPercents_concat]
      simp [hc']
  · rw [happ]
    constructor
    · rw [trailingBackslashes_of_ne _ (by decide), trailingBackslashes_of_ne _ (by decide)]
    · simp only [literalPercents_concat, trailingBackslashes_concat, ht]
      -- looked at: the inserted backslash makes the number odd exactly when it was even
      simp [hp]
      omega
  · refine ⟨by simp only [trailingBackslashes_concat, ht], ?_⟩
    simp [literalPercents_concat, hc]

theorem literalPercents_read {row o : List Char} {q : Mode} (h : (rowScan word).read .start row = some (o, q)) :
    LiteralPercents o ↔
      ∀ u v, row = u ++ '%' :: v → (trailingBackslashes u % 2 = 1 ↔ Passed word u '%') := by
  suffices hs : trailingBackslashes o = trailingBackslashes row ∧ (LiteralPercents o ↔
      ∀ u v, row = u ++ '%' :: v → (trailingBackslashes u % 2 = 1 ↔ Passed word u '%')) from hs.2
  induction row using List.reverseRecOn generalizing o q with
  | nil =>
    cases h
    simp [LiteralPercents]
  | append_singleton row c ih =>
    obtain ⟨o₁, q₁, o₂, h₁, h₂, rfl⟩ := read_concat h
    obtain ⟨ht, hl⟩ := ih h₁
    obtain ⟨ht', hl'⟩ := percent_step h₁ h₂ ht
    refine ⟨ht', ?_⟩
    rw [hl', hl, forall_split_concat]

/-- What the command leaves of a line has only literal percent signs exactly when each `%` of the line is passed if
and only if it is already escaped. -/
theorem formatToLatexTable_percent_iff (word : Char → Bool) (row pre post : List Char) (b : Buffer) (fuel : Nat)
    (hrow : '\n' ∉ row) (hpre : Buffer.BeginsLine pre) (hb : b.text = pre ++ row ++ '\n' :: post)
    (hf : b.text.length < fuel) :
    (∃ r b', formatToLatexTable word fuel (pre.length + 1) (pre.length + row.length + 2) b = some (r, b') ∧
      LiteralPercents (lineAt pre.length b'.text)) ↔
      ∀ u v, row = u ++ '%' :: v → (trailingBackslashes u % 2 = 1 ↔ Passed word u '%') := by
  obtain ⟨o, q, hr⟩ := exists_read_line word hrow
  rw [formatToLatexTable_line hrow hpre hb hf, ← literalPercents_read hr]
  have hline : LiteralPercents (lineAt pre.length (rowPass word ⟨pre, row ++ '\n' :: post⟩).2.text) ↔
      LiteralPercents o := by
    rw [lineAt_rowPass pre post hrow hr]
    split
    · rfl
    · rw [show o ++ ['\\', '\\'] = o ++ ['\\'] ++ ['\\'] by simp, literalPercents_concat, literalPercents_concat]
      simp
  constructor
  · rintro ⟨_, _, he, hl⟩
    cases he
    exact hline.1 hl
  · intro hl
    exact ⟨_, _, rfl, hline.2 hl⟩

/-- A `%` behind a letter is looked at and gets its backslash. -/
theorem formatToLatexTable_percent_inside :
    ∃ r b', formatToLatexTable Char.isAlphanum 10 1 4 ⟨[], ['5', '%', '\n']⟩ = some (r, b') ∧
      LiteralPercents (lineAt 0 b'.text) :=
  (formatToLatexTable_percent_iff Char.isAlphanum ['5', '%'] [] [] _ 10 (by decide) (Or.inl rfl) rfl (by decide)).2
    (by
      intro u v h
      rcases u with _ | ⟨a, _ | ⟨d, u⟩⟩
      · cases h
      · cases h; decide
      · simp at h)

/-- A `%` at the start of the row is passed. -/
theorem formatToLatexTable_percent_first :
    ¬ ∃ r b', formatToLatexTable Char.isAlphanum 10 1 3 ⟨[], ['%', '\n']⟩ = some (r, b') ∧
      LiteralPercents (lineAt 0 b'.text) := by
  have hrun : formatToLatexTable Char.isAlphanum 10 1 3 ⟨[], ['%', '\n']⟩ =
      some (.ok (), ⟨['%', '\\', '\\', '\n'], []⟩) := by rfl
  rw [hrun]
  rintro ⟨r, b', he, hl⟩
  cases he
  have := hl [] ['\\', '\\'] (by decide)
  revert this
  decide

end Read

end EmacsDir
