import EmacsDir.LineRun
import EmacsDir.TableRows

/-!
# Separators and cells

A cell of a line is a maximal run of characters other than blanks.  In the modes that are `Ready`, a pass puts a
separator before the next blank and then skips to the end of the next word.  So it puts one separator into each gap
between two cells, none elsewhere and the terminator at the end of the line, exactly when there is at most one blank
before the first cell, there is none behind the last cell and every cell behind the first contains a word constituent.
-/

namespace EmacsDir

open Transducer

/-- A non-empty run of blanks. -/
def IsGap (g : List Char) : Prop := g ≠ [] ∧ ∀ c ∈ g, isBlank c = true

/-- A non-empty run of other characters. -/
def IsCell (c : List Char) : Prop := c ≠ [] ∧ ∀ a ∈ c, isBlank a = false ∧ a ≠ '\n'

/-- A line with at least one cell: blanks, the first cell, the others with the gaps before them, and blanks. -/
structure CellRow where
  lead : List Char
  first : List Char
  others : List (List Char × List Char)
  trail : List Char
  lead_blank : ∀ c ∈ lead, isBlank c = true
  first_cell : IsCell first
  others_cell : ∀ p ∈ others, IsGap p.1 ∧ IsCell p.2
  trail_blank : ∀ c ∈ trail, isBlank c = true

/-- The text of some gaps and the cells behind them. -/
def cellsText (ps : List (List Char × List Char)) : List Char := ps.flatMap fun p => p.1 ++ p.2

def CellRow.text (r : CellRow) : List Char := r.lead ++ r.first ++ cellsText r.others ++ r.trail

/-- A text in which each gap has got one separator, and the cells have got backslashes only. -/
inductive Separated : List (List Char × List Char) → List Char → Prop
  | nil : Separated [] []
  | cons {u v c c' t : List Char} {ps : List (List Char × List Char)} :
      Inserts (· = '\\') c c' → Separated ps t → Separated ((u ++ v, c) :: ps) (u ++ '&' :: v ++ c' ++ t)

/-- The formatted row: one separator somewhere between each two consecutive cells, none before the first cell or
behind the last. -/
def CellRow.Formatted (r : CellRow) (row : List Char) : Prop :=
  ∃ first t, Inserts (· = '\\') r.first first ∧ Separated r.others t ∧ row = r.lead ++ first ++ t ++ r.trail

@[simp] theorem cellsText_nil : cellsText [] = [] := rfl

@[simp] theorem cellsText_cons (g c : List Char) (ps : List (List Char × List Char)) :
    cellsText ((g, c) :: ps) = g ++ c ++ cellsText ps := by
  simp [cellsText]

theorem cellsText_append (ps qs : List (List Char × List Char)) :
    cellsText (ps ++ qs) = cellsText ps ++ cellsText qs := List.flatMap_append

/-- Every line with a character that is no blank is the text of a row of cells. -/
theorem exists_cellRow {line : List Char} (hline : '\n' ∉ line) (h : ∃ c ∈ line, isBlank c = false) :
    ∃ r : CellRow, r.text = line := by
  induction line with
  | nil => simp at h
  | cons c line ih =>
    simp only [List.mem_cons, not_or] at hline
    have hc : c ≠ '\n' := fun hc => hline.1 hc.symm
    by_cases hl : ∃ c ∈ line, isBlank c = false
    · obtain ⟨⟨lead, first, others, trail, hlead, hfirst, hothers, htrail⟩, rfl⟩ := ih hline.2 hl
      cases hb : isBlank c with
      | true => exact ⟨⟨c :: lead, first, others, trail, by simpa [hb] using hlead, hfirst, hothers, htrail⟩, rfl⟩
      | false =>
        -- `c` belongs to the first cell if no blank follows it, and is a cell of its own otherwise
        cases lead with
        | nil =>
          have hcell : IsCell (c :: first) := ⟨by simp, by simpa [hb, hc] using hfirst.2⟩
          exact ⟨⟨[], c :: first, others, trail, by simp, hcell, hothers, htrail⟩, rfl⟩
        | cons a lead =>
          have hcell : IsCell [c] := ⟨by simp, by simp [hb, hc]⟩
          have hgap : IsGap (a :: lead) := ⟨by simp, hlead⟩
          refine ⟨⟨[], [c], (a :: lead, first) :: others, trail, by simp, hcell, ?_, htrail⟩, ?_⟩
          · simpa [hgap, hfirst] using hothers
          · simp [CellRow.text]
    · have hblank : ∀ a ∈ line, isBlank a = true := by simpa using hl
      have hb : isBlank c = false := by simpa [hl] using h
      exact ⟨⟨[], [c], [], line, by simp, ⟨by simp, by simp [hb, hc]⟩, by simp, hblank⟩, rfl⟩

/-! ### A pass over cells and gaps -/

section Read

variable {s : WordSyntax}

private theorem read_cell_of_ready {q : Mode} (hq : q.Ready) {c : List Char}
    (hc : ∀ a ∈ c, isBlank a = false ∧ a ≠ '\n') :
    ∃ o q', (rowScan s.word).read q c = some (o, q') ∧ q'.Ready ∧ Inserts (· = '\\') c o := by
  induction c generalizing q with
  | nil => exact ⟨[], q, rfl, hq, .nil⟩
  | cons a c ih =>
    have hstep : ∃ o q', (rowScan s.word).step q a = some (o, q') ∧ q'.Ready ∧ Inserts (· = '\\') [a] o := by
      obtain ⟨hb, hn⟩ := hc a (by simp)
      by_cases hw : q = .inWord ∧ s.word a = true
      · obtain ⟨rfl, hw⟩ := hw
        exact ⟨[a], .inWord, by rw [rowScan_inWord, hw]; rfl, Or.inr (Or.inr rfl), .refl _⟩
      · have hlook : (rowScan s.word).step q a = lookStep s.word a := by
          rcases hq with rfl | rfl | rfl
          · rfl
          · rfl
          · rw [rowScan_inWord, if_neg (by simpa using hw)]
        rw [hlook]
        by_cases hp : a = '%'
        · subst hp
          exact ⟨_, _, lookStep_percent, Or.inr (Or.inl rfl), .add rfl (.refl _)⟩
        · exact ⟨_, _, lookStep_other hn hb hp, Or.inr (Or.inl rfl), .refl _⟩
    obtain ⟨o₁, q₁, hs, hq₁, hi₁⟩ := hstep
    obtain ⟨o₂, q₂, hr, hq₂, hi₂⟩ := ih hq₁ fun x hx => hc x (by simp [hx])
    exact ⟨o₁ ++ o₂, q₂, read_cons_iff.2 ⟨o₁, q₁, o₂, hs, hr, rfl⟩, hq₂, hi₁.append hi₂⟩

/-- Under `forward-word`, a cell is passed up to the end of its first word. -/
private theorem read_cell_of_word {c : List Char} (hc : ∀ a ∈ c, isBlank a = false ∧ a ≠ '\n')
    (hw : ∃ a ∈ c, s.word a = true) :
    ∃ o q', (rowScan s.word).read .skipping c = some (o, q') ∧ q'.Ready ∧ Inserts (· = '\\') c o := by
  induction c with
  | nil => simp at hw
  | cons a c ih =>
    have htail : ∀ x ∈ c, isBlank x = false ∧ x ≠ '\n' := fun x hx => hc x (by simp [hx])
    have hs : (rowScan s.word).step .skipping a = some ([a], jumpMode s.word a) := rfl
    cases ha : s.word a with
    | true =>
      obtain ⟨o, q', hr, hq', hi⟩ := read_cell_of_ready (s := s) (q := .inWord) (Or.inr (Or.inr rfl)) htail
      simp only [jumpMode, ha, ite_true] at hs
      exact ⟨[a] ++ o, q', read_cons_iff.2 ⟨[a], _, o, hs, hr, rfl⟩, hq', .keep a hi⟩
    | false =>
      obtain ⟨o, q', hr, hq', hi⟩ := ih htail (by simpa [ha] using hw)
      simp only [jumpMode, ha, Bool.false_eq_true, ite_false] at hs
      exact ⟨[a] ++ o, q', read_cons_iff.2 ⟨[a], _, o, hs, hr, rfl⟩, hq', .keep a hi⟩

/-- Under `forward-word`, a text without word constituents is passed and leaves it going on. -/
private theorem read_skipping {c : List Char} (hw : ∀ a ∈ c, s.word a = false) :
    (rowScan s.word).read .skipping c = some (c, .skipping) := by
  induction c with
  | nil => rfl
  | cons a c ih =>
    have hs : (rowScan s.word).step .skipping a = some ([a], .skipping) := by
      rw [rowScan_skipping, jumpMode, hw a (by simp)]
      rfl
    exact read_cons_iff.2 ⟨[a], .skipping, c, hs, ih fun x hx => hw x (by simp [hx]), rfl⟩

private theorem read_gap_of_ready {q : Mode} (hq : q.Ready) {g : List Char} (hg : IsGap g) :
    (rowScan s.word).read q g = some ('&' :: g, .skipping) := by
  obtain ⟨hne, hb⟩ := hg
  cases g with
  | nil => exact absurd rfl hne
  | cons b g =>
    have hbb := hb b (by simp)
    have hs : (rowScan s.word).step q b = some (['&', b], .skipping) := by
      rw [hq.step (s.blank b hbb), lookStep_blank hbb, jumpMode, s.blank b hbb]
      rfl
    have hr := read_skipping (s := s) (c := g) fun x hx => s.blank x (hb x (by simp [hx]))
    exact read_cons_iff.2 ⟨['&', b], .skipping, g, hs, hr, rfl⟩

/-- Gaps before cells that all contain a word constituent get one separator each. -/
private theorem read_separated {ps : List (List Char × List Char)} (hps : ∀ p ∈ ps, IsGap p.1 ∧ IsCell p.2)
    (hw : ∀ p ∈ ps, ∃ a ∈ p.2, s.word a = true) {q : Mode} (hq : q.Ready) :
    ∃ o q', (rowScan s.word).read q (cellsText ps) = some (o, q') ∧ q'.Ready ∧ Separated ps o := by
  induction ps generalizing q with
  | nil => exact ⟨[], q, rfl, hq, .nil⟩
  | cons p ps ih =>
    obtain ⟨g, c⟩ := p
    obtain ⟨hg, hc⟩ := hps (g, c) (by simp)
    have h₁ := read_gap_of_ready (s := s) hq hg
    obtain ⟨c', q₂, h₂, hq₂, hi⟩ := read_cell_of_word hc.2 (hw (g, c) (by simp))
    obtain ⟨t, q₃, h₃, hq₃, ht⟩ := ih (fun p hp => hps p (by simp [hp])) (fun p hp => hw p (by simp [hp])) hq₂
    refine ⟨'&' :: g ++ c' ++ t, q₃, ?_, hq₃, ?_⟩
    · rw [cellsText_cons]
      exact read_append (read_append h₁ h₂) h₃
    · exact .cons (u := []) hi ht

/-- The blanks before the first cell are passed when there is at most one. -/
private theorem read_first {lead first : List Char} (hlead : ∀ c ∈ lead, isBlank c = true) (hfirst : IsCell first)
    (hlen : lead.length ≤ 1) :
    ∃ o q, (rowScan s.word).read .start (lead ++ first) = some (lead ++ o, q) ∧ q.Ready ∧
      Inserts (· = '\\') first o := by
  obtain ⟨hne, hc⟩ := hfirst
  have hstart : ∀ {a : Char}, (rowScan s.word).step .start a = some ([a], .landed) := rfl
  rcases lead with _ | ⟨b, _ | ⟨b', lead⟩⟩
  · cases first with
    | nil => exact absurd rfl hne
    | cons a first =>
      obtain ⟨o, q, hr, hq, hi⟩ := read_cell_of_ready (s := s) (q := .landed) (Or.inl rfl)
        fun x hx => hc x (List.mem_cons_of_mem _ hx)
      exact ⟨a :: o, q, read_cons_iff.2 ⟨[a], .landed, o, hstart, hr, rfl⟩, hq, .keep a hi⟩
  · obtain ⟨o, q, hr, hq, hi⟩ := read_cell_of_ready (s := s) (q := .landed) (Or.inl rfl) hc
    exact ⟨o, q, read_cons_iff.2 ⟨[b], .landed, o, hstart, hr, rfl⟩, hq, hi⟩
  · simp at hlen

/-- Under the condition, a pass formats the row. -/
theorem rowPass_cellRow (r : CellRow) (hlead : r.lead.length ≤ 1) (htrail : r.trail = [])
    (hw : ∀ p ∈ r.others, ∃ a ∈ p.2, s.word a = true) (pre post : List Char) :
    ∃ row k, r.Formatted row ∧
      rowPass s.word ⟨pre, r.text ++ '\n' :: post⟩ = (.ok k, ⟨pre ++ row ++ ['\\', '\\', '\n'], post⟩) := by
  obtain ⟨o, q, hr, hq, hi⟩ := read_first (s := s) r.lead_blank r.first_cell hlead
  obtain ⟨t, q', hr', hq', ht⟩ := read_separated r.others_cell hw hq
  have hs : (rowScan s.word).step q' '\n' = none := by
    rw [hq'.step s.newline]
    rfl
  have hpass := rowPass_newline (p := pre) (v := post) (read_append hr hr') hs
  have htext : r.text = r.lead ++ r.first ++ cellsText r.others := by simp [CellRow.text, htrail]
  rw [htext]
  exact ⟨_, _, ⟨o, t, hi, ht, by simp [htrail]⟩, hpass⟩

end Read

/-! ### Where the condition fails -/

section Fail

variable {s : WordSyntax}

theorem count_inserts {u v : List Char} (h : Inserts (· = '\\') u v) : v.count '&' = u.count '&' := by
  have hf := h.filter_eq (· == '&') (by rintro a rfl; rfl)
  rw [List.count_eq_length_filter, List.count_eq_length_filter, hf]

theorem Separated.count {ps : List (List Char × List Char)} {t : List Char} (h : Separated ps t) :
    t.count '&' = (cellsText ps).count '&' + ps.length := by
  induction h with
  | nil => rfl
  | cons hi _ ih =>
    have hc := count_inserts hi
    simp only [cellsText_cons, List.count_append, List.count_cons_self, List.length_cons] at ih ⊢
    omega

theorem CellRow.Formatted.count {r : CellRow} {row : List Char} (h : r.Formatted row) :
    row.count '&' = r.text.count '&' + r.others.length := by
  obtain ⟨first, t, hi, ht, rfl⟩ := h
  have hc := count_inserts hi
  have htc := ht.count
  unfold CellRow.text
  simp only [List.count_append]
  omega

theorem Separated.inserts {ps : List (List Char × List Char)} {t : List Char} (h : Separated ps t) :
    Inserts IsMark (cellsText ps) t := by
  induction h with
  | nil => exact .nil
  | @cons u v c c' t ps hi _ ih =>
    have hgap : Inserts IsMark (u ++ v) (u ++ '&' :: v) := (Inserts.refl u).append (.add (Or.inl rfl) (.refl v))
    have hcell : Inserts IsMark c c' := hi.mono fun _ h => Or.inr h
    rw [cellsText_cons]
    exact (hgap.append hcell).append ih

/-- A formatted row is the row with marks inserted. -/
theorem CellRow.Formatted.inserts {r : CellRow} {row : List Char} (h : r.Formatted row) :
    Inserts IsMark r.text row := by
  obtain ⟨first, t, hi, ht, rfl⟩ := h
  have hfirst : Inserts IsMark r.first first := hi.mono fun _ h => Or.inr h
  exact (((Inserts.refl r.lead).append hfirst).append ht.inserts).append (.refl r.trail)

theorem Separated.last {ps : List (List Char × List Char)} {g c t : List Char}
    (h : Separated (ps ++ [(g, c)]) t) : ∃ t' c', t = t' ++ c' ∧ Inserts (· = '\\') c c' := by
  generalize hqs : ps ++ [(g, c)] = qs at h
  induction h generalizing ps with
  | nil => simp at hqs
  | @cons u v d d' t qs hi ht ih =>
    cases ps with
    | nil =>
      obtain ⟨hp, rfl⟩ := List.cons.inj hqs
      cases hp
      cases ht
      exact ⟨u ++ '&' :: v, d', by simp, hi⟩
    | cons p ps =>
      obtain ⟨-, hqs⟩ := List.cons.inj hqs
      obtain ⟨t', c', rfl, hc⟩ := ih hqs
      exact ⟨u ++ '&' :: v ++ d' ++ t', c', by simp, hc⟩

theorem Mode.ready_or {q : Mode} (hq : q ≠ .start) : q.Ready ∨ q = .skipping := by
  cases q with
  | start => exact absurd rfl hq
  | landed => exact Or.inl (Or.inl rfl)
  | scanning => exact Or.inl (Or.inr (Or.inl rfl))
  | skipping => exact Or.inr rfl
  | inWord => exact Or.inl (Or.inr (Or.inr rfl))

theorem Mode.Ready.ne_start {q : Mode} (hq : q.Ready) : q ≠ .start := by
  rcases hq with rfl | rfl | rfl <;> simp

private theorem ne_start_of_read {word : Char → Bool} {u o : List Char} {q : Mode}
    (h : (rowScan word).read .start u = some (o, q)) (hu : u ≠ []) : q ≠ .start := by
  rintro rfl
  exact hu (describes_of_read h)

/-- A row that leaves `forward-word` going on is not ended by its newline. -/
private theorem passed_newline {word : Char → Bool} {row o : List Char}
    (h : (rowScan word).read .start row = some (o, .skipping)) : Passed word row '\n' := by
  by_contra hp
  have hs := (step_newline_eq_none h).2 hp
  cases hs

/-- A gap gets at most one separator, and none under `forward-word`, which goes on behind the gap. -/
private theorem read_gap {q : Mode} (hq : q ≠ .start) {g : List Char} (hg : IsGap g) :
    (rowScan s.word).read q g = some (if q = .skipping then g else '&' :: g, .skipping) := by
  rcases q.ready_or hq with h | rfl
  · have hne : q ≠ .skipping := by rcases h with rfl | rfl | rfl <;> simp
    rw [if_neg hne, read_gap_of_ready h hg]
  · rw [if_pos rfl, read_skipping fun a ha => s.blank a (hg.2 a ha)]

private theorem read_cell {c : List Char} (hc : IsCell c) :
    ∃ o q, (rowScan s.word).read .skipping c = some (o, q) ∧ q ≠ .start ∧ o.count '&' = c.count '&' := by
  by_cases hw : ∃ a ∈ c, s.word a = true
  · obtain ⟨o, q, hr, hq, hi⟩ := read_cell_of_word (s := s) hc.2 hw
    exact ⟨o, q, hr, hq.ne_start, count_inserts hi⟩
  · have hw' : ∀ a ∈ c, s.word a = false := by simpa using hw
    exact ⟨c, .skipping, read_skipping hw', by simp, rfl⟩

/-- At most one separator for each gap, and one less under `forward-word`. -/
private theorem count_read_le (ps : List (List Char × List Char)) (hps : ∀ p ∈ ps, IsGap p.1 ∧ IsCell p.2)
    {q : Mode} (hq : q ≠ .start) :
    ∃ o q', (rowScan s.word).read q (cellsText ps) = some (o, q') ∧ q' ≠ .start ∧
      o.count '&' ≤ (cellsText ps).count '&' + ps.length ∧
      (q = .skipping → ps ≠ [] → o.count '&' < (cellsText ps).count '&' + ps.length) := by
  induction ps generalizing q with
  | nil => exact ⟨[], q, rfl, hq, Nat.le_refl _, fun _ h => absurd rfl h⟩
  | cons p ps ih =>
    obtain ⟨g, c⟩ := p
    obtain ⟨hg, hc⟩ := hps (g, c) (by simp)
    have h₁ := read_gap (s := s) hq hg
    obtain ⟨c', q₂, h₂, hq₂, hcount⟩ := read_cell (s := s) hc
    obtain ⟨t, q₃, h₃, hq₃, ht, -⟩ := ih (fun p hp => hps p (by simp [hp])) hq₂
    rw [cellsText_cons]
    refine ⟨_, q₃, read_append (read_append h₁ h₂) h₃, hq₃, ?_, ?_⟩
    · simp only [List.count_append, List.length_cons] at hcount ⊢
      split
      · omega
      · rw [List.count_cons_self]
        omega
    · rintro rfl -
      simp only [List.count_append, List.length_cons, ite_true] at hcount ⊢
      omega

/-- The characters behind the last blank. -/
private def afterBlank (l : List Char) : List Char := l.reverse.takeWhile fun c => !isBlank c

private theorem length_afterBlank {y c : List Char} (hc : ∀ a ∈ c, isBlank a = false) :
    c.length ≤ (afterBlank (y ++ c)).length ∧
      ((∃ b ∈ y.getLast?, isBlank b = true) → (afterBlank (y ++ c)).length = c.length) := by
  have hall : ∀ a ∈ c.reverse, (!isBlank a) = true := by
    intro a ha
    rw [hc a (List.mem_reverse.1 ha)]
    rfl
  unfold afterBlank
  rw [List.reverse_append, List.takeWhile_append_of_pos hall, List.length_append, List.length_reverse]
  refine ⟨Nat.le_add_right _ _, ?_⟩
  rintro ⟨b, hb, hblank⟩
  obtain ⟨y', rfl⟩ := List.getLast?_eq_some_iff.1 hb
  simp [hblank]

/-- What the pass leaves of the line. -/
private def lineOut (word : Char → Bool) (row o : List Char) : List Char :=
  if Passed word row '\n' then o else o ++ ['\\', '\\']

private theorem lineOut_eq (word : Char → Bool) (row o : List Char) :
    ∃ t, lineOut word row o = o ++ t ∧ t.count '&' = 0 := by
  unfold lineOut
  split
  · exact ⟨[], by simp, rfl⟩
  · exact ⟨_, rfl, rfl⟩

private theorem lead_of_formatted {r : CellRow} {row o : List Char} {q : Mode}
    (hr : (rowScan s.word).read .start r.text = some (o, q)) (hrow : r.Formatted row)
    (hx : lineOut s.word r.text o = row ++ ['\\', '\\']) : r.lead.length ≤ 1 := by
  obtain ⟨t, ht, -⟩ := lineOut_eq s.word r.text o
  obtain ⟨first, t', -, -, rfl⟩ := hrow
  rw [ht] at hx
  have hblank := r.lead_blank
  unfold CellRow.text at hr
  rcases hl : r.lead with _ | ⟨b, _ | ⟨b', lead⟩⟩ <;> rw [hl] at hr hx hblank
  · simp
  · simp
  · -- the second blank is looked at
    have hb : isBlank b' = true := hblank b' (by simp)
    simp only [List.cons_append] at hr hx
    obtain ⟨o₁, q₁, o₂, h₁, hr, rfl⟩ := read_cons_iff.1 hr
    cases h₁
    obtain ⟨o₃, q₂, o₄, h₂, -, rfl⟩ := read_cons_iff.1 hr
    rw [rowScan_landed, lookStep_blank hb] at h₂
    cases h₂
    simp only [List.cons_append, List.nil_append] at hx
    obtain ⟨-, hx⟩ := List.cons.inj hx
    obtain ⟨rfl, -⟩ := List.cons.inj hx
    cases hb

private theorem trail_of_formatted {r : CellRow} {row o : List Char} {q : Mode}
    (hr : (rowScan s.word).read .start r.text = some (o, q))
    (hx : lineOut s.word r.text o = row ++ ['\\', '\\']) : r.trail = [] := by
  rcases List.eq_nil_or_concat r.trail with h | ⟨y, b, h⟩
  · exact h
  · exfalso
    rw [List.concat_eq_append] at h
    have hb : isBlank b = true := r.trail_blank b (by simp [h])
    have htext : r.text = r.lead ++ r.first ++ cellsText r.others ++ y ++ [b] := by simp [CellRow.text, h]
    have hne : r.lead ++ r.first ++ cellsText r.others ++ y ≠ [] := by simp [r.first_cell.1]
    rw [htext] at hr hx
    obtain ⟨o₁, q₁, o₂, h₁, h₂, rfl⟩ := read_concat hr
    have hgap := read_gap (s := s) (ne_start_of_read h₁ hne) (g := [b]) ⟨by simp, by simpa using hb⟩
    rw [read_singleton_iff, h₂] at hgap
    obtain ⟨rfl, rfl⟩ := Prod.mk.inj (Option.some.inj hgap)
    rw [lineOut, if_pos (passed_newline hr)] at hx
    have hlast := congrArg List.getLast? hx
    have hl : (if q₁ = .skipping then [b] else ['&', b]).getLast? = some b := by split <;> rfl
    rw [List.getLast?_append, hl, List.getLast?_append] at hlast
    have hbs : b = '\\' := by simpa using hlast
    subst hbs
    cases hb

/-- Behind a last cell without word constituents there is no terminator. -/
private theorem last_of_formatted {r : CellRow} {row o g c : List Char} {q : Mode}
    {A : List (List Char × List Char)} (hr : (rowScan s.word).read .start r.text = some (o, q))
    (hrow : r.Formatted row) (hx : lineOut s.word r.text o = row ++ ['\\', '\\'])
    (hothers : r.others = A ++ [(g, c)]) (htrail : r.trail = []) : ∃ a ∈ c, s.word a = true := by
  by_contra hw
  have hw' : ∀ a ∈ c, s.word a = false := by simpa using hw
  obtain ⟨hg, hc⟩ := r.others_cell (g, c) (by simp [hothers])
  obtain ⟨first, t, -, ht, rfl⟩ := hrow
  rw [hothers] at ht
  obtain ⟨t', c', rfl, hc'⟩ := ht.last
  have htext : r.text = r.lead ++ r.first ++ cellsText A ++ g ++ c := by
    simp [CellRow.text, htrail, hothers, cellsText_append]
  have hne : r.lead ++ r.first ++ cellsText A ≠ [] := by simp [r.first_cell.1]
  rw [htext] at hr hx
  obtain ⟨o₁, q₁, o₂, h₁, h₂, rfl⟩ := read_append_iff.1 hr
  obtain ⟨o₃, q₂, o₄, h₃, h₄, rfl⟩ := read_append_iff.1 h₁
  rw [read_gap (ne_start_of_read h₃ hne) hg] at h₄
  obtain ⟨rfl, rfl⟩ := Prod.mk.inj (Option.some.inj h₄)
  rw [read_skipping hw'] at h₂
  obtain ⟨rfl, rfl⟩ := Prod.mk.inj (Option.some.inj h₂)
  rw [lineOut, if_pos (passed_newline hr), htrail, List.append_nil] at hx
  have hgap : ∃ b ∈ (o₃ ++ if q₂ = .skipping then g else '&' :: g).getLast?, isBlank b = true := by
    obtain ⟨y, b, rfl⟩ := (List.eq_nil_or_concat g).resolve_left hg.1
    refine ⟨b, ?_, hg.2 b (by simp)⟩
    split <;> simp [List.getLast?_append, List.getLast?_cons]
  have hcell : ∀ a ∈ c' ++ ['\\', '\\'], isBlank a = false := by
    intro a ha
    rcases List.mem_append.1 ha with ha | ha
    · rcases hc'.mem ha with ha | rfl
      · exact (hc.2 a ha).1
      · rfl
    · obtain rfl : a = '\\' := by simpa using ha
      rfl
  -- the pass leaves the last cell as it is, and the formatted row has the terminator behind it
  have heq : (afterBlank (o₃ ++ (if q₂ = .skipping then g else '&' :: g) ++ c)).length = c.length :=
    (length_afterBlank fun a ha => (hc.2 a ha).1).2 hgap
  have hge : (c' ++ ['\\', '\\']).length ≤ (afterBlank (r.lead ++ first ++ t' ++ (c' ++ ['\\', '\\']))).length :=
    (length_afterBlank hcell).1
  have hassoc : r.lead ++ first ++ (t' ++ c') ++ ['\\', '\\'] = r.lead ++ first ++ t' ++ (c' ++ ['\\', '\\']) := by
    simp
  have hlen := hc'.sublist.length_le
  rw [hx, hassoc] at heq
  rw [List.length_append] at hge
  simp only [List.length_cons] at hge
  omega

/-- The gap behind a cell without word constituents gets no separator. -/
private theorem middle_of_formatted {r : CellRow} {row o g c : List Char} {q : Mode} {p : List Char × List Char}
    {A B : List (List Char × List Char)} (hr : (rowScan s.word).read .start r.text = some (o, q))
    (hrow : r.Formatted row) (hx : lineOut s.word r.text o = row ++ ['\\', '\\'])
    (hothers : r.others = A ++ (g, c) :: p :: B) (htrail : r.trail = []) : ∃ a ∈ c, s.word a = true := by
  by_contra hw
  have hw' : ∀ a ∈ c, s.word a = false := by simpa using hw
  have hg := (r.others_cell (g, c) (by simp [hothers])).1
  obtain ⟨o₁, q₁, h₁, hq₁, hi⟩ := read_first (s := s) r.lead_blank r.first_cell (lead_of_formatted hr hrow hx)
  obtain ⟨o₂, q₂, h₂, hq₂, hle, -⟩ :=
    count_read_le (s := s) A (fun p' hp' => r.others_cell p' (by simp [hothers, hp'])) hq₁.ne_start
  -- the gap of `p` is passed under the `forward-word` of the gap before `c`
  obtain ⟨o₃, q₃, h₃, -, -, hlt⟩ :=
    count_read_le (s := s) (p :: B) (q := .skipping)
      (fun p' hp' => r.others_cell p' (by rw [hothers]; exact List.mem_append_right _ (List.mem_cons_of_mem _ hp')))
      (by simp)
  have hread := read_append (read_append (read_append (read_append h₁ h₂) (read_gap hq₂ hg)) (read_skipping hw')) h₃
  have htext : r.text = r.lead ++ r.first ++ cellsText A ++ g ++ c ++ cellsText (p :: B) := by
    simp [CellRow.text, htrail, hothers, cellsText_append]
  rw [← htext, hr] at hread
  obtain ⟨rfl, rfl⟩ := Prod.mk.inj (Option.some.inj hread)
  obtain ⟨t, ht, ht0⟩ := lineOut_eq s.word r.text
    (r.lead ++ o₁ ++ o₂ ++ (if q₂ = .skipping then g else '&' :: g) ++ c ++ o₃)
  have hgap : (if q₂ = .skipping then g else '&' :: g).count '&' ≤ g.count '&' + 1 := by
    split
    · omega
    · rw [List.count_cons_self]
  have hcount := congrArg (List.count '&') (ht.symm.trans hx)
  have hfirst := count_inserts hi
  have hrest := hlt rfl (by simp)
  have hend : (row ++ ['\\', '\\']).count '&' = row.count '&' := by simp
  rw [hend, hrow.count, htext, hothers] at hcount
  simp only [List.count_append, List.length_append, List.length_cons] at hcount hrest ht0
  omega

end Fail

/-- On a line with some cell, the command puts one separator between each two consecutive cells, none elsewhere, and
the terminator at the end of the line exactly when at most one blank stands before the first cell, none behind the
last one, and every cell behind the first contains a word constituent. -/
theorem formatToLatexTable_cells_iff (s : WordSyntax) (line pre post : List Char) (b : Buffer) (fuel : Nat)
    (hline : '\n' ∉ line) (hcell : ∃ c ∈ line, isBlank c = false) (hpre : Buffer.BeginsLine pre)
    (hb : b.text = pre ++ line ++ '\n' :: post) (hf : b.text.length < fuel) :
    (∃ r : CellRow, r.text = line) ∧ ∀ r : CellRow, r.text = line →
      ((∃ b' row, formatToLatexTable s.word fuel (pre.length + 1) (pre.length + line.length + 2) b = some (.ok (), b') ∧
        r.Formatted row ∧ b'.text = pre ++ row ++ ['\\', '\\', '\n'] ++ post) ↔
        r.lead.length ≤ 1 ∧ r.trail = [] ∧ ∀ p ∈ r.others, ∃ a ∈ p.2, s.word a = true) := by
  refine ⟨exists_cellRow hline hcell, ?_⟩
  rintro r rfl
  rw [formatToLatexTable_line hline hpre hb hf]
  constructor
  · rintro ⟨b', row, hrun, hrow, htext⟩
    obtain ⟨o, q, hr⟩ := exists_read_line s.word hline
    obtain ⟨-, rfl⟩ := Prod.mk.inj (Option.some.inj hrun)
    have hx : lineOut s.word r.text o = row ++ ['\\', '\\'] := by
      have hnl : '\n' ∉ row ++ ['\\', '\\'] := by simpa using newline_notMem_of_inserts hrow.inserts hline
      have hline' := lineAt_rowPass pre post hline hr
      rw [htext, show pre ++ row ++ ['\\', '\\', '\n'] ++ post = pre ++ (row ++ ['\\', '\\']) ++ '\n' :: post by simp,
        lineAt_append hnl] at hline'
      exact hline'.symm
    have htrail := trail_of_formatted hr hx
    refine ⟨lead_of_formatted hr hrow hx, htrail, ?_⟩
    rintro ⟨g, c⟩ hp
    obtain ⟨A, B, hAB⟩ := List.append_of_mem hp
    cases B with
    | nil => exact last_of_formatted hr hrow hx hAB htrail
    | cons p B => exact middle_of_formatted hr hrow hx hAB htrail
  · rintro ⟨hlead, htrail, hw⟩
    obtain ⟨row, k, hrow, hpass⟩ := rowPass_cellRow r hlead htrail hw pre post
    rw [hpass]
    exact ⟨_, row, rfl, hrow, rfl⟩

/-- Two words. -/
theorem formatToLatexTable_cells_two_words :
    ∃ b' row, formatToLatexTable asciiSyntax.word 10 1 5 ⟨[], ['a', ' ', 'b', '\n']⟩ = some (.ok (), b') ∧
      CellRow.Formatted ⟨[], ['a'], [([' '], ['b'])], [], by simp, by simp [IsCell, isBlank],
        by simp [IsGap, IsCell, isBlank], by simp⟩ row ∧
      b'.text = [] ++ row ++ ['\\', '\\', '\n'] ++ [] :=
  ((formatToLatexTable_cells_iff asciiSyntax ['a', ' ', 'b'] [] [] _ 10 (by decide) ⟨'a', by simp, rfl⟩ (Or.inl rfl)
    rfl (by decide)).2 _ rfl).2 ⟨by decide, rfl, by simp; rfl⟩

/-- The cell `-` contains no word constituent, and there is no separator behind it. -/
theorem formatToLatexTable_cells_dash :
    ¬ ∃ b' row, formatToLatexTable asciiSyntax.word 10 1 7 ⟨[], ['a', ' ', '-', ' ', 'b', '\n']⟩ = some (.ok (), b') ∧
      CellRow.Formatted ⟨[], ['a'], [([' '], ['-']), ([' '], ['b'])], [], by simp, by simp [IsCell, isBlank],
        by simp [IsGap, IsCell, isBlank], by simp⟩ row ∧
      b'.text = [] ++ row ++ ['\\', '\\', '\n'] ++ [] := by
  have hrun : formatToLatexTable asciiSyntax.word 10 1 7 ⟨[], ['a', ' ', '-', ' ', 'b', '\n']⟩ =
      some (.ok (), ⟨['a', '&', ' ', '-', ' ', 'b', '\\', '\\', '\n'], []⟩) := by rfl
  rw [hrun]
  rintro ⟨b', row, he, hrow, htext⟩
  cases he
  have hcount := congrArg (List.count '&') htext
  have htwo := hrow.count
  simp [Buffer.text, CellRow.text] at hcount htwo
  omega

end EmacsDir
