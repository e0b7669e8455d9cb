import EmacsDir.TableLoop
import Mathlib.Algebra.GroupWithZero.Nat

/-!
# Plain tables

Tables of alphanumeric cells separated by single spaces.  A pass formats such a row as intended
(`rowPass_alnumRow`), but the outer loop compares the position of the next row, which moves with every insertion,
with a `bottom` that does not: a row is formatted exactly when the characters inserted before it are fewer than the
ones of the region that are left.  On a last line without a newline, the pass signals exactly when point reaches the
end of the buffer under the inner loop.
-/

namespace EmacsDir

open Command Transducer

/-- A word syntax as the major modes have it: letters and digits are word constituents, blanks and newline are not.
Everything else is left open. -/
structure WordSyntax where
  word : Char → Bool
  alnum : ∀ c, c.isAlphanum = true → word c = true
  blank : ∀ c, isBlank c = true → word c = false
  newline : word '\n' = false

/-- A row of non-empty cells of ASCII letters and digits. -/
structure AlnumRow where
  first : List Char
  others : List (List Char)
  ne_nil : ∀ c ∈ first :: others, c ≠ []
  all_alnum : ((first :: others).all fun c => c.all Char.isAlphanum) = true

namespace AlnumRow

theorem alnum (r : AlnumRow) : ∀ c ∈ r.first :: r.others, ∀ a ∈ c, a.isAlphanum = true := by
  have := r.all_alnum
  simpa only [List.all_eq_true] using this

def cells (r : AlnumRow) : List (List Char) := r.first :: r.others

/-- The cells separated by single spaces. -/
def text (r : AlnumRow) : List Char := [' '].intercalate r.cells

/-- The cells joined by `"& "`, without the row terminator. -/
def joined (r : AlnumRow) : List Char := ['&', ' '].intercalate r.cells

def formatted (r : AlnumRow) : List Char := r.joined ++ ['\\', '\\']

end AlnumRow

/-- The lines of a table. -/
def tableText (rows : List AlnumRow) : List Char := rows.flatMap fun r => r.text ++ ['\n']

/-- The lines of the formatted table. -/
def formattedTable (rows : List AlnumRow) : List Char := rows.flatMap fun r => r.formatted ++ ['\n']

@[simp] theorem tableText_nil : tableText [] = [] := rfl

@[simp] theorem tableText_cons (r : AlnumRow) (rows : List AlnumRow) :
    tableText (r :: rows) = r.text ++ '\n' :: tableText rows := by
  simp [tableText]

theorem tableText_append (rows rows' : List AlnumRow) :
    tableText (rows ++ rows') = tableText rows ++ tableText rows' := List.flatMap_append

@[simp] theorem formattedTable_nil : formattedTable [] = [] := rfl

@[simp] theorem formattedTable_cons (r : AlnumRow) (rows : List AlnumRow) :
    formattedTable (r :: rows) = r.formatted ++ '\n' :: formattedTable rows := by
  simp [formattedTable]

theorem formattedTable_append (rows rows' : List AlnumRow) :
    formattedTable (rows ++ rows') = formattedTable rows ++ formattedTable rows' := List.flatMap_append

private theorem intercalate_eq_flatMap (sep c : List Char) (cs : List (List Char)) :
    sep.intercalate (c :: cs) = c ++ cs.flatMap (sep ++ ·) := by
  induction cs generalizing c with
  | nil => simp [List.intercalate]
  | cons d cs ih =>
    rw [List.intercalate_cons_cons, ih]
    simp

namespace AlnumRow

theorem text_eq (r : AlnumRow) : r.text = r.first ++ r.others.flatMap ([' '] ++ ·) :=
  intercalate_eq_flatMap _ _ _

theorem joined_eq (r : AlnumRow) : r.joined = r.first ++ r.others.flatMap (['&', ' '] ++ ·) :=
  intercalate_eq_flatMap _ _ _

theorem length_joined (r : AlnumRow) : r.joined.length = r.text.length + r.others.length := by
  rw [text_eq, joined_eq]
  generalize r.others = cs
  induction cs with
  | nil => simp
  | cons c cs ih =>
    simp only [List.flatMap_cons, List.length_append, List.length_cons, List.length_nil] at ih ⊢
    omega

theorem text_ne_nil (r : AlnumRow) : r.text ≠ [] := by
  rw [text_eq]
  have := r.ne_nil r.first (by simp)
  simp [this]

end AlnumRow

/-! ### A pass over a row -/

section Pass

variable (s : WordSyntax)

private theorem alnum_plain {c : Char} (h : c.isAlphanum = true) : c ≠ '\n' ∧ isBlank c = false ∧ c ≠ '%' := by
  refine ⟨?_, ?_, ?_⟩
  · rintro rfl; cases h
  · cases hb : isBlank c with
    | false => rfl
    | true =>
      simp only [isBlank, Bool.or_eq_true, beq_iff_eq] at hb
      rcases hb with rfl | rfl <;> cases h
  · rintro rfl; cases h

private theorem read_scanning_alnum {u : List Char} (hu : ∀ a ∈ u, a.isAlphanum = true) :
    (rowScan s.word).read .scanning u = some (u, .scanning) := by
  induction u with
  | nil => rfl
  | cons a u ih =>
    obtain ⟨hn, hb, hp⟩ := alnum_plain (hu a (by simp))
    exact read_cons_iff.2 ⟨[a], .scanning, u, lookStep_other hn hb hp, ih fun x hx => hu x (by simp [hx]), rfl⟩

private theorem read_landed_alnum {u : List Char} (hu : ∀ a ∈ u, a.isAlphanum = true) :
    (rowScan s.word).read .landed u = some (u, if u = [] then .landed else .scanning) := by
  cases u with
  | nil => rfl
  | cons a u =>
    obtain ⟨hn, hb, hp⟩ := alnum_plain (hu a (by simp))
    have hr := read_scanning_alnum s (u := u) fun x hx => hu x (by simp [hx])
    exact read_cons_iff.2 ⟨[a], .scanning, u, lookStep_other hn hb hp, hr, rfl⟩

private theorem read_inWord_alnum {u : List Char} (hu : ∀ a ∈ u, a.isAlphanum = true) :
    (rowScan s.word).read .inWord u = some (u, .inWord) := by
  induction u with
  | nil => rfl
  | cons a u ih =>
    have ha : (rowScan s.word).step .inWord a = some ([a], .inWord) := by
      rw [rowScan_inWord, s.alnum a (hu a (by simp))]; rfl
    exact read_cons_iff.2 ⟨[a], .inWord, u, ha, ih fun x hx => hu x (by simp [hx]), rfl⟩

/-- In these modes, a character that is no word constituent is looked at. -/
def Mode.Ready (q : Mode) : Prop := q = .landed ∨ q = .scanning ∨ q = .inWord

theorem Mode.Ready.step {word : Char → Bool} {q : Mode} (hq : q.Ready) {c : Char} (hc : word c = false) :
    (rowScan word).step q c = lookStep word c := by
  rcases hq with rfl | rfl | rfl
  · rfl
  · rfl
  · rw [rowScan_inWord, hc]; rfl

private theorem read_space_cell {q : Mode} (hq : q.Ready) {c : List Char} (hne : c ≠ [])
    (hc : ∀ a ∈ c, a.isAlphanum = true) :
    (rowScan s.word).read q ([' '] ++ c) = some (['&', ' '] ++ c, .inWord) := by
  cases c with
  | nil => exact absurd rfl hne
  | cons a c =>
    have hs : (rowScan s.word).step q ' ' = some (['&', ' '], .skipping) := by
      rw [hq.step (s.blank ' ' rfl), lookStep_blank rfl, jumpMode, s.blank ' ' rfl]; rfl
    have ha : (rowScan s.word).step .skipping a = some ([a], .inWord) := by
      rw [rowScan_skipping, jumpMode, s.alnum a (hc a (by simp))]; rfl
    have hr := read_inWord_alnum s (u := c) fun x hx => hc x (by simp [hx])
    exact read_append (read_singleton hs) (read_cons_iff.2 ⟨[a], .inWord, c, ha, hr, rfl⟩)

private theorem read_cells {cs : List (List Char)} (hne : ∀ c ∈ cs, c ≠ [])
    (hcs : ∀ c ∈ cs, ∀ a ∈ c, a.isAlphanum = true) {q : Mode} (hq : q.Ready) :
    (rowScan s.word).read q (cs.flatMap ([' '] ++ ·)) =
      some (cs.flatMap (['&', ' '] ++ ·), if cs = [] then q else .inWord) := by
  induction cs generalizing q with
  | nil => rfl
  | cons c cs ih =>
    have h₁ := read_space_cell s hq (hne c (by simp)) (hcs c (by simp))
    have h₂ := ih (fun x hx => hne x (by simp [hx])) (fun x hx => hcs x (by simp [hx])) (Or.inr (Or.inr rfl))
    have := read_append h₁ h₂
    simpa using this

/-- The mode in which a pass leaves a plain row. -/
def AlnumRow.lastMode (r : AlnumRow) : Mode :=
  if r.others ≠ [] then .inWord else if r.first.length = 1 then .landed else .scanning

theorem read_alnumRow (r : AlnumRow) : (rowScan s.word).read .start r.text = some (r.joined, r.lastMode) := by
  rw [r.text_eq, r.joined_eq]
  unfold AlnumRow.lastMode
  have hne := r.ne_nil
  have hal := r.alnum
  generalize r.first = c at hne hal ⊢
  generalize r.others = cs at hne hal ⊢
  cases c with
  | nil => exact absurd rfl (hne [] (by simp))
  | cons a c =>
    have hc := read_landed_alnum s (u := c) fun x hx => hal (a :: c) (by simp) x (by simp [hx])
    have hfirst : (rowScan s.word).read .start (a :: c) = some (a :: c, if c = [] then .landed else .scanning) :=
      read_cons_iff.2 ⟨[a], .landed, c, rfl, hc, rfl⟩
    have hready : (if c = [] then Mode.landed else .scanning).Ready := by
      split
      · exact Or.inl rfl
      · exact Or.inr (Or.inl rfl)
    have hcs := read_cells s (fun x hx => hne x (List.mem_cons_of_mem _ hx))
      (fun x hx => hal x (List.mem_cons_of_mem _ hx)) hready
    rw [read_append hfirst hcs]
    by_cases h : cs = [] <;> simp [h]

theorem AlnumRow.lastMode_ready (r : AlnumRow) : r.lastMode.Ready := by
  unfold lastMode
  split
  · exact Or.inr (Or.inr rfl)
  · split
    · exact Or.inl rfl
    · exact Or.inr (Or.inl rfl)

/-- A pass formats a plain row. -/
theorem rowPass_alnumRow (r : AlnumRow) (p v : List Char) :
    rowPass s.word ⟨p, r.text ++ '\n' :: v⟩ =
      (.ok (p.length + r.formatted.length + 2), ⟨p ++ r.formatted ++ ['\n'], v⟩) := by
  have hs : (rowScan s.word).step r.lastMode '\n' = none := by
    rw [r.lastMode_ready.step s.newline]; rfl
  rw [rowPass_newline (read_alnumRow s r) hs]
  simp [AlnumRow.formatted]
  omega

end Pass

/-! ### The outer loop over a table -/

section Table

variable (s : WordSyntax)

theorem AlnumRow.length_formatted (r : AlnumRow) :
    r.formatted.length = r.text.length + r.cells.length + 1 := by
  have := r.length_joined
  simp only [formatted, cells, List.length_append, List.length_cons, List.length_nil]
  omega

theorem length_formattedTable (rows : List AlnumRow) :
    (formattedTable rows).length = (tableText rows).length + (rows.map fun r => r.cells.length + 1).sum := by
  induction rows with
  | nil => rfl
  | cons r rows ih =>
    have := r.length_formatted
    simp only [formattedTable_cons, tableText_cons, List.length_append, List.length_cons, List.map_cons,
      List.sum_cons]
    omega

/-- The loop formats some rows of a table and leaves the others as they are; it stops where the next row stands at
or behind `bottom`, and not before. -/
theorem tableRuns_table (rows : List AlnumRow) (post : List Char) {bottom : Nat} {p : List Char}
    (hb : bottom ≤ p.length + 1 + (tableText rows).length) :
    ∃ done rest k, rows = done ++ rest ∧
      TableRuns s.word bottom (p.length + 1) ⟨p, tableText rows ++ post⟩
        (.ok k, ⟨p ++ formattedTable done, tableText rest ++ post⟩) ∧
      (rest = [] ∨ bottom ≤ p.length + 1 + (formattedTable done).length) ∧
      ∀ d r, done = d ++ [r] → p.length + 1 + (formattedTable d).length < bottom := by
  induction rows generalizing p with
  | nil =>
    refine ⟨[], [], p.length + 1, rfl, ?_, Or.inl rfl, by simp⟩
    rw [formattedTable_nil, List.append_nil]
    simp only [tableText_nil, List.length_nil] at hb
    exact .done (by simp; omega)
  | cons r rows ih =>
    by_cases hlt : p.length + 1 < bottom
    · -- the row is formatted, and the loop goes on behind it
      have hpass := rowPass_alnumRow s r p (tableText rows ++ post)
      have hform := r.length_formatted
      have hp : (p ++ r.formatted ++ ['\n']).length = p.length + r.formatted.length + 1 := by simp; omega
      simp only [tableText_cons, List.length_append, List.length_cons] at hb
      obtain ⟨done, rest, k, rfl, hrun, hstop, hbefore⟩ :=
        ih (p := p ++ r.formatted ++ ['\n']) (by rw [hp]; omega)
      rw [hp] at hrun hstop hbefore
      refine ⟨r :: done, rest, k, rfl, ?_, ?_, ?_⟩
      · rw [tableText_cons, formattedTable_cons, List.append_assoc, List.cons_append]
        refine .round (by simpa using hlt) hpass ?_
        simpa using hrun
      · rw [formattedTable_cons]
        rcases hstop with h | h
        · exact Or.inl h
        · right
          simp only [List.length_append, List.length_cons]
          omega
      · intro d r' hd
        cases d with
        | nil => simpa using hlt
        | cons x d =>
          obtain ⟨rfl, hd'⟩ := List.cons.inj hd
          have := hbefore d r' hd'
          rw [formattedTable_cons]
          simp only [List.length_append, List.length_cons]
          omega
    · -- the loop stops in front of the row
      refine ⟨[], r :: rows, p.length + 1, rfl, ?_, Or.inr (by simp; omega), by simp⟩
      rw [formattedTable_nil, List.append_nil]
      exact .done (by simpa using hlt)

/-- Every row is formatted exactly when the characters inserted for the rows before the last one, one per cell and
one more per row, are no more than the characters of the last row. -/
theorem formatToLatexTable_table_iff (init : List AlnumRow) (last : AlnumRow) (pre post : List Char) (b : Buffer)
    (fuel : Nat) (hpre : Buffer.BeginsLine pre) (hb : b.text = pre ++ tableText (init ++ [last]) ++ post)
    (hf : b.text.length < fuel) :
    (∃ b', formatToLatexTable s.word fuel (pre.length + 1)
        (pre.length + 1 + (tableText (init ++ [last])).length) b = some (.ok (), b') ∧
      b'.text = pre ++ formattedTable (init ++ [last]) ++ post) ↔
      (init.map fun r => r.cells.length + 1).sum ≤ last.text.length := by
  obtain ⟨done, rest, k, hrows, hrun, hstop, hbefore⟩ :=
    tableRuns_table s (init ++ [last]) post (p := pre) (Nat.le_refl _)
  have hcmd := formatToLatexTable_of_runs (by rw [hb, List.append_assoc]) hpre hf hrun
  have hbottom : (tableText (init ++ [last])).length = (tableText init).length + last.text.length + 1 := by
    simp [tableText_append]; omega
  have hinit := length_formattedTable init
  rw [hcmd]
  have hres : (∃ b', some ((Except.ok k : Except Signal Nat).map (fun _ => ()),
        (⟨pre ++ formattedTable done, tableText rest ++ post⟩ : Buffer)) = some (.ok (), b') ∧
      b'.text = pre ++ formattedTable (init ++ [last]) ++ post) ↔ rest = [] := by
    rw [hrows]
    constructor
    · rintro ⟨b', hb', htext⟩
      cases hb'
      have h₁ := congrArg List.length htext
      have h₂ := length_formattedTable rest
      simp only [Buffer.text, formattedTable_append, List.length_append] at h₁
      cases rest with
      | nil => rfl
      | cons r rest => simp only [List.map_cons, List.sum_cons] at h₂; omega
    · rintro rfl
      exact ⟨_, rfl, by simp [Buffer.text]⟩
  rw [hres]
  constructor
  · rintro rfl
    have := hbefore init last (by simpa using hrows.symm)
    omega
  · intro hle
    rcases hstop with h | h
    · exact h
    · rcases List.eq_nil_or_concat rest with rfl | ⟨rest', r, rfl⟩
      · rfl
      · -- the rows done are rows of `init`, so the loop would have gone on
        rw [List.concat_eq_append, ← List.append_assoc] at hrows
        obtain rfl := (List.append_inj' hrows rfl).1
        rw [formattedTable_append, List.length_append] at hinit
        omega

/-- The syntax with no other word constituents than letters and digits. -/
def asciiSyntax : WordSyntax where
  word := Char.isAlphanum
  alnum _ h := h
  blank c h := by
    simp only [isBlank, Bool.or_eq_true, beq_iff_eq] at h
    rcases h with rfl | rfl <;> rfl
  newline := rfl

/-- A two-row table in which the rows are formatted: the second row is as long as the insertions into the first. -/
theorem formatToLatexTable_table_two_rows :
    ∃ b', formatToLatexTable asciiSyntax.word 20 1 11 ⟨[], ['a', ' ', 'b', '\n', 'l', 'o', 'n', ' ', 'g', '\n']⟩ = some (.ok (), b') ∧
      b'.text = ['a', '&', ' ', 'b', '\\', '\\', '\n', 'l', 'o', 'n', '&', ' ', 'g', '\\', '\\', '\n'] :=
  (formatToLatexTable_table_iff asciiSyntax [⟨['a'], [['b']], by decide, by decide⟩]
    ⟨['l', 'o', 'n'], [['g']], by decide, by decide⟩ [] [] _ 20 (Or.inl rfl) rfl (by decide)).2 (by decide)

/-- In the table `a b c`, `a b` the second row stays as it was. -/
theorem formatToLatexTable_table_short_row :
    ¬ ∃ b', formatToLatexTable asciiSyntax.word 20 1 11 ⟨[], ['a', ' ', 'b', ' ', 'c', '\n', 'a', ' ', 'b', '\n']⟩ = some (.ok (), b') ∧
      b'.text = ['a', '&', ' ', 'b', '&', ' ', 'c', '\\', '\\', '\n', 'a', '&', ' ', 'b', '\\', '\\', '\n'] := by
  have hrun : formatToLatexTable asciiSyntax.word 20 1 11 ⟨[], ['a', ' ', 'b', ' ', 'c', '\n', 'a', ' ', 'b', '\n']⟩ =
      some (.ok (), ⟨['a', '&', ' ', 'b', '&', ' ', 'c', '\\', '\\', '\n'], ['a', ' ', 'b', '\n']⟩) := by rfl
  rw [hrun]
  rintro ⟨b', hb, ht⟩
  cases hb
  revert ht
  decide

/-! ### A last line without a newline -/

theorem AlnumRow.lastMode_eq_scanning (r : AlnumRow) :
    r.lastMode = .scanning ↔ ¬ (2 ≤ r.cells.length ∨ r.text.length = 1) := by
  have hne := r.ne_nil r.first (by simp)
  have hpos := List.length_pos_iff.2 hne
  unfold lastMode cells
  rw [r.text_eq]
  rcases r.others with _ | ⟨c, cs⟩
  · by_cases h : r.first.length = 1 <;> simp [h]
  · simp

/-- On a last line without a newline, the command does what it does on the same line with one, exactly when the row
has two cells or more, or is a single character. -/
theorem formatToLatexTable_lastLine_iff (r : AlnumRow) (pre : List Char) (b c : Buffer) (fuel : Nat)
    (hpre : Buffer.BeginsLine pre) (hb : b.text = pre ++ r.text) (hc : c.text = pre ++ r.text ++ ['\n'])
    (hf : c.text.length < fuel) :
    (∃ line b' c', formatToLatexTable s.word fuel (pre.length + 1) (pre.length + 1 + r.text.length) b =
        some (.ok (), b') ∧ b'.text = pre ++ line ∧
      formatToLatexTable s.word fuel (pre.length + 1) (pre.length + 1 + r.text.length) c = some (.ok (), c') ∧
      c'.text = pre ++ line ++ ['\n']) ↔ (2 ≤ r.cells.length ∨ r.text.length = 1) := by
  have hpos := List.length_pos_iff.2 r.text_ne_nil
  have hlen := r.length_formatted
  have hjoined := r.length_joined
  have hfb : b.text.length < fuel := by rw [hc, List.length_append] at hf; rw [hb]; omega
  have hpc := rowPass_alnumRow s r pre []
  have hrc : TableRuns s.word (pre.length + 1 + r.text.length) (pre.length + 1) _ _ :=
    tableRuns_single (by omega) hpc (by omega)
  have hcmdc := formatToLatexTable_of_runs (by simpa using hc) hpre hf hrc
  have hread := read_alnumRow s r
  by_cases hmode : r.lastMode = .scanning
  · have hpb := rowPass_signal (p := pre) (e := .wrongTypeArgument) hread (by rw [hmode]; rfl)
    have hrb : TableRuns s.word (pre.length + 1 + r.text.length) (pre.length + 1) ⟨pre, r.text⟩ _ :=
      .signal (decide_eq_true (by omega)) hpb
    have hcmdb := formatToLatexTable_of_runs hb hpre hfb hrb
    constructor
    · rintro ⟨_, _, _, hok, -⟩
      rw [hcmdb] at hok
      cases hok
    · intro h
      exact absurd h (r.lastMode_eq_scanning.1 hmode)
  · have hexit : rowExit r.lastMode [] = .ok () := by
      rcases r.lastMode_ready with h | h | h
      · rw [h]; rfl
      · exact absurd h hmode
      · rw [h]; rfl
    have hpb := rowPass_end (p := pre) hread hexit
    have hrb : TableRuns s.word (pre.length + 1 + r.text.length) (pre.length + 1) _ _ :=
      tableRuns_single (by omega) hpb (by omega)
    have hcmdb := formatToLatexTable_of_runs hb hpre hfb hrb
    constructor
    · intro _
      exact Decidable.not_not.1 fun h => hmode (r.lastMode_eq_scanning.2 h)
    · intro _
      refine ⟨r.formatted, _, _, hcmdb, ?_, hcmdc, ?_⟩
      · simp [Buffer.text, AlnumRow.formatted]
      · simp [Buffer.text]

/-- A row of two cells on a last line without a newline. -/
theorem formatToLatexTable_lastLine_two_cells :
    ∃ line b' c', formatToLatexTable asciiSyntax.word 10 1 5 ⟨[], ['a', 'b', ' ', 'c']⟩ = some (.ok (), b') ∧
      b'.text = [] ++ line ∧
      formatToLatexTable asciiSyntax.word 10 1 5 ⟨[], ['a', 'b', ' ', 'c', '\n']⟩ = some (.ok (), c') ∧
      c'.text = [] ++ line ++ ['\n'] :=
  (formatToLatexTable_lastLine_iff asciiSyntax ⟨['a', 'b'], [['c']], by decide, by decide⟩ [] _ _ 10
    (Or.inl rfl) rfl rfl (by decide)).2 (by decide)

/-- A single cell of two characters makes the command signal. -/
theorem formatToLatexTable_lastLine_one_cell :
    ¬ ∃ line b' c', formatToLatexTable asciiSyntax.word 10 1 3 ⟨[], ['a', 'b']⟩ = some (.ok (), b') ∧
      b'.text = [] ++ line ∧
      formatToLatexTable asciiSyntax.word 10 1 3 ⟨[], ['a', 'b', '\n']⟩ = some (.ok (), c') ∧
      c'.text = [] ++ line ++ ['\n'] := by
  have hrun : formatToLatexTable asciiSyntax.word 10 1 3 ⟨[], ['a', 'b']⟩ =
      some (.error .wrongTypeArgument, ⟨['a', 'b'], []⟩) := by rfl
  rw [hrun]
  rintro ⟨_, _, _, hok, -⟩
  cases hok

end Table

end EmacsDir
