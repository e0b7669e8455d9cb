import EmacsDir.RowLook

/-!
# A region of one line

The command on a region that is one newline-terminated line makes a single pass.  What it leaves of the line is the
transducer's output, with the row terminator behind it exactly when the pass looks at the newline of the line;
otherwise the pass runs into the following lines.
-/

namespace EmacsDir

open Transducer

/-- The line that starts behind the first `n` characters. -/
def lineAt (n : Nat) (text : List Char) : List Char := (text.drop n).takeWhile (· ≠ '\n')

theorem lineAt_append {pre line rest : List Char} (h : '\n' ∉ line) :
    lineAt pre.length (pre ++ line ++ '\n' :: rest) = line := by
  unfold lineAt
  rw [List.append_assoc, List.drop_left, List.takeWhile_append_of_pos (Buffer.ne_newline h)]
  simp

section Line

variable {word : Char → Bool}

theorem exists_read_line (word : Char → Bool) {row : List Char} (h : '\n' ∉ row) :
    ∃ o q, (rowScan word).read .start row = some (o, q) := by
  cases hr : (rowScan word).read .start row with
  | some r => exact ⟨r.1, r.2, rfl⟩
  | none =>
    obtain ⟨u, c, v, o, q, rfl, -, hs⟩ := read_eq_none hr
    obtain rfl := rowScan_step_eq_none hs
    exact absurd (by simp) h

theorem count_newline_out {u o : List Char} {q q' : Mode} (h : (rowScan word).read q u = some (o, q')) :
    o.count '\n' = u.count '\n' := by
  have hi := (read_inserts rowScan_inserts h).filter_eq (· == '\n') (by rintro a (rfl | rfl) <;> rfl)
  rw [List.count_eq_length_filter, List.count_eq_length_filter, ← hi]

theorem newline_notMem_of_inserts {u v : List Char} (h : Inserts IsMark u v) (hu : '\n' ∉ u) : '\n' ∉ v := by
  intro hv
  rcases h.mem hv with h | h | h
  · exact hu h
  · cases h
  · cases h

theorem newline_notMem_out {u o : List Char} {q q' : Mode} (h : (rowScan word).read q u = some (o, q'))
    (hu : '\n' ∉ u) : '\n' ∉ o :=
  newline_notMem_of_inserts (read_inserts rowScan_inserts h) hu

theorem length_le_out {u o : List Char} {q q' : Mode} (h : (rowScan word).read q u = some (o, q')) :
    u.length ≤ o.length :=
  (read_inserts rowScan_inserts h).sublist.length_le

/-- A pass over a line that it leaves by its newline. -/
theorem rowPass_line {row o pre post : List Char} {q : Mode} (h : (rowScan word).read .start row = some (o, q))
    (hn : ¬ Passed word row '\n') :
    rowPass word ⟨pre, row ++ '\n' :: post⟩ =
      (.ok (pre.length + o.length + 4), ⟨pre ++ o ++ ['\\', '\\', '\n'], post⟩) :=
  rowPass_newline h ((step_newline_eq_none h).2 hn)

/-- Whatever else a pass does, what it has read stays in front. -/
theorem rowPass_text {u o p v : List Char} {q : Mode} (h : (rowScan word).read .start u = some (o, q)) :
    ∃ t, (rowPass word ⟨p, u ++ v⟩).2.text = p ++ o ++ t := by
  unfold rowPass scanFrom
  simp only [run_append h]
  generalize (rowScan word).run q v = r
  cases rowExit r.state r.rest with
  | error e => exact ⟨r.out ++ r.rest, by simp [Buffer.text]⟩
  | ok _ =>
    simp only [Buffer.text_forwardLine]
    exact ⟨r.out ++ ['\\', '\\'] ++ r.rest, by simp [Buffer.text, Buffer.insert]⟩

/-- A pass over a line that it does not leave by its newline. -/
theorem rowPass_over (pre post : List Char) {row o : List Char} {q : Mode}
    (h : (rowScan word).read .start row = some (o, q)) (hn : Passed word row '\n') :
    ∃ rest, (rowPass word ⟨pre, row ++ '\n' :: post⟩).2.text = pre ++ o ++ '\n' :: rest := by
  obtain ⟨q', hs, -⟩ := step_of_passed h hn
  obtain ⟨t, ht⟩ := rowPass_text (p := pre) (v := post) (read_append h (read_singleton hs))
  refine ⟨t, ?_⟩
  simpa using ht

/-- What a pass leaves of the line that it starts on. -/
theorem lineAt_rowPass (pre post : List Char) {row o : List Char} {q : Mode} (hrow : '\n' ∉ row)
    (h : (rowScan word).read .start row = some (o, q)) :
    lineAt pre.length (rowPass word ⟨pre, row ++ '\n' :: post⟩).2.text =
      if Passed word row '\n' then o else o ++ ['\\', '\\'] := by
  have ho := newline_notMem_out h hrow
  by_cases hn : Passed word row '\n'
  · obtain ⟨rest, ht⟩ := rowPass_over pre post h hn
    rw [ht, lineAt_append ho, if_pos hn]
  · have ht : (rowPass word ⟨pre, row ++ '\n' :: post⟩).2.text = pre ++ (o ++ ['\\', '\\']) ++ '\n' :: post := by
      rw [rowPass_line h hn]
      simp [Buffer.text]
    rw [ht, lineAt_append (by simp [ho]), if_neg hn]

/-- A pass goes on to the end of a line at least. -/
theorem length_line_le_rowPass {row pre post : List Char} {k : Nat} {b : Buffer} (hrow : '\n' ∉ row)
    (h : rowPass word ⟨pre, row ++ '\n' :: post⟩ = (.ok k, b)) : pre.length + row.length + 2 ≤ k := by
  rcases rowPass_cases word pre (row ++ '\n' :: post) with
    ⟨u, v, o, q, hu, hr, -, hp⟩ | ⟨o, q, hr, -, hp⟩ | ⟨o, q, e, -, -, hp⟩ <;> rw [hp] at h <;> cases h
  · have hlen := length_le_out hr
    have : row.length ≤ u.length := by
      rcases List.append_eq_append_iff.1 hu with ⟨t, rfl, -⟩ | ⟨t, rfl, ht⟩
      · simp
      · cases t with
        | nil => simp
        | cons c t =>
          obtain ⟨rfl, -⟩ := List.cons.inj ht
          exact absurd (by simp) hrow
    omega
  · have hlen := length_le_out hr
    simp only [List.length_append, List.length_cons] at hlen
    omega

/-- The command on a region of one line is a single pass. -/
theorem formatToLatexTable_line {row pre post : List Char} {b : Buffer} {fuel : Nat} (hrow : '\n' ∉ row)
    (hpre : Buffer.BeginsLine pre) (hb : b.text = pre ++ row ++ '\n' :: post) (hf : b.text.length < fuel) :
    formatToLatexTable word fuel (pre.length + 1) (pre.length + row.length + 2) b =
      some ((rowPass word ⟨pre, row ++ '\n' :: post⟩).1.map fun _ => (), (rowPass word ⟨pre, row ++ '\n' :: post⟩).2) := by
  refine formatToLatexTable_of_runs (by rw [hb, List.append_assoc]) hpre hf ?_
  rcases hp : rowPass word ⟨pre, row ++ '\n' :: post⟩ with ⟨e | k, b'⟩
  · exact .signal (decide_eq_true (by omega)) hp
  · exact tableRuns_single (by omega) hp (length_line_le_rowPass hrow hp)

end Line

end EmacsDir
