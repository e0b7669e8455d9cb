import EmacsDir.RowScan
import EmacsDir.Insertion

/-!
# The outer loop

`TableRuns` is the meaning of the outer loop over whole passes, without a bound on the number of rounds: a pass reads
at least one of the original characters behind point, so there is always a run, and `formatToLatexTable_eq` says that
the command computes it.  A pass and hence a run only insert `&` and backslashes.
-/

namespace EmacsDir

open Command Transducer

/-- The outer loop from `next-line = k` in the buffer `b`. -/
abbrev TableRuns (word : Char → Bool) (bottom k : Nat) (b : Buffer) (r : Except Signal Nat × Buffer) : Prop :=
  WhileRuns (fun k _ => decide (k < bottom)) (fun _ b => rowPass word b) k b r

/-- Where the outer loop starts: at `top`, or on the next line if that is inside a line. -/
def firstRow (top : Nat) (b : Buffer) : Buffer :=
  if (b.gotoChar top).bolp then b.gotoChar top else (b.gotoChar top).forwardLine

/-- The characters that the command inserts. -/
def IsMark (c : Char) : Prop := c = '&' ∨ c = '\\'

section Pass

variable {word : Char → Bool}

/-- A pass stops only in front of a newline that it looks at. -/
theorem rowScan_step_eq_none {q : Mode} {c : Char} (h : (rowScan word).step q c = none) : c = '\n' := by
  cases q with
  | start => cases h
  | landed => exact lookStep_eq_none.1 h
  | scanning => exact lookStep_eq_none.1 h
  | skipping => cases h
  | inWord =>
    rw [rowScan_inWord] at h
    split at h
    · cases h
    · exact lookStep_eq_none.1 h

theorem rowPass_newline {u v o p : List Char} {q : Mode} (h : (rowScan word).read .start u = some (o, q))
    (hs : (rowScan word).step q '\n' = none) :
    rowPass word ⟨p, u ++ '\n' :: v⟩ =
      (.ok (p.length + o.length + 4), ⟨p ++ o ++ ['\\', '\\', '\n'], v⟩) := by
  have hx : rowExit q ('\n' :: v) = .ok () := by cases q <;> rfl
  have hl := Buffer.forwardLine_newline (p ++ o ++ ['\\', '\\']) [] v (by simp)
  unfold rowPass scanFrom
  simp only [run_of_read_stop h hs, hx, Buffer.insert]
  rw [show '\n' :: v = [] ++ '\n' :: v from rfl, hl]
  simp [Buffer.point]
  omega

theorem rowPass_end {u o p : List Char} {q : Mode} (h : (rowScan word).read .start u = some (o, q))
    (hq : rowExit q [] = .ok ()) :
    rowPass word ⟨p, u⟩ = (.ok (p.length + o.length + 3), ⟨p ++ o ++ ['\\', '\\'], []⟩) := by
  unfold rowPass scanFrom
  simp only [run_of_read h, hq, Buffer.insert]
  rw [Buffer.forwardLine_last _ _ (by simp)]
  simp [Buffer.point]
  omega

theorem rowPass_signal {u o p : List Char} {q : Mode} {e : Signal}
    (h : (rowScan word).read .start u = some (o, q)) (hq : rowExit q [] = .error e) :
    rowPass word ⟨p, u⟩ = (.error e, ⟨p ++ o, []⟩) := by
  unfold rowPass scanFrom
  simp only [run_of_read h, hq]

/-- What a pass can do: come to rest at a newline, run to the end of the buffer, or signal there. -/
theorem rowPass_cases (word : Char → Bool) (p w : List Char) :
    (∃ u v o q, w = u ++ '\n' :: v ∧ (rowScan word).read .start u = some (o, q) ∧
      (rowScan word).step q '\n' = none ∧
      rowPass word ⟨p, w⟩ = (.ok (p.length + o.length + 4), ⟨p ++ o ++ ['\\', '\\', '\n'], v⟩)) ∨
    (∃ o q, (rowScan word).read .start w = some (o, q) ∧ rowExit q [] = .ok () ∧
      rowPass word ⟨p, w⟩ = (.ok (p.length + o.length + 3), ⟨p ++ o ++ ['\\', '\\'], []⟩)) ∨
    (∃ o q e, (rowScan word).read .start w = some (o, q) ∧ rowExit q [] = .error e ∧
      rowPass word ⟨p, w⟩ = (.error e, ⟨p ++ o, []⟩)) := by
  cases h : (rowScan word).read .start w with
  | none =>
    obtain ⟨u, c, v, o, q, rfl, hr, hs⟩ := read_eq_none h
    obtain rfl := rowScan_step_eq_none hs
    exact Or.inl ⟨u, v, o, q, rfl, hr, hs, rowPass_newline hr hs⟩
  | some r =>
    obtain ⟨o, q⟩ := r
    cases hq : rowExit q [] with
    | error e => exact Or.inr (Or.inr ⟨o, q, e, rfl, hq, rowPass_signal h hq⟩)
    | ok _ => exact Or.inr (Or.inl ⟨o, q, rfl, hq, rowPass_end h hq⟩)

theorem length_rowPass_lt {b b' : Buffer} {k : Nat} (h : rowPass word b = (.ok k, b')) :
    b'.after.length < b.after.length := by
  obtain ⟨p, w⟩ := b
  rcases rowPass_cases word p w with ⟨u, v, o, q, rfl, -, -, hp⟩ | ⟨o, q, hr, hq, hp⟩ | ⟨o, q, e, -, -, hp⟩ <;>
    rw [hp] at h <;> cases h
  · simp; omega
  · cases w with
    | nil => cases hr; cases hq
    | cons c w => simp

theorem rowScan_inserts (q : Mode) (c : Char) (o : List Char) (q' : Mode)
    (h : (rowScan word).step q c = some (o, q')) : Inserts IsMark [c] o := by
  have hlook : lookStep word c = some (o, q') → Inserts IsMark [c] o := by
    intro hs
    rcases lookStep_cases hs with ⟨-, rfl, -⟩ | ⟨rfl, rfl, -⟩ | ⟨-, -, rfl, -⟩
    · exact .add (Or.inl rfl) (.refl _)
    · exact .add (Or.inr rfl) (.refl _)
    · exact .refl _
  cases q with
  | start => cases h; exact .refl _
  | landed => exact hlook h
  | scanning => exact hlook h
  | skipping => cases h; exact .refl _
  | inWord =>
    rw [rowScan_inWord] at h
    split at h
    · cases h; exact .refl _
    · exact hlook h

theorem rowPass_inserts (word : Char → Bool) (b : Buffer) : Inserts IsMark b.text (rowPass word b).2.text := by
  have hend : Inserts IsMark [] ['\\', '\\'] := .of_forall (by simp [IsMark])
  obtain ⟨p, w⟩ := b
  rcases rowPass_cases word p w with ⟨u, v, o, q, rfl, hr, -, hp⟩ | ⟨o, q, hr, -, hp⟩ | ⟨o, q, e, hr, -, hp⟩ <;>
    have hi := read_inserts rowScan_inserts hr <;> rw [hp]
  · have := (Inserts.refl p).append (hi.append (hend.append (Inserts.refl ('\n' :: v))))
    simpa [Buffer.text] using this
  · have := (Inserts.refl p).append (hi.append hend)
    simpa [Buffer.text] using this
  · have := (Inserts.refl p).append hi
    simpa [Buffer.text] using this

end Pass

section Runs

variable {word : Char → Bool} {fuel bottom : Nat}

theorem exists_tableRuns (word : Char → Bool) (bottom k : Nat) (b : Buffer) :
    ∃ r, TableRuns word bottom k b r :=
  WhileRuns.exists_run (fun _ b => b.after.length) (fun _ _ _ _ _ h => length_rowPass_lt h) k b

theorem tableRuns_inserts {k : Nat} {b : Buffer} {r : Except Signal Nat × Buffer}
    (h : TableRuns word bottom k b r) : Inserts IsMark b.text r.2.text := by
  induction h with
  | done _ => exact .refl _
  | @signal k b b' e _ hb =>
    have := rowPass_inserts word b
    rwa [hb] at this
  | @round k k' b b' r _ hb _ ih =>
    have := rowPass_inserts word b
    rw [hb] at this
    exact this.trans ih

theorem tableLoop_eq {k n : Nat} {b : Buffer} {r : Except Signal Nat × Buffer} (h : TableRuns word bottom k b r)
    (hf : b.after.length < fuel) (hn : b.after.length < n) : tableLoop word fuel bottom n k b = some r :=
  h.whileLoop_eq (fun _ _ => rfl) (fun _ b hb => rowBody_eq b hb) (fun _ _ _ _ _ h => length_rowPass_lt h) hf hn

theorem firstRow_text (top : Nat) (b : Buffer) : (firstRow top b).text = b.text := by
  unfold firstRow
  split
  · exact b.text_gotoChar top
  · rw [Buffer.text_forwardLine, Buffer.text_gotoChar]

/-- The command computes the run of its outer loop, for every bound above the length of the buffer. -/
theorem formatToLatexTable_eq {top : Nat} {b : Buffer} {r : Except Signal Nat × Buffer}
    (h : TableRuns word bottom (firstRow top b).point (firstRow top b) r) (hf : b.text.length < fuel) :
    formatToLatexTable word fuel top bottom b = some (r.1.map fun _ => (), r.2) := by
  have hlen : (firstRow top b).after.length < fuel := by
    have := congrArg List.length (firstRow_text top b)
    simp only [Buffer.text, List.length_append] at this hf
    omega
  have hl := tableLoop_eq h hlen hlen
  have hpre : formatToLatexTable word fuel top bottom b =
      (tableLoop word fuel bottom fuel (firstRow top b).point >>= fun _ => pure ()) (firstRow top b) := by
    unfold formatToLatexTable firstRow
    cases hb : (b.gotoChar top).bolp <;> simp [bind_apply, update, gets, hb]
  rw [hpre, bind_apply, hl]
  rcases r with ⟨_ | _, _⟩ <;> rfl

/-- A pass that ends at or behind `bottom` is the only one. -/
theorem tableRuns_single {k k' : Nat} {b b' : Buffer} (hk : k < bottom)
    (hp : rowPass word b = (.ok k', b')) (hk' : bottom ≤ k') : TableRuns word bottom k b (.ok k', b') :=
  .round (by simpa using hk) hp (.done (by simpa using hk'))

theorem firstRow_eq {b : Buffer} {pre rest : List Char} (h : b.text = pre ++ rest)
    (hpre : Buffer.BeginsLine pre) : firstRow (pre.length + 1) b = ⟨pre, rest⟩ := by
  have hg := Buffer.gotoChar_append h
  unfold firstRow
  rw [hg, (Buffer.bolp_iff pre rest).2 hpre]
  rfl

/-- The command on a region that starts at the beginning of a line. -/
theorem formatToLatexTable_of_runs {b : Buffer} {pre rest : List Char}
    {r : Except Signal Nat × Buffer} (h : b.text = pre ++ rest) (hpre : Buffer.BeginsLine pre)
    (hf : b.text.length < fuel) (hr : TableRuns word bottom (pre.length + 1) ⟨pre, rest⟩ r) :
    formatToLatexTable word fuel (pre.length + 1) bottom b = some (r.1.map fun _ => (), r.2) := by
  have hfirst := firstRow_eq h hpre
  refine formatToLatexTable_eq ?_ hf
  rw [hfirst]
  exact hr

/-- The command exits, with the same outcome for every bound above the length of the buffer, and on every exit the
buffer is the original text with `&` and backslashes inserted. -/
theorem formatToLatexTable_exits (word : Char → Bool) (top bottom : Nat) (b : Buffer) :
    ∃ r b', (∀ fuel, b.text.length < fuel → formatToLatexTable word fuel top bottom b = some (r, b')) ∧
      Inserts IsMark b.text b'.text := by
  obtain ⟨r, hr⟩ := exists_tableRuns word bottom (firstRow top b).point (firstRow top b)
  have hi := tableRuns_inserts hr
  rw [firstRow_text] at hi
  exact ⟨_, _, fun fuel hf => formatToLatexTable_eq hr hf, hi⟩

end Runs

end EmacsDir
