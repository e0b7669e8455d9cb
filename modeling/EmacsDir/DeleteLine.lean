import EmacsDir.Buffer

/-!
# Deleting to the end of the line

`delete-line` of `init.el`.  The text has no invisible characters and no fields, so that the visible lines are the
lines.  Without a prefix argument the text after point is read as a line and what follows it: a newline and the
other lines, or nothing.  One call deletes the line, the newline behind it, or both (`deleteLine_line`), and the
measure of repeated calls is the length of the text after point.
-/

namespace EmacsDir

namespace Buffer

def eobp (b : Buffer) : Bool := b.after.isEmpty

/-- `(end-of-visible-line)`. -/
def endOfVisibleLine (b : Buffer) : Buffer := b.skipCharsForward (· ≠ '\n')

/-- `(forward-line -1)` from the beginning of a line. -/
def previousLine (b : Buffer) : Buffer := (b.gotoChar (b.point - 1)).beginningOfLine

def previousLines : Nat → Buffer → Buffer
  | 0, b => b
  | n + 1, b => previousLines n b.previousLine

/-- `(forward-visible-line n)`: a count that is not positive goes to the beginning of the line first. -/
def forwardVisibleLine (n : Int) (b : Buffer) : Buffer :=
  if n > 0 then b.forwardLines n.toNat else b.beginningOfLine.previousLines (-n).toNat

/-- `(skip-chars-forward .. lim)` over the characters that satisfy `p`. -/
def skipCharsForwardTo (p : Char → Bool) (lim : Nat) (b : Buffer) : Buffer :=
  let n := ((b.after.take (lim - b.point)).takeWhile p).length
  ⟨b.before ++ b.after.take n, b.after.drop n⟩

/-- `(delete-region m n)`: on either side of point, what lies between the two positions goes. -/
def deleteRegion (m n : Nat) (b : Buffer) : Buffer :=
  let lo := min m n
  let hi := max m n
  ⟨b.before.take (lo - 1) ++ b.before.drop (hi - 1), b.after.take (lo - b.point) ++ b.after.drop (hi - b.point)⟩

end Buffer

open Command Buffer

/-- The motion of `delete-line`, which returns the point it reaches. -/
def deleteLineEnd (arg : Option Int) (killWholeLine showTrailingWhitespace : Bool) : Command Signal Buffer Nat := do
  match arg with
  | some n => update (forwardVisibleLine n)
  | none =>
    if ← gets eobp then
      signal .endOfBuffer
    else
      let stop ← gets fun b => b.endOfVisibleLine.point
      let skipped ← gets fun b => if showTrailingWhitespace then b else b.skipCharsForwardTo isBlank stop
      if ← gets fun b => skipped.point == stop || (killWholeLine && b.bolp) then
        update (forwardVisibleLine 1)
      else
        update (gotoChar stop)
  gets point

/-- `delete-line`: where the deletion begins is read before the motion. -/
def deleteLine (arg : Option Int) (killWholeLine showTrailingWhitespace : Bool) : Command Signal Buffer Unit := do
  let start ← gets point
  let stop ← deleteLineEnd arg killWholeLine showTrailingWhitespace
  update (deleteRegion start stop)

/-- The rest of a line that `delete-line` treats as nothing. -/
def treatAsNothing (showTrailingWhitespace : Bool) (line : List Char) : Bool :=
  if showTrailingWhitespace then line.isEmpty else line.all isBlank

namespace Buffer

variable {u line tail : List Char}

/-- What follows a line: nothing, or the newline that ends it. -/
def EndsLine (tail : List Char) : Prop := tail = [] ∨ tail.head? = some '\n'

theorem point_mk (u v : List Char) : (⟨u, v⟩ : Buffer).point = u.length + 1 := rfl

/-- The text after point is the rest of a line and what follows it. -/
theorem exists_line (v : List Char) : ∃ line tail, v = line ++ tail ∧ '\n' ∉ line ∧ EndsLine tail ∧
    line = v.takeWhile (· ≠ '\n') := by
  refine ⟨v.takeWhile (· ≠ '\n'), v.dropWhile (· ≠ '\n'), List.takeWhile_append_dropWhile.symm, ?_, ?_, rfl⟩
  · intro h
    have := List.all_takeWhile (p := (· ≠ '\n')) (l := v)
    simpa using List.all_eq_true.1 this _ h
  · cases hd : v.dropWhile (· ≠ '\n') with
    | nil => exact Or.inl rfl
    | cons c t =>
      right
      have := List.head?_dropWhile_not (· ≠ '\n') v
      rw [hd] at this
      simpa using this

theorem endOfVisibleLine_line (hl : '\n' ∉ line) (ht : EndsLine tail) :
    (⟨u, line ++ tail⟩ : Buffer).endOfVisibleLine = ⟨u ++ line, tail⟩ := by
  have hall := ne_newline hl
  unfold endOfVisibleLine skipCharsForward
  simp only [List.takeWhile_append_of_pos hall, List.dropWhile_append_of_pos hall]
  rcases ht with rfl | ht
  · simp
  · cases tail with
    | nil => simp
    | cons c t =>
      cases ht
      simp

theorem forwardVisibleLine_one (hl : '\n' ∉ line) (ht : EndsLine tail) :
    (⟨u, line ++ tail⟩ : Buffer).forwardVisibleLine 1 = ⟨u ++ line ++ tail.take 1, tail.drop 1⟩ := by
  show (⟨u, line ++ tail⟩ : Buffer).forwardLine = _
  cases tail with
  | nil => simpa using forwardLine_last u line hl
  | cons c t =>
    have hc : c = '\n' := by simpa [EndsLine] using ht
    subst hc
    exact forwardLine_newline u line t hl

/-- With the end of the line as limit, blanks are skipped up to the end of the line only if nothing else is there. -/
theorem skipCharsForwardTo_line (p : Char → Bool) :
    ((⟨u, line ++ tail⟩ : Buffer).skipCharsForwardTo p (u.length + line.length + 1)).point =
      u.length + (line.takeWhile p).length + 1 := by
  have hlim : u.length + line.length + 1 - (u.length + 1) = line.length := by omega
  have hle := (List.takeWhile_prefix (l := line) p).length_le
  unfold skipCharsForwardTo
  simp only [point_mk, hlim, List.take_left, List.length_append, List.length_take]
  omega

theorem deleteRegion_forward (u d rest : List Char) :
    (⟨u ++ d, rest⟩ : Buffer).deleteRegion (u.length + 1) (u.length + d.length + 1) = ⟨u, rest⟩ := by
  have hlo : min (u.length + 1) (u.length + d.length + 1) = u.length + 1 := by omega
  have hhi : max (u.length + 1) (u.length + d.length + 1) = u.length + d.length + 1 := by omega
  unfold deleteRegion
  simp only [hlo, hhi, point_mk, List.length_append, Nat.add_sub_cancel, List.take_left]
  rw [List.drop_eq_nil_of_le (Nat.le_of_eq List.length_append),
    show u.length + 1 - (u.length + d.length + 1) = 0 by omega, Nat.sub_self]
  simp

end Buffer

variable {u line tail : List Char} (killWholeLine showTrailingWhitespace : Bool)

theorem takeWhile_length_eq_iff (p : Char → Bool) (l : List Char) :
    (l.takeWhile p).length = l.length ↔ l.all p = true := by
  induction l with
  | nil => simp
  | cons c l ih =>
    cases hc : p c with
    | false => simp [hc]
    | true => simp [hc, ih]

/-- The test after skipping the blanks is whether the line counts as nothing. -/
theorem skipped_iff :
    ((if showTrailingWhitespace then (⟨u, line ++ tail⟩ : Buffer)
        else (⟨u, line ++ tail⟩ : Buffer).skipCharsForwardTo isBlank (u.length + line.length + 1)).point ==
      u.length + line.length + 1) = treatAsNothing showTrailingWhitespace line := by
  rw [Bool.eq_iff_iff, beq_iff_eq]
  cases showTrailingWhitespace with
  | true =>
    simp [treatAsNothing, point_mk]
  | false =>
    have h : u.length + (line.takeWhile isBlank).length + 1 = u.length + line.length + 1 ↔
        (line.takeWhile isBlank).length = line.length := by omega
    simp only [Bool.false_eq_true, if_false, skipCharsForwardTo_line, h, takeWhile_length_eq_iff, treatAsNothing]

/-- The stretch that one call deletes. -/
def deletedStretch (killWholeLine showTrailingWhitespace : Bool) (u line tail : List Char) : List Char :=
  if treatAsNothing showTrailingWhitespace line || (killWholeLine && (⟨u, line ++ tail⟩ : Buffer).bolp) then
    line ++ tail.take 1
  else line

theorem deletedStretch_append (u line tail : List Char) : ∃ rest,
    line ++ tail = deletedStretch killWholeLine showTrailingWhitespace u line tail ++ rest := by
  unfold deletedStretch
  split
  · exact ⟨tail.drop 1, by rw [List.append_assoc, List.take_append_drop]⟩
  · exact ⟨tail, rfl⟩

/-- One call behind which text follows. -/
theorem deleteLine_line {rest : List Char} (hl : '\n' ∉ line) (ht : EndsLine tail) (hne : line ++ tail ≠ [])
    (hrest : line ++ tail = deletedStretch killWholeLine showTrailingWhitespace u line tail ++ rest) :
    deleteLine none killWholeLine showTrailingWhitespace ⟨u, line ++ tail⟩ = some (.ok (), ⟨u, rest⟩) := by
  have heob : (⟨u, line ++ tail⟩ : Buffer).eobp = false := by
    simp [eobp, hne]
  have hstop : (⟨u ++ line, tail⟩ : Buffer).point = u.length + line.length + 1 := by
    rw [point_mk, List.length_append]
  have hgoto : (⟨u, line ++ tail⟩ : Buffer).gotoChar (u.length + line.length + 1) = ⟨u ++ line, tail⟩ := by
    rw [← List.length_append]
    exact gotoChar_append (List.append_assoc u line tail).symm
  have hend : deleteLineEnd none killWholeLine showTrailingWhitespace ⟨u, line ++ tail⟩ =
      some (.ok (u.length + (deletedStretch killWholeLine showTrailingWhitespace u line tail).length + 1),
        ⟨u ++ deletedStretch killWholeLine showTrailingWhitespace u line tail, rest⟩) := by
    apply eq_of_wp
    simp only [deleteLineEnd, wp_bind, wp_gets, heob, Bool.false_eq_true, if_false, endOfVisibleLine_line hl ht,
      hstop, skipped_iff]
    unfold deletedStretch at hrest ⊢
    split at hrest
    · rename_i hc
      simp only [if_pos hc, wp_bind, wp_update, wp_gets, forwardVisibleLine_one hl ht]
      have hdrop : tail.drop 1 = rest := by
        rw [← List.append_cancel_left_eq (line ++ tail.take 1), ← hrest, List.append_assoc, List.take_append_drop]
      rw [hdrop, point_mk, List.append_assoc, List.length_append]
    · rename_i hc
      simp only [if_neg hc, wp_bind, wp_update, wp_gets, hgoto]
      rw [List.append_cancel_left hrest, point_mk, List.length_append]
  unfold deleteLine
  rw [bind_ok (c := gets point) rfl, bind_ok hend]
  show some (_, Buffer.deleteRegion _ _ _) = _
  rw [point_mk, deleteRegion_forward]

theorem deletedStretch_ne_nil (hne : line ++ tail ≠ []) :
    deletedStretch killWholeLine showTrailingWhitespace u line tail ≠ [] := by
  unfold deletedStretch
  cases line with
  | nil =>
    -- an empty line counts as nothing, so the newline behind it goes
    cases tail with
    | nil => exact absurd rfl hne
    | cons c t => simp [treatAsNothing]
  | cons c l => split <;> simp

theorem deletedStretch_count (hl : '\n' ∉ line) :
    (deletedStretch killWholeLine showTrailingWhitespace u line tail).count '\n' ≤ 1 := by
  have h0 := List.count_eq_zero.2 hl
  have h1 : (tail.take 1).count '\n' ≤ (tail.take 1).length := List.count_le_length
  unfold deletedStretch
  split
  · rw [List.count_append]
    have := List.length_take_le 1 tail
    omega
  · omega

theorem newline_not_mem_deletedStretch (hl : '\n' ∉ line) (hc : ∃ c ∈ line, ¬ isBlank c)
    (hk : ¬ (killWholeLine = true ∧ (⟨u, line ++ tail⟩ : Buffer).bolp = true)) :
    '\n' ∉ deletedStretch killWholeLine showTrailingWhitespace u line tail := by
  obtain ⟨c, hmem, hblank⟩ := hc
  have hsome : treatAsNothing showTrailingWhitespace line = false := by
    cases showTrailingWhitespace with
    | true => simpa [treatAsNothing] using List.ne_nil_of_mem hmem
    | false => simpa [treatAsNothing] using ⟨c, hmem, Bool.eq_false_iff.2 hblank⟩
  have hcond : (treatAsNothing showTrailingWhitespace line ||
      (killWholeLine && (⟨u, line ++ tail⟩ : Buffer).bolp)) = false := by
    rw [hsome, Bool.false_or, Bool.and_eq_false_iff]
    cases hb : (⟨u, line ++ tail⟩ : Buffer).bolp with
    | false => exact Or.inr rfl
    | true => exact Or.inl (Bool.eq_false_iff.2 fun h => hk ⟨h, hb⟩)
  unfold deletedStretch
  rw [hcond]
  exact hl

/-- What one call without a prefix argument does when text follows point. -/
theorem deleteLine_stretch {b : Buffer} (hb : b.after ≠ []) :
    ∃ d rest, b.after = d ++ rest ∧ d ≠ [] ∧ d.count '\n' ≤ 1 ∧
      ((∃ c ∈ b.after.takeWhile (· ≠ '\n'), ¬ isBlank c) → ¬ (killWholeLine = true ∧ b.bolp = true) → '\n' ∉ d) ∧
      deleteLine none killWholeLine showTrailingWhitespace b = some (.ok (), ⟨b.before, rest⟩) := by
  obtain ⟨u, v⟩ := b
  obtain ⟨line, tail, rfl, hl, ht, htake⟩ := exists_line v
  obtain ⟨rest, hrest⟩ := deletedStretch_append killWholeLine showTrailingWhitespace u line tail
  refine ⟨_, rest, hrest, deletedStretch_ne_nil _ _ hb, deletedStretch_count _ _ hl, ?_,
    deleteLine_line _ _ hl ht hb hrest⟩
  intro hc hk
  rw [← htake] at hc
  exact newline_not_mem_deletedStretch _ _ hl hc hk

theorem deleteLine_eob {b : Buffer} (hb : b.after = []) :
    deleteLine none killWholeLine showTrailingWhitespace b = some (.error .endOfBuffer, b) := by
  apply eq_of_wp
  have heob : b.eobp = true := by rw [eobp, hb]; rfl
  simp only [deleteLine, deleteLineEnd, wp_bind, wp_gets, heob, if_true, wp_signal]

/-- `delete-line` deletes forward, one line at a time, and repeating it leaves the text before point. -/
theorem deleteLine_deletes_forward (killWholeLine showTrailingWhitespace : Bool) (b : Buffer) :
    (deleteLine none killWholeLine showTrailingWhitespace b = some (.error .endOfBuffer, b) ↔ b.after = []) ∧
    (b.after ≠ [] → ∃ d rest, b.after = d ++ rest ∧ d ≠ [] ∧ d.count '\n' ≤ 1 ∧
      ((∃ c ∈ b.after.takeWhile (· ≠ '\n'), ¬ isBlank c) → ¬ (killWholeLine = true ∧ b.bolp = true) → '\n' ∉ d) ∧
      deleteLine none killWholeLine showTrailingWhitespace b = some (.ok (), ⟨b.before, rest⟩)) ∧
    ∃ n ≤ b.after.length, times (deleteLine none killWholeLine showTrailingWhitespace) n b =
      some (.ok (), ⟨b.before, []⟩) := by
  refine ⟨⟨?_, deleteLine_eob _ _⟩, deleteLine_stretch _ _, ?_⟩
  · intro h
    by_cases hb : b.after = []
    · exact hb
    · obtain ⟨d, rest, -, -, -, -, hok⟩ := deleteLine_stretch killWholeLine showTrailingWhitespace hb
      rw [h] at hok
      cases hok
  · -- the text before point never changes, and the text after it gets shorter
    have hstep : ∀ b₁ : Buffer, b₁.before = b.before → b₁.after.length ≠ 0 → ∃ b₂,
        deleteLine none killWholeLine showTrailingWhitespace b₁ = some (.ok (), b₂) ∧ b₂.before = b.before ∧
          b₂.after.length < b₁.after.length := by
      intro b₁ h₁ hlen
      obtain ⟨d, rest, hd, hne, -, -, hok⟩ := deleteLine_stretch killWholeLine showTrailingWhitespace
        (mt List.length_eq_zero_iff.2 hlen)
      refine ⟨_, hok, h₁, ?_⟩
      show rest.length < b₁.after.length
      have := List.length_pos_iff.2 hne
      rw [hd, List.length_append]
      omega
    obtain ⟨n, ⟨u', v'⟩, hn, hrun, hbefore, hafter⟩ := exists_times _ _ hstep b rfl
    refine ⟨n, hn, ?_⟩
    rw [hrun]
    cases hbefore
    cases List.length_eq_zero_iff.1 hafter
    rfl

end EmacsDir
