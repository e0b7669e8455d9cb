import EmacsDir.FormatTable
import EmacsDir.Transducer

/-!
# One row of the table as a transducer

A pass of the outer loop reads the original characters from left to right, each once, although the buffer grows
under it.  What it does with a character depends only on how point came to stand in front of it, which is the
`Mode`: the first character of a row is passed unseen, `forward-word` passes the characters up to the end of a word
unseen, and every other character is looked at by the loop tests.

`rowBody_eq` is the refinement: with enough fuel the loops of `format-to-latex-table` do what the transducer does,
signals included.
-/

namespace EmacsDir

open Command

/-- How point came to stand where it stands. -/
inductive Mode
  | start
  | landed
  | scanning
  | skipping
  | inWord
  deriving DecidableEq, Repr

/-- The mode after `forward-word` has passed a character. -/
def jumpMode (word : Char → Bool) (c : Char) : Mode := if word c then .inWord else .skipping

/-- A character that the loops look at: the end of the line stops the pass, a blank gets a separator and starts
`forward-word`, a `%` gets a backslash. -/
def lookStep (word : Char → Bool) (c : Char) : Option (List Char × Mode) :=
  if c = '\n' then none
  else if isBlank c then some (['&', c], jumpMode word c)
  else if c = '%' then some (['\\', c], .scanning)
  else some ([c], .scanning)

def rowScan (word : Char → Bool) : Transducer Char Char Mode where
  step q c :=
    match q with
    | .start => some ([c], .landed)
    | .landed => lookStep word c
    | .scanning => lookStep word c
    | .skipping => some ([c], jumpMode word c)
    | .inWord => if word c then some ([c], .inWord) else lookStep word c

/-- How a pass ends: at the end of the buffer, `char-after` is nil under the inner loop, and there is no character
for the first `forward-char`. -/
def rowExit : Mode → List Char → Except Signal Unit
  | .start, [] => .error .endOfBuffer
  | .scanning, [] => .error .wrongTypeArgument
  | _, _ => .ok ()

/-- The exit of a pass that starts in mode `q`, and the buffer before the row terminator is inserted. -/
def scanFrom (word : Char → Bool) (q : Mode) (b : Buffer) : Except Signal Unit × Buffer :=
  let r := (rowScan word).run q b.after
  (rowExit r.state r.rest, ⟨b.before ++ r.out, r.rest⟩)

section Scan

variable {word : Char → Bool}

@[simp] theorem rowScan_landed (c : Char) : (rowScan word).step .landed c = lookStep word c := rfl

@[simp] theorem rowScan_skipping (c : Char) :
    (rowScan word).step .skipping c = some ([c], jumpMode word c) := rfl

theorem rowScan_inWord (c : Char) :
    (rowScan word).step .inWord c = if word c then some ([c], .inWord) else lookStep word c := rfl

theorem lookStep_newline (word : Char → Bool) : lookStep word '\n' = none := rfl

theorem lookStep_blank {c : Char} (h : isBlank c = true) :
    lookStep word c = some (['&', c], jumpMode word c) := by
  have hn : c ≠ '\n' := by rintro rfl; cases h
  simp [lookStep, h, hn]

theorem lookStep_percent : lookStep word '%' = some (['\\', '%'], .scanning) := rfl

theorem lookStep_other {c : Char} (hn : c ≠ '\n') (hb : isBlank c = false) (hp : c ≠ '%') :
    lookStep word c = some ([c], .scanning) := by
  simp [lookStep, hb, hn, hp]

theorem lookStep_eq_none {c : Char} : lookStep word c = none ↔ c = '\n' := by
  unfold lookStep
  split
  · simp [*]
  · split
    · simp [*]
    · split <;> simp [*]

/-- What a looked-at character does. -/
theorem lookStep_cases {c : Char} {o : List Char} {q : Mode} (h : lookStep word c = some (o, q)) :
    (isBlank c = true ∧ o = ['&', c] ∧ q = jumpMode word c) ∨
    (c = '%' ∧ o = ['\\', '%'] ∧ q = .scanning) ∨
    (isBlank c = false ∧ c ≠ '%' ∧ o = [c] ∧ q = .scanning) := by
  have hn : c ≠ '\n' := by rintro rfl; cases h
  cases hb : isBlank c with
  | true =>
    rw [lookStep_blank hb] at h
    cases h
    exact Or.inl ⟨rfl, rfl, rfl⟩
  | false =>
    by_cases hp : c = '%'
    · subst hp
      cases h
      exact Or.inr (Or.inl ⟨rfl, rfl, rfl⟩)
    · rw [lookStep_other hn hb hp] at h
      cases h
      exact Or.inr (Or.inr ⟨rfl, hp, rfl, rfl⟩)

/-- One letter off the input: the step is what the pass has done when it stands behind the letter. -/
theorem scanFrom_cons {q q' : Mode} {u v o : List Char} {c : Char}
    (h : (rowScan word).step q c = some (o, q')) :
    scanFrom word q ⟨u, c :: v⟩ = scanFrom word q' ⟨u ++ o, v⟩ := by
  unfold scanFrom
  rw [show c :: v = [c] ++ v from rfl, Transducer.run_append (Transducer.read_singleton h)]
  simp

theorem scanFrom_stop {q : Mode} {u v : List Char} {c : Char} (h : (rowScan word).step q c = none) :
    scanFrom word q ⟨u, c :: v⟩ = (.ok (), ⟨u, c :: v⟩) := by
  unfold scanFrom
  simp only [Transducer.run_stop h, List.append_nil]
  cases q <;> rfl

/-- The end of the line and the end of the buffer are where `eolp` holds and the middle loop is over. -/
theorem scanFrom_landed_of_eolp {b : Buffer} (h : b.eolp = true) : scanFrom word .landed b = (.ok (), b) := by
  obtain ⟨u, _ | ⟨c, v⟩⟩ := b
  · simp [scanFrom, rowExit]
  · obtain rfl : c = '\n' := by simpa using h
    exact scanFrom_stop (q := .landed) (lookStep_newline word)

/-- In front of a character, landing there and scanning up to it are the same. -/
theorem scanFrom_landed {u v : List Char} {c : Char} :
    scanFrom word .landed ⟨u, c :: v⟩ = scanFrom word .scanning ⟨u, c :: v⟩ := by
  cases h : lookStep word c with
  | none => rw [scanFrom_stop (q := .landed) h, scanFrom_stop (q := .scanning) h]
  | some r => rw [scanFrom_cons (q := .landed) h, scanFrom_cons (q := .scanning) h]

private theorem scanFrom_inWord (u v : List Char) :
    scanFrom word .inWord ⟨u, v⟩ = scanFrom word .landed ⟨u ++ v.takeWhile word, v.dropWhile word⟩ := by
  induction v generalizing u with
  | nil => simp [scanFrom, rowExit]
  | cons c v ih =>
    by_cases hc : word c = true
    · have hs : (rowScan word).step .inWord c = some ([c], .inWord) := by simp [rowScan_inWord, hc]
      rw [scanFrom_cons hs, ih]
      simp [hc]
    · have hs : (rowScan word).step .inWord c = lookStep word c := by simp [rowScan_inWord, hc]
      have hl : (rowScan word).step .landed c = lookStep word c := rfl
      simp only [List.takeWhile_cons, List.dropWhile_cons, hc, List.append_nil, Bool.false_eq_true, ite_false]
      cases h : lookStep word c with
      | none => rw [scanFrom_stop (hs.trans h), scanFrom_stop (hl.trans h)]
      | some r => rw [scanFrom_cons (hs.trans h), scanFrom_cons (hl.trans h)]

private theorem scanFrom_skipping (u v : List Char) :
    scanFrom word .skipping ⟨u, v⟩ = scanFrom word .landed (Buffer.forwardWord word ⟨u, v⟩) := by
  induction v generalizing u with
  | nil => simp [scanFrom, rowExit, Buffer.forwardWord]
  | cons c v ih =>
    rw [scanFrom_cons (rowScan_skipping c)]
    by_cases hc : word c = true
    · simp [jumpMode, hc, scanFrom_inWord, Buffer.forwardWord]
    · simp [jumpMode, hc, ih, Buffer.forwardWord]

/-- A blank under the scan: the separator goes in front of it, and `forward-word` runs from the blank itself. -/
theorem scanFrom_blank {u v : List Char} {c : Char} (h : isBlank c = true) :
    scanFrom word .scanning ⟨u, c :: v⟩ =
      scanFrom word .landed (Buffer.forwardWord word (Buffer.insert ['&'] ⟨u, c :: v⟩)) := by
  have hs : (rowScan word).step .scanning c = some (['&', c], jumpMode word c) := lookStep_blank h
  have hk : scanFrom word .skipping ⟨u ++ ['&'], c :: v⟩ = scanFrom word (jumpMode word c) ⟨u ++ ['&'] ++ [c], v⟩ :=
    scanFrom_cons (rowScan_skipping c)
  have hi : Buffer.insert ['&'] ⟨u, c :: v⟩ = ⟨u ++ ['&'], c :: v⟩ := rfl
  rw [scanFrom_cons hs, hi, ← scanFrom_skipping, hk]
  simp

end Scan

/-! ### The loops refine the transducer -/

section Loops

variable {word : Char → Bool} {fuel : Nat}

theorem cellTest_nil (u : List Char) : cellTest ⟨u, []⟩ = some (.error .wrongTypeArgument, ⟨u, []⟩) := rfl

theorem cellTest_cons (u v : List Char) (c : Char) :
    cellTest ⟨u, c :: v⟩ = some (.ok (!isBlank c && !(c == '\n')), ⟨u, c :: v⟩) := by
  have h : stringCharAfter ⟨u, c :: v⟩ = some (.ok c, ⟨u, c :: v⟩) := rfl
  unfold cellTest
  rw [bind_ok h]
  by_cases hs : c = ' '
  · subst hs; rfl
  · by_cases ht : c = '\t'
    · subst ht; rfl
    · have hs' : (c == ' ') = false := by simpa using hs
      have ht' : (c == '\t') = false := by simpa using ht
      simp only [hs', Bool.not_false, ite_true]
      rw [bind_ok h]
      simp only [ht', Bool.not_false, ite_true, isBlank, hs', Bool.or_self, Bool.true_and]
      rfl

theorem cellBody_cons {u v o : List Char} {c : Char} (hb : isBlank c = false)
    (h : lookStep word c = some (o, .scanning)) :
    cellBody ⟨u, c :: v⟩ = some (.ok (), ⟨u ++ o, v⟩) := by
  have hs : stringCharAfter ⟨u, c :: v⟩ = some (.ok c, ⟨u, c :: v⟩) := rfl
  have hn : c ≠ '\n' := by rintro rfl; cases h
  unfold cellBody
  rw [bind_ok hs]
  by_cases hp : c = '%'
  · subst hp
    cases h
    simp [bind_apply, update, Buffer.insert, forwardChar]
  · rw [lookStep_other hn hb hp] at h
    cases h
    simp [hp, forwardChar]

/-- The inner loop runs to the end of the cell, or into the end of the buffer, where it signals. -/
theorem wp_cellLoop (b : Buffer) (hf : b.after.length < fuel) :
    wp (cellLoop fuel)
      (fun _ b' => scanFrom word .scanning b' = scanFrom word .scanning b ∧
        (∃ c v, b'.after = c :: v ∧ (isBlank c = true ∨ c = '\n')) ∧
        (b' = b ∨ b'.after.length < b.after.length))
      (fun e b' => (.error e, b') = scanFrom word .scanning b) b := by
  let I : Unit → Buffer → Prop := fun _ b' => scanFrom word .scanning b' = scanFrom word .scanning b ∧
    (b' = b ∨ b'.after.length < b.after.length)
  refine wp_whileLoop I (fun _ b' => b'.after.length) ?_ ⟨rfl, Or.inl rfl⟩ hf
  rintro - ⟨u, v⟩ ⟨hrun, hlen⟩
  cases v with
  | nil =>
    rw [wp_of_eq_error (cellTest_nil u)]
    simpa [scanFrom, rowExit] using hrun
  | cons c v =>
    rw [wp_of_eq_ok (cellTest_cons u v c)]
    by_cases hc : isBlank c = true ∨ c = '\n'
    · have : (!isBlank c && !(c == '\n')) = false := by
        rcases hc with h | rfl
        · simp [h]
        · rfl
      rw [this]
      exact ⟨hrun, ⟨c, v, rfl, hc⟩, hlen⟩
    · simp only [not_or, Bool.not_eq_true] at hc
      obtain ⟨o, ho⟩ : ∃ o, lookStep word c = some (o, .scanning) := by
        by_cases hp : c = '%'
        · exact ⟨_, hp ▸ lookStep_percent⟩
        · exact ⟨_, lookStep_other hc.2 hc.1 hp⟩
      have ht : (!isBlank c && !(c == '\n')) = true := by simp [hc.1, hc.2]
      simp only [ht, ite_true]
      rw [wp_of_eq_ok (cellBody_cons hc.1 ho)]
      refine ⟨⟨?_, Or.inr ?_⟩, ?_⟩
      · rw [← hrun, scanFrom_cons (q := .scanning) ho]
      · rcases hlen with rfl | hlen
        · simp
        · simp at hlen ⊢; omega
      · simp

theorem length_forwardWord_lt (word : Char → Bool) (u v : List Char) (c : Char) :
    (Buffer.forwardWord word ⟨u, c :: v⟩).after.length < (c :: v).length := by
  have h₁ := (List.dropWhile_suffix (l := v) (fun c => !word c)).length_le
  have h₂ := (List.dropWhile_suffix (l := v.dropWhile fun c => !word c) word).length_le
  have h₃ := (List.dropWhile_suffix (l := v) word).length_le
  by_cases hc : word c = true
  · simp [Buffer.forwardWord, hc]; omega
  · simp [Buffer.forwardWord, hc]; omega

/-- One round of the middle loop keeps what is still to be done and passes at least one character. -/
theorem wp_lineBody (b : Buffer) (hf : b.after.length < fuel) (he : b.eolp = false) :
    wp (lineBody word fuel)
      (fun _ b' => scanFrom word .landed b' = scanFrom word .landed b ∧ b'.after.length < b.after.length)
      (fun e b' => (.error e, b') = scanFrom word .landed b) b := by
  obtain ⟨u, _ | ⟨c, v⟩⟩ := b
  · cases he
  have hc : c ≠ '\n' := by simpa using he
  unfold lineBody
  rw [scanFrom_landed, wp_bind]
  refine wp_mono (wp_cellLoop _ hf) ?_ (fun _ _ h => h)
  rintro - ⟨u', v'⟩ ⟨hrun, ⟨c', v'', rfl, hend⟩, hlen⟩
  rw [wp_bind, wp_gets, ← hrun]
  by_cases hn : c' = '\n'
  · subst hn
    -- the scan has left the first character behind, which is no newline
    have hlt : ('\n' :: v'').length < (c :: v).length := by
      rcases hlen with h | h
      · cases h; exact absurd rfl hc
      · exact h
    exact ⟨scanFrom_landed, hlt⟩
  · have hb : isBlank c' = true := hend.resolve_right hn
    have he' : (!(⟨u', c' :: v''⟩ : Buffer).eolp) = true := by simp [hn]
    simp only [he', ite_true, wp_bind, wp_update]
    refine ⟨(scanFrom_blank hb).symm, ?_⟩
    have hw := length_forwardWord_lt word (u' ++ ['&']) v'' c'
    rcases hlen with h | h
    · cases h; exact hw
    · exact Nat.lt_trans hw h

/-- The middle loop does what the transducer does behind the first character. -/
theorem lineLoop_eq (word : Char → Bool) (b : Buffer) (hf : b.after.length < fuel) :
    lineLoop word fuel b = some (scanFrom word .landed b) := by
  apply eq_of_wp
  let I : Unit → Buffer → Prop := fun _ b' => scanFrom word .landed b' = scanFrom word .landed b ∧
    b'.after.length ≤ b.after.length
  refine wp_whileLoop I (fun _ b' => b'.after.length) ?_ ⟨rfl, Nat.le_refl _⟩ hf
  rintro - b' ⟨hrun, hlen⟩
  rw [wp_gets]
  cases he : b'.eolp with
  | true => exact hrun ▸ (scanFrom_landed_of_eolp he).symm
  | false =>
    refine wp_mono (wp_lineBody b' (by omega) he) ?_ ?_
    · rintro - b'' ⟨hrun', hlen'⟩
      exact ⟨⟨hrun'.trans hrun, by omega⟩, hlen'⟩
    · intro e b'' h
      exact h.trans hrun

/-- A whole pass: the row, its terminator and the step to the next line. -/
def rowPass (word : Char → Bool) (b : Buffer) : Except Signal Nat × Buffer :=
  match scanFrom word .start b with
  | (.error e, b') => (.error e, b')
  | (.ok (), b') => (.ok (b'.insert ['\\', '\\']).forwardLine.point, (b'.insert ['\\', '\\']).forwardLine)

theorem rowBody_eq (b : Buffer) (hf : b.after.length < fuel) :
    rowBody word fuel b = some (rowPass word b) := by
  obtain ⟨u, _ | ⟨c, v⟩⟩ := b
  · have hs : scanFrom word .start ⟨u, []⟩ = (.error .endOfBuffer, ⟨u, []⟩) := by simp [scanFrom, rowExit]
    unfold rowPass
    rw [hs]
    rfl
  have hc : forwardChar ⟨u, c :: v⟩ = some (.ok (), ⟨u ++ [c], v⟩) := rfl
  have hs : scanFrom word .start ⟨u, c :: v⟩ = scanFrom word .landed ⟨u ++ [c], v⟩ := scanFrom_cons rfl
  have hl := lineLoop_eq word ⟨u ++ [c], v⟩ (Nat.lt_of_succ_lt hf)
  unfold rowBody rowPass
  rw [bind_ok hc, hs]
  rcases hr : scanFrom word .landed ⟨u ++ [c], v⟩ with ⟨_ | _, b'⟩ <;> rw [hr] at hl
  · rw [bind_error hl]
  · rw [bind_ok hl]; rfl

end Loops

end EmacsDir
