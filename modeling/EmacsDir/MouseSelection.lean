import EmacsDir.Scans

/-!
# What a click or a drag selects

`mouse-start-end` of `init.el`, on the accessible part of a buffer.  The syntax of the characters, the fields and
the motions over balanced expressions come from outside this repository; what is assumed of them stands in the
structure.  Every branch that looks at a clicked character starts from a character of the buffer, so its motions
stay on the right side of the click; the branches for words and lines are scans, and their ends are monotone in
the ends of the drag.
-/

namespace EmacsDir

/-- A `scan-error`: its message and the places it names. -/
structure ScanError where
  message : String
  start : Nat
  stop : Nat
  deriving DecidableEq, Repr

/-- The accessible part of a buffer, with what Emacs knows about it. -/
structure MouseBuffer where
  pointMin : Nat
  text : List Char
  /-- `char-syntax`, the designator of the class in the syntax table. -/
  charSyntax : Char → Char
  /-- `(syntax-class (syntax-after p))`, which text properties can override. -/
  syntaxClass : Nat → Nat
  fieldBeginning : Nat → Nat
  forwardSexp : Nat → Except ScanError Nat
  backwardSexp : Nat → Except ScanError Nat
  field_le : ∀ p, fieldBeginning p ≤ p
  forward_lt : ∀ p q, pointMin ≤ p → p < pointMin + text.length → forwardSexp p = .ok q →
    p < q ∧ q ≤ pointMin + text.length
  backward_lt : ∀ p q, pointMin < p → p ≤ pointMin + text.length → backwardSexp p = .ok q → pointMin ≤ q ∧ q < p

namespace MouseBuffer

variable (b : MouseBuffer)

def pointMax : Nat := b.pointMin + b.text.length

def charAfter (p : Nat) : Option Char := if p < b.pointMin then none else b.text[p - b.pointMin]?

/-- The syntax of the character after a position, when there is one. -/
def charSyntaxAfter (p : Nat) : Option Char := (b.charAfter p).map b.charSyntax

/-- `(looking-at "\\s(\\|\\s \\|\\s>")`: an opening parenthesis, a blank or the end of a comment. -/
def lookingAtOpening (p : Nat) : Bool := b.syntaxClass p == 4 || b.syntaxClass p == 0 || b.syntaxClass p == 12

def skipCharsBackward (q : Char → Bool) (p : Nat) : Nat := b.pointMin + Buffer.scanBackward q b.text (p - b.pointMin)

def skipCharsForward (q : Char → Bool) (p : Nat) : Nat := b.pointMin + Buffer.scanForward q b.text (p - b.pointMin)

/-- `(line-beginning-position 1)`, which does not leave the field of its start. -/
def lineBeginningPosition (p : Nat) : Nat := max (b.skipCharsBackward (· ≠ '\n') p) (b.fieldBeginning p)

/-- Where `(forward-line 1)` goes. -/
def forwardLine (p : Nat) : Nat := b.pointMin + Buffer.lineForward b.text (p - b.pointMin)

end MouseBuffer

/-- The characters of a path word, `"-A-Za-z0-9_.~/+*"`. -/
def isPathWord (c : Char) : Bool := c.isAlphanum || ['-', '_', '.', '~', '/', '+', '*'].contains c

/-- `mouse-start-end`.  The last branch is the value of a `cond` none of whose tests holds. -/
def mouseStartEnd (b : MouseBuffer) (start stop : Nat) (mode : Int) : Except ScanError (List Nat) :=
  let (start, stop) := if start > stop then (stop, start) else (start, stop)
  let mode := mode % 3
  if mode = 0 then
    .ok [start, stop]
  else if mode = 1 ∧ start = stop ∧ b.charSyntaxAfter start = some '(' then
    if b.syntaxClass start ≠ 4 then
      .error ⟨"Containing expression ends prematurely", start, start⟩
    else
      (b.forwardSexp start).map fun p => [start, p]
  else if mode = 1 ∧ start = stop ∧ b.charSyntaxAfter start = some ')' then
    if b.syntaxClass start ≠ 5 then
      .error ⟨"Unbalanced parentheses", start, start⟩
    else
      (b.backwardSexp (start + 1)).map fun p => [p, start + 1]
  else if mode = 1 ∧ start = stop ∧ b.charSyntaxAfter start = some '\x22' then
    if start = b.pointMin ∨ b.lookingAtOpening (start - 1) then
      .ok [start, (b.forwardSexp start).toOption.getD stop]
    else
      .ok [(b.backwardSexp (start + 1)).toOption.getD stop, start + 1]
  else if mode = 1 then
    .ok [b.skipCharsBackward isPathWord start, b.skipCharsForward isPathWord stop]
  else if mode = 2 then
    .ok [b.lineBeginningPosition start, b.forwardLine stop]
  else
    .ok []

variable (b : MouseBuffer) {start stop : Nat} {mode : Int}

namespace MouseBuffer

/-- A character stands before the end of the buffer. -/
theorem lt_pointMax {p : Nat} {c : Char} (h : b.charSyntaxAfter p = some c) : b.pointMin ≤ p ∧ p < b.pointMax := by
  unfold charSyntaxAfter charAfter at h
  split at h
  · cases h
  · rw [Option.map_eq_some_iff] at h
    obtain ⟨a, ha, -⟩ := h
    have := (List.getElem?_eq_some_iff.1 ha).1
    unfold pointMax
    omega

theorem skipCharsBackward_le (q : Char → Bool) {p : Nat} (h : b.pointMin ≤ p) :
    b.pointMin ≤ b.skipCharsBackward q p ∧ b.skipCharsBackward q p ≤ p := by
  have := Buffer.scanBackward_le q b.text (p - b.pointMin)
  unfold skipCharsBackward
  omega

theorem le_skipCharsForward (q : Char → Bool) {p : Nat} (h : b.pointMin ≤ p) (h' : p ≤ b.pointMax) :
    p ≤ b.skipCharsForward q p ∧ b.skipCharsForward q p ≤ b.pointMax := by
  unfold pointMax at h' ⊢
  have hle := Buffer.le_scanForward q (t := b.text) (n := p - b.pointMin) (by omega)
  have := Buffer.scanForward_le q b.text (p - b.pointMin)
  unfold skipCharsForward
  omega

theorem lineBeginningPosition_le {p : Nat} (h : b.pointMin ≤ p) :
    b.pointMin ≤ b.lineBeginningPosition p ∧ b.lineBeginningPosition p ≤ p := by
  have hskip := b.skipCharsBackward_le (· ≠ '\n') h
  have := b.field_le p
  unfold lineBeginningPosition
  omega

theorem le_forwardLine {p : Nat} (h : b.pointMin ≤ p) (h' : p ≤ b.pointMax) :
    p ≤ b.forwardLine p ∧ b.forwardLine p ≤ b.pointMax := by
  unfold pointMax at h' ⊢
  have hle := Buffer.le_lineForward (t := b.text) (n := p - b.pointMin) (by omega)
  have := Buffer.lineForward_le b.text (p - b.pointMin)
  unfold forwardLine
  omega

/-- A motion from a character goes behind it. -/
theorem forwardSexp_bounds {p q : Nat} {c : Char} (h : b.charSyntaxAfter p = some c) (hq : b.forwardSexp p = .ok q) :
    p ≤ q ∧ q ≤ b.pointMax := by
  obtain ⟨hmin, hmax⟩ := b.lt_pointMax h
  have := b.forward_lt p q hmin hmax hq
  exact ⟨Nat.le_of_lt this.1, this.2⟩

/-- A motion back over a character goes at least to its place. -/
theorem backwardSexp_bounds {p q : Nat} {c : Char} (h : b.charSyntaxAfter p = some c)
    (hq : b.backwardSexp (p + 1) = .ok q) : b.pointMin ≤ q ∧ q ≤ p := by
  obtain ⟨hmin, hmax⟩ := b.lt_pointMax h
  have := b.backward_lt (p + 1) q (Nat.lt_succ_of_le hmin) hmax hq
  exact ⟨this.1, Nat.le_of_lt_succ this.2⟩

/-- An interval of the buffer around two positions, or a signal. -/
def Selects (start stop : Nat) (r : Except ScanError (List Nat)) : Prop :=
  (∃ e, r = .error e) ∨ ∃ s e, r = .ok [s, e] ∧ b.pointMin ≤ s ∧ s ≤ start ∧ stop ≤ e ∧ e ≤ b.pointMax

variable {b}

theorem selects_forwardSexp {p : Nat} {c : Char} (h : b.charSyntaxAfter p = some c) :
    b.Selects p p ((b.forwardSexp p).map fun q => [p, q]) := by
  cases hq : b.forwardSexp p with
  | error e => exact Or.inl ⟨e, rfl⟩
  | ok q => exact Or.inr ⟨p, q, rfl, (b.lt_pointMax h).1, Nat.le_refl p, b.forwardSexp_bounds h hq⟩

theorem selects_backwardSexp {p : Nat} {c : Char} (h : b.charSyntaxAfter p = some c) :
    b.Selects p p ((b.backwardSexp (p + 1)).map fun q => [q, p + 1]) := by
  cases hq : b.backwardSexp (p + 1) with
  | error e => exact Or.inl ⟨e, rfl⟩
  | ok q =>
    have hbounds := b.backwardSexp_bounds h hq
    exact Or.inr ⟨q, p + 1, rfl, hbounds.1, hbounds.2, Nat.le_succ p, (b.lt_pointMax h).2⟩

/-- A quote whose string does not end selects nothing behind the click. -/
theorem selects_openQuote {p : Nat} {c : Char} (h : b.charSyntaxAfter p = some c) :
    b.Selects p p (.ok [p, (b.forwardSexp p).toOption.getD p]) := by
  obtain ⟨hmin, hmax⟩ := b.lt_pointMax h
  refine Or.inr ⟨p, _, rfl, hmin, Nat.le_refl p, ?_⟩
  cases hq : b.forwardSexp p with
  | error e => exact ⟨Nat.le_refl p, Nat.le_of_lt hmax⟩
  | ok q => exact b.forwardSexp_bounds h hq

/-- A quote that ends no string selects itself. -/
theorem selects_closeQuote {p : Nat} {c : Char} (h : b.charSyntaxAfter p = some c) :
    b.Selects p p (.ok [(b.backwardSexp (p + 1)).toOption.getD p, p + 1]) := by
  obtain ⟨hmin, hmax⟩ := b.lt_pointMax h
  suffices hs : b.pointMin ≤ (b.backwardSexp (p + 1)).toOption.getD p ∧
      (b.backwardSexp (p + 1)).toOption.getD p ≤ p from
    Or.inr ⟨_, p + 1, rfl, hs.1, hs.2, Nat.le_succ p, hmax⟩
  cases hq : b.backwardSexp (p + 1) with
  | error e => exact ⟨hmin, Nat.le_refl p⟩
  | ok q => exact b.backwardSexp_bounds h hq

end MouseBuffer

open MouseBuffer

/-- The two ends are put in order first. -/
theorem mouseStartEnd_min_max (start stop : Nat) (mode : Int) :
    mouseStartEnd b start stop mode = mouseStartEnd b (min start stop) (max start stop) mode := by
  by_cases h : start > stop
  · rw [Nat.min_eq_right (Nat.le_of_lt h), Nat.max_eq_left (Nat.le_of_lt h)]
    unfold mouseStartEnd
    rw [if_pos h, if_neg (Nat.lt_asymm h)]
  · rw [Nat.min_eq_left (Nat.not_lt.1 h), Nat.max_eq_right (Nat.not_lt.1 h)]

theorem mouseStartEnd_selects (hs : b.pointMin ≤ start) (hle : start ≤ stop) (ht : stop ≤ b.pointMax) (mode : Int) :
    b.Selects start stop (mouseStartEnd b start stop mode) := by
  have hmax : start ≤ b.pointMax := Nat.le_trans hle ht
  have hmin : b.pointMin ≤ stop := Nat.le_trans hs hle
  unfold mouseStartEnd
  rw [if_neg (by omega)]
  dsimp only
  split
  · exact Or.inr ⟨start, stop, rfl, hs, Nat.le_refl _, Nat.le_refl _, ht⟩
  split
  · rename_i h
    obtain ⟨-, rfl, hc⟩ := h
    split
    · exact Or.inl ⟨_, rfl⟩
    · exact selects_forwardSexp hc
  split
  · rename_i h
    obtain ⟨-, rfl, hc⟩ := h
    split
    · exact Or.inl ⟨_, rfl⟩
    · exact selects_backwardSexp hc
  split
  · rename_i h
    obtain ⟨-, rfl, hc⟩ := h
    split
    · exact selects_openQuote hc
    · exact selects_closeQuote hc
  split
  · have h := b.skipCharsBackward_le isPathWord hs
    have h' := b.le_skipCharsForward isPathWord hmin ht
    exact Or.inr ⟨_, _, rfl, h.1, h.2, h'.1, h'.2⟩
  split
  · have h := b.lineBeginningPosition_le hs
    have h' := b.le_forwardLine hmin ht
    exact Or.inr ⟨_, _, rfl, h.1, h.2, h'.1, h'.2⟩
  · -- a remainder modulo 3 is 0, 1 or 2
    omega

/-- `mouse-start-end` signals or returns an interval of the buffer around both of its positions. -/
theorem mouseStartEnd_bounds (b : MouseBuffer) (start stop : Nat) (mode : Int)
    (hs : b.pointMin ≤ start ∧ start ≤ b.pointMax) (ht : b.pointMin ≤ stop ∧ stop ≤ b.pointMax) :
    (∃ e, mouseStartEnd b start stop mode = .error e) ∨
      ∃ s e, mouseStartEnd b start stop mode = .ok [s, e] ∧ b.pointMin ≤ s ∧ s ≤ min start stop ∧
        max start stop ≤ e ∧ e ≤ b.pointMax := by
  rw [mouseStartEnd_min_max]
  exact mouseStartEnd_selects b (by omega) (by omega) (by omega) mode

/-- The buffer `(a)`, without fields. -/
def parenBuffer : MouseBuffer where
  pointMin := 1
  text := ['(', 'a', ')']
  charSyntax c := if c = '(' then '(' else if c = ')' then ')' else 'w'
  syntaxClass p := if p = 1 then 4 else if p = 3 then 5 else 2
  fieldBeginning p := min p 1
  forwardSexp p :=
    if p = 1 then .ok 4
    else if p = 2 then .ok 3
    else if p = 3 then .error ⟨"Containing expression ends prematurely", 3, 4⟩
    else .ok 4
  backwardSexp p :=
    if p = 4 then .ok 1
    else if p = 3 then .ok 2
    else if p = 2 then .error ⟨"Containing expression ends prematurely", 1, 2⟩
    else .ok 1
  field_le p := Nat.min_le_left p 1
  forward_lt p q hmin hmax h := by
    simp only [List.length_cons, List.length_nil] at hmax
    obtain rfl | rfl | rfl : p = 1 ∨ p = 2 ∨ p = 3 := by omega
    · cases h; decide
    · cases h; decide
    · cases h
  backward_lt p q hmin hmax h := by
    simp only [List.length_cons, List.length_nil] at hmax
    obtain rfl | rfl | rfl : p = 2 ∨ p = 3 ∨ p = 4 := by omega
    · cases h
    · cases h; decide
    · cases h; decide

/-- Four clicks on the closing parenthesis. -/
theorem mouseStartEnd_bounds_paren :
    mouseStartEnd parenBuffer 3 3 4 = .ok [1, 4] ∧
      ((∃ e, mouseStartEnd parenBuffer 3 3 4 = .error e) ∨
        ∃ s e, mouseStartEnd parenBuffer 3 3 4 = .ok [s, e] ∧ parenBuffer.pointMin ≤ s ∧ s ≤ min 3 3 ∧
          max 3 3 ≤ e ∧ e ≤ parenBuffer.pointMax) :=
  ⟨rfl, mouseStartEnd_bounds parenBuffer 3 3 4 (by decide) (by decide)⟩

/-! ### Drags -/

namespace MouseBuffer

/-- The positions are all in one field. -/
def NoFields : Prop := ∀ p, b.pointMin ≤ p → b.fieldBeginning p = b.pointMin

/-- Where the selection of a drag from `p` begins. -/
def dragStart (mode : Int) (p : Nat) : Nat :=
  if mode % 3 = 0 then p
  else if mode % 3 = 1 then b.skipCharsBackward isPathWord p
  else b.lineBeginningPosition p

/-- Where the selection of a drag to `p` ends. -/
def dragStop (mode : Int) (p : Nat) : Nat :=
  if mode % 3 = 0 then p
  else if mode % 3 = 1 then b.skipCharsForward isPathWord p
  else b.forwardLine p

theorem skipCharsBackward_mono (q : Char → Bool) {p p' : Nat} (h : p ≤ p') :
    b.skipCharsBackward q p ≤ b.skipCharsBackward q p' :=
  Nat.add_le_add_left (Buffer.scanBackward_mono q b.text (Nat.sub_le_sub_right h _)) _

theorem skipCharsForward_mono (q : Char → Bool) {p p' : Nat} (h : p ≤ p') :
    b.skipCharsForward q p ≤ b.skipCharsForward q p' :=
  Nat.add_le_add_left (Buffer.scanForward_mono q b.text (Nat.sub_le_sub_right h _)) _

theorem forwardLine_mono {p p' : Nat} (h : p ≤ p') : b.forwardLine p ≤ b.forwardLine p' :=
  Nat.add_le_add_left (Buffer.lineForward_mono b.text (Nat.sub_le_sub_right h _)) _

variable {b}

theorem dragStart_mono (hb : b.NoFields) (mode : Int) {p p' : Nat} (hp : b.pointMin ≤ p) (h : p ≤ p') :
    b.dragStart mode p ≤ b.dragStart mode p' := by
  unfold dragStart
  split
  · exact h
  split
  · exact b.skipCharsBackward_mono isPathWord h
  · have hskip := b.skipCharsBackward_mono (· ≠ '\n') h
    have hmin := (b.skipCharsBackward_le (· ≠ '\n') hp).1
    have hfield := hb p hp
    unfold lineBeginningPosition
    omega

theorem dragStop_mono (mode : Int) {p p' : Nat} (h : p ≤ p') : b.dragStop mode p ≤ b.dragStop mode p' := by
  unfold dragStop
  split
  · exact h
  split
  · exact b.skipCharsForward_mono isPathWord h
  · exact b.forwardLine_mono h

/-- The ends of the selection of a drag are found apart from each other. -/
theorem mouseStartEnd_drag (h : start ≠ stop) (mode : Int) :
    mouseStartEnd b start stop mode =
      .ok [b.dragStart mode (min start stop), b.dragStop mode (max start stop)] := by
  have hne : min start stop ≠ max start stop := by omega
  rw [mouseStartEnd_min_max]
  unfold mouseStartEnd dragStart dragStop
  rw [if_neg (by omega)]
  simp only [hne, false_and, and_false, if_false]
  split
  · rfl
  split
  · rfl
  · rw [if_pos (by omega)]

end MouseBuffer

/-- A drag around another one selects at least as much, in a buffer without fields. -/
theorem mouseStartEnd_drag_mono (b : MouseBuffer) (hb : b.NoFields) (mode : Int) (start stop start' stop' : Nat)
    (hne : start ≠ stop) (hmin : b.pointMin ≤ min start' stop') (hs : min start' stop' ≤ min start stop)
    (ht : max start stop ≤ max start' stop') :
    ∃ s e s' e', mouseStartEnd b start stop mode = .ok [s, e] ∧ mouseStartEnd b start' stop' mode = .ok [s', e'] ∧
      s' ≤ s ∧ e ≤ e' :=
  ⟨_, _, _, _, mouseStartEnd_drag hne mode, mouseStartEnd_drag (by omega) mode, dragStart_mono hb mode hmin hs,
    dragStop_mono mode ht⟩

/-- A drag over the letter, and one from the end of the buffer back over the letter. -/
theorem mouseStartEnd_drag_mono_paren :
    ∃ s e s' e', mouseStartEnd parenBuffer 2 3 1 = .ok [s, e] ∧ mouseStartEnd parenBuffer 4 2 1 = .ok [s', e'] ∧
      s' ≤ s ∧ e ≤ e' :=
  mouseStartEnd_drag_mono parenBuffer (fun _ hp => Nat.min_eq_right hp) 1 2 3 4 2 (by decide) (by decide)
    (by decide) (by decide)

end EmacsDir
