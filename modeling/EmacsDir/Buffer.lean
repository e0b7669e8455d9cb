import EmacsDir.Command

/-!
# Buffers

A buffer is its accessible text, split at point; positions count from 1.  The motions and tests below are those
of Emacs that the commands of this repository call, each with the documented behaviour at the ends of the buffer.
-/

namespace EmacsDir

/-- The errors that the primitives signal. -/
inductive Signal
  | endOfBuffer
  | wrongTypeArgument
  | argsOutOfRange
  deriving DecidableEq, Repr

/-- The two blank characters of a line. -/
def isBlank (c : Char) : Bool := c == ' ' || c == '\t'

/-- A buffer: the text before point and the text after it. -/
structure Buffer where
  before : List Char
  after : List Char
  deriving DecidableEq, Repr

namespace Buffer

def text (b : Buffer) : List Char := b.before ++ b.after

def point (b : Buffer) : Nat := b.before.length + 1

def charAfter (b : Buffer) : Option Char := b.after.head?

def bolp (b : Buffer) : Bool := b.before.isEmpty || b.before.getLast? == some '\n'

def eolp (b : Buffer) : Bool := b.after.isEmpty || b.after.head? == some '\n'

/-- `(goto-char n)`: point is clamped to the buffer. -/
def gotoChar (n : Nat) (b : Buffer) : Buffer :=
  ⟨b.text.take (n - 1), b.text.drop (n - 1)⟩

def insert (s : List Char) (b : Buffer) : Buffer := ⟨b.before ++ s, b.after⟩

/-- `(forward-line)`: the start of the next line, or the end of the buffer when there is none. -/
def forwardLine (b : Buffer) : Buffer :=
  match b.after.dropWhile (· ≠ '\n') with
  | [] => ⟨b.before ++ b.after, []⟩
  | c :: rest => ⟨b.before ++ b.after.takeWhile (· ≠ '\n') ++ [c], rest⟩

/-- `(forward-word)`: past the next characters that are not word constituents, then past the word. -/
def forwardWord (word : Char → Bool) (b : Buffer) : Buffer :=
  let gap := b.after.takeWhile (fun c => !word c)
  let rest := b.after.dropWhile (fun c => !word c)
  ⟨b.before ++ gap ++ rest.takeWhile word, rest.dropWhile word⟩

/-- `(forward-line n)` from the beginning of a line, for a count that is not negative. -/
def forwardLines : Nat → Buffer → Buffer
  | 0, b => b
  | n + 1, b => forwardLines n b.forwardLine

/-- `(skip-chars-forward ..)` over the characters that satisfy `p`. -/
def skipCharsForward (p : Char → Bool) (b : Buffer) : Buffer :=
  ⟨b.before ++ b.after.takeWhile p, b.after.dropWhile p⟩

/-- `(skip-chars-backward ..)` over the characters that satisfy `p`. -/
def skipCharsBackward (p : Char → Bool) (b : Buffer) : Buffer :=
  ⟨(b.before.reverse.dropWhile p).reverse, (b.before.reverse.takeWhile p).reverse ++ b.after⟩

/-- `(beginning-of-line)`. -/
def beginningOfLine (b : Buffer) : Buffer := b.skipCharsBackward (· ≠ '\n')

/-- `(buffer-substring-no-properties m n)` for `m ≤ n`. -/
def substring (m n : Nat) (b : Buffer) : List Char := (b.text.take (n - 1)).drop (m - 1)

end Buffer

/-- `(forward-char)`. -/
def forwardChar : Command Signal Buffer Unit := fun b =>
  match b.after with
  | [] => some (.error .endOfBuffer, b)
  | c :: rest => some (.ok (), ⟨b.before ++ [c], rest⟩)

/-- `(string (char-after))`: `char-after` is nil at the end of the buffer, which `string` refuses. -/
def stringCharAfter : Command Signal Buffer Char := fun b =>
  match b.charAfter with
  | none => some (.error .wrongTypeArgument, b)
  | some c => some (.ok c, b)

namespace Buffer

/-! ### Text and point of the motions -/

theorem text_gotoChar (n : Nat) (b : Buffer) : (b.gotoChar n).text = b.text :=
  List.take_append_drop _ _

theorem text_forwardLine (b : Buffer) : b.forwardLine.text = b.text := by
  unfold forwardLine text
  split
  · simp
  · rename_i c rest h
    conv => rhs; rw [← List.takeWhile_append_dropWhile (p := (· ≠ '\n')) (l := b.after), h]
    simp

@[simp] theorem eolp_cons (u rest : List Char) (c : Char) :
    (⟨u, c :: rest⟩ : Buffer).eolp = (c == '\n') := by
  simp [eolp]

/-- Point stands at the start of a line after a text that ends one. -/
def BeginsLine (u : List Char) : Prop := u = [] ∨ u.getLast? = some '\n'

theorem bolp_iff (u v : List Char) : (⟨u, v⟩ : Buffer).bolp = true ↔ BeginsLine u := by
  simp [bolp, BeginsLine]

theorem gotoChar_append {b : Buffer} {u v : List Char} (h : b.text = u ++ v) :
    b.gotoChar (u.length + 1) = ⟨u, v⟩ := by
  simp [gotoChar, h]

theorem ne_newline {v : List Char} (hv : '\n' ∉ v) : ∀ c ∈ v, decide (c ≠ '\n') = true := by
  intro c hc
  simp only [ne_eq, decide_not, Bool.not_eq_true', decide_eq_false_iff_not]
  rintro rfl
  exact hv hc

theorem forwardLine_newline (u v rest : List Char) (hv : '\n' ∉ v) :
    (⟨u, v ++ '\n' :: rest⟩ : Buffer).forwardLine = ⟨u ++ v ++ ['\n'], rest⟩ := by
  have hall := ne_newline hv
  unfold forwardLine
  simp only [List.dropWhile_append_of_pos hall, List.takeWhile_append_of_pos hall]
  simp

theorem forwardLine_last (u v : List Char) (hv : '\n' ∉ v) :
    (⟨u, v⟩ : Buffer).forwardLine = ⟨u ++ v, []⟩ := by
  have hall := ne_newline hv
  have hd : v.dropWhile (· ≠ '\n') = [] := by
    rw [← List.append_nil v, List.dropWhile_append_of_pos hall]
    rfl
  unfold forwardLine
  simp only [hd]

/-- Line `n + 1` begins behind `n` newlines. -/
theorem forwardLines_eq {n : Nat} {u v w : List Char} (hv : BeginsLine v) (hn : v.count '\n' = n) :
    (⟨u, v ++ w⟩ : Buffer).forwardLines n = ⟨u ++ v, w⟩ := by
  induction n generalizing u v with
  | zero =>
    rcases hv with rfl | hv
    · simp [forwardLines]
    · exact absurd (List.mem_of_getLast? hv) (List.count_eq_zero.1 hn)
  | succ n ih =>
    have hmem : '\n' ∈ v := List.count_pos_iff.1 (by omega)
    -- the first newline of `v` is the one that `forward-line` stops behind
    obtain ⟨x, y, rfl, hx⟩ := List.eq_append_cons_of_mem hmem
    have hy : BeginsLine y := by
      rcases hv with hv | hv
      · simp at hv
      · cases y with
        | nil => exact Or.inl rfl
        | cons c y => exact Or.inr (by rw [← hv]; simp [List.getLast?_append, List.getLast?_cons])
    have hcount : y.count '\n' = n := by
      have h0 := List.count_eq_zero.2 hx
      rw [List.count_append, List.count_cons_self] at hn
      omega
    rw [forwardLines, show x ++ '\n' :: y ++ w = x ++ '\n' :: (y ++ w) by simp, forwardLine_newline _ _ _ hx, ih hy hcount]
    simp

end Buffer

end EmacsDir
