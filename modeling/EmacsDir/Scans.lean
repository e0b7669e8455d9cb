import EmacsDir.Buffer
import Mathlib.Order.Monotone.Basic

/-!
# Where scans end

How far a motion gets, as a function of the place where it starts in a fixed text.  A scan that starts one
character further either passes that character and ends where the other scan ends, or stops at once
(`skipCharsBackward_succ`, `skipCharsForward_succ`), so all ends are monotone in the start.
-/

namespace EmacsDir

namespace Buffer

/-- The text with `n` characters before point. -/
def split (t : List Char) (n : Nat) : Buffer := ⟨t.take n, t.drop n⟩

/-- The number of characters before the place where `(skip-chars-backward ..)` ends. -/
def scanBackward (p : Char → Bool) (t : List Char) (n : Nat) : Nat := ((split t n).skipCharsBackward p).before.length

/-- The number of characters before the place where `(skip-chars-forward ..)` ends. -/
def scanForward (p : Char → Bool) (t : List Char) (n : Nat) : Nat := ((split t n).skipCharsForward p).before.length

/-- The number of characters before the place where `(forward-line 1)` ends. -/
def lineForward (t : List Char) (n : Nat) : Nat := (split t n).forwardLine.before.length

theorem scanBackward_eq (p : Char → Bool) (t : List Char) (n : Nat) :
    scanBackward p t n = ((t.take n).reverse.dropWhile p).length :=
  List.length_reverse

theorem scanForward_eq (p : Char → Bool) (t : List Char) (n : Nat) :
    scanForward p t n = (t.take n).length + ((t.drop n).takeWhile p).length :=
  List.length_append

/-! ### Backward -/

theorem scanBackward_le (p : Char → Bool) (t : List Char) (n : Nat) : scanBackward p t n ≤ n := by
  have h := (List.dropWhile_suffix (l := (t.take n).reverse) p).length_le
  have hn := List.length_take_le n t
  rw [List.length_reverse] at h
  rw [scanBackward_eq]
  omega

theorem scanBackward_succ (p : Char → Bool) {t : List Char} {n : Nat} (h : n < t.length) :
    scanBackward p t (n + 1) = if p t[n] then scanBackward p t n else n + 1 := by
  have hlen : (t.take n).length = n := List.length_take_of_le (by omega)
  rw [scanBackward_eq, scanBackward_eq, List.take_succ_eq_append_getElem h, List.reverse_append,
    List.reverse_singleton, List.singleton_append]
  cases hp : p t[n] with
  | true => rw [List.dropWhile_cons_of_pos hp, if_pos rfl]
  | false =>
    rw [List.dropWhile_cons_of_neg (Bool.eq_false_iff.1 hp), if_neg Bool.false_ne_true, List.length_cons,
      List.length_reverse, hlen]

theorem scanBackward_mono (p : Char → Bool) (t : List Char) : Monotone (scanBackward p t) := by
  apply monotone_nat_of_le_succ
  intro n
  by_cases h : n < t.length
  · rw [scanBackward_succ p h]
    have := scanBackward_le p t n
    split <;> omega
  · -- behind the text there is one place
    rw [scanBackward_eq, scanBackward_eq, List.take_of_length_le (by omega), List.take_of_length_le (by omega)]

/-! ### Forward -/

theorem le_scanForward (p : Char → Bool) {t : List Char} {n : Nat} (h : n ≤ t.length) : n ≤ scanForward p t n := by
  rw [scanForward_eq, List.length_take_of_le h]
  omega

theorem scanForward_le (p : Char → Bool) (t : List Char) (n : Nat) : scanForward p t n ≤ t.length := by
  have h := (List.takeWhile_prefix (l := t.drop n) p).length_le
  have ht := congrArg List.length (List.take_append_drop n t)
  rw [List.length_append] at ht
  rw [scanForward_eq]
  omega

theorem scanForward_succ (p : Char → Bool) {t : List Char} {n : Nat} (h : n < t.length) :
    scanForward p t n = if p t[n] then scanForward p t (n + 1) else n := by
  rw [scanForward_eq, scanForward_eq, List.length_take_of_le (by omega), List.length_take_of_le (by omega),
    List.drop_eq_getElem_cons h]
  cases hp : p t[n] with
  | true =>
    rw [List.takeWhile_cons_of_pos hp, if_pos rfl, List.length_cons]
    omega
  | false =>
    rw [List.takeWhile_cons_of_neg (Bool.eq_false_iff.1 hp), if_neg Bool.false_ne_true, List.length_nil,
      Nat.add_zero]

theorem scanForward_mono (p : Char → Bool) (t : List Char) : Monotone (scanForward p t) := by
  apply monotone_nat_of_le_succ
  intro n
  by_cases h : n < t.length
  · rw [scanForward_succ p h]
    have := le_scanForward p (t := t) (n := n + 1) (by omega)
    split <;> omega
  · rw [scanForward_eq, scanForward_eq, List.take_of_length_le (by omega), List.take_of_length_le (by omega),
      List.drop_of_length_le (by omega), List.drop_of_length_le (by omega)]

/-! ### By lines -/

/-- `(forward-line 1)` goes one character past the end of the line, where there is one. -/
theorem lineForward_eq (t : List Char) (n : Nat) :
    lineForward t n = min (scanForward (· ≠ '\n') t n + 1) t.length := by
  have ht := congrArg List.length (List.take_append_drop n t)
  have hd := congrArg List.length (List.takeWhile_append_dropWhile (p := (· ≠ '\n')) (l := t.drop n))
  rw [List.length_append] at ht hd
  rw [scanForward_eq]
  unfold lineForward split forwardLine
  split
  · rename_i h
    show (t.take n ++ t.drop n).length = _
    rw [h, List.length_nil] at hd
    rw [List.length_append]
    omega
  · rename_i c rest h
    show (t.take n ++ (t.drop n).takeWhile (· ≠ '\n') ++ [c]).length = _
    rw [h, List.length_cons] at hd
    rw [List.length_append, List.length_append, List.length_singleton]
    omega

theorem le_lineForward {t : List Char} {n : Nat} (h : n ≤ t.length) : n ≤ lineForward t n := by
  have := le_scanForward (· ≠ '\n') h
  rw [lineForward_eq]
  omega

theorem lineForward_le (t : List Char) (n : Nat) : lineForward t n ≤ t.length := by
  rw [lineForward_eq]
  omega

theorem lineForward_mono (t : List Char) : Monotone (lineForward t) := by
  intro m n h
  have := scanForward_mono (· ≠ '\n') t h
  rw [lineForward_eq, lineForward_eq]
  omega

end Buffer

end EmacsDir
