import EmacsDir.Buffer

/-!
# `format-to-latex-table`

The command of `latex.el`: three nested while loops over the buffer, bounded by the integer `bottom` that the caller
took before any insertion.  The loops are the source's; `fuel` bounds the tests each of them makes, and `word` is the
word-constituent predicate of the buffer's syntax table, which only `forward-word` reads.
-/

namespace EmacsDir

open Command

/-- `(and (not (string= " " (string (char-after)))) (not (string= "\t" (string (char-after)))) (not (eolp)))`:
the character is made into a string before `eolp` is asked. -/
def cellTest : Command Signal Buffer Bool := do
  if !((← stringCharAfter) == ' ') then
    if !((← stringCharAfter) == '\t') then
      gets (fun b => !b.eolp)
    else pure false
  else pure false

/-- One round of the inner loop. -/
def cellBody : Command Signal Buffer Unit := do
  if (← stringCharAfter) == '%' then
    update (Buffer.insert ['\\'])
  forwardChar

/-- The inner loop: over the rest of a cell, with a backslash before each `%`. -/
def cellLoop (fuel : Nat) : Command Signal Buffer Unit :=
  whileLoop (fun _ => cellTest) (fun _ => cellBody) fuel ()

/-- One round of the middle loop. -/
def lineBody (word : Char → Bool) (fuel : Nat) : Command Signal Buffer Unit := do
  cellLoop fuel
  if !(← gets Buffer.eolp) then
    update (Buffer.insert ['&'])
    update (Buffer.forwardWord word)

/-- The middle loop: over the rest of a line. -/
def lineLoop (word : Char → Bool) (fuel : Nat) : Command Signal Buffer Unit :=
  whileLoop (fun _ => gets fun b => !b.eolp) (fun _ => lineBody word fuel) fuel ()

/-- One round of the outer loop; the value is the new `next-line`. -/
def rowBody (word : Char → Bool) (fuel : Nat) : Command Signal Buffer Nat := do
  forwardChar
  lineLoop word fuel
  update (Buffer.insert ['\\', '\\'])
  update Buffer.forwardLine
  gets Buffer.point

/-- The outer loop on `next-line`. -/
def tableLoop (word : Char → Bool) (fuel bottom : Nat) (n nextLine : Nat) : Command Signal Buffer Nat :=
  whileLoop (fun nextLine => pure (decide (nextLine < bottom))) (fun _ => rowBody word fuel) n nextLine

def formatToLatexTable (word : Char → Bool) (fuel top bottom : Nat) : Command Signal Buffer Unit := do
  update (Buffer.gotoChar top)
  if !(← gets Buffer.bolp) then
    update Buffer.forwardLine
  let nextLine ← gets Buffer.point
  let _ ← tableLoop word fuel bottom fuel nextLine

end EmacsDir
