import EmacsDir.Buffer
import EmacsDir.CaseTable
import EmacsDir.Regexp

/-!
# `sr-speedbar-refresh`

The tick of the speedbar timer.  The speedbar itself belongs to the editor, so its operations are a parameter
(`Speedbar`): commands on what they can see, which is the listing with its faces, the match data, the current buffer
and a world of their own.  The two variables that the tick remembers are out of their reach.
-/

namespace EmacsDir

open Command Regexp

/-- The faces that the tick distinguishes: `speedbar-current-buffer-face`, `speedbar-file-face` and the rest. -/
inductive Face
  | currentBuffer
  | file
  | other
  deriving DecidableEq, Repr

/-- A character of the listing, told apart by its key, and its face. -/
structure Glyph where
  key : Nat
  face : Face
  deriving DecidableEq, Repr

/-- What the operations of the speedbar work on.  The match data is that of group 1, as offsets into the listing. -/
structure Bar (W : Type) where
  shown : List Glyph
  matchData : Option (Nat × Nat)
  currentBuffer : List Char
  world : W

/-- The operations of the speedbar and of the editor that the tick calls. -/
structure Speedbar (W : Type) where
  refresh : List Char → Command Signal (Bar W) Unit
  findSelectedFile : List Char → Command Signal (Bar W) Bool
  contractLine : Command Signal (Bar W) Unit
  expandLine : Command Signal (Bar W) Unit
  lineNumberAtPos : Bar W → Nat
  /-- `(get-buffer-window speedbar-buffer t)` -/
  getBufferWindow : W → Option Nat
  /-- `(scroll-up num)` from the beginning of the speedbar's buffer, with this window selected. -/
  scrollUp : Nat → Nat → Command Signal (Bar W) Unit

/-- Where a tick is made.  The speedbar visits no file. -/
structure Tick where
  defaultDirectory : List Char
  bufferFileName : Option (List Char)
  bufferName : List Char
  speedbarWindow : Bool
  window_file : speedbarWindow = true → bufferFileName = none

/-- The variables `sr-speedbar-last-refresh-dictionary` and `sr-speedbar-last-buffer-filename`, and the speedbar. -/
structure SrState (W : Type) where
  lastRefreshDictionary : Option (List Char)
  lastBufferFilename : Option (List Char)
  bar : Bar W

/-- The characters between two offsets get the face. -/
def setFace (a b : Nat) (face : Face) (shown : List Glyph) : List Glyph :=
  shown.mapIdx fun i g => if a ≤ i ∧ i < b then { g with face := face } else g

section Operations

variable {W : Type}

/-- `(put-text-property (match-beginning 1) (match-end 1) 'face face)` -/
def putFace (face : Face) : Command Signal (Bar W) Unit := fun bar =>
  match bar.matchData with
  | none => some (.error .wrongTypeArgument, bar)
  | some (a, b) =>
    if a ≤ b ∧ b ≤ bar.shown.length then
      some (.ok (), { bar with shown := setFace a b face bar.shown })
    else
      some (.error .argsOutOfRange, bar)

/-- `(rx (or ".C" ".h" ".cxx" ".el" ".py"))` -/
def expandedRegexp (canon : Char → Char) : Regexp Char :=
  alt (word canon ['.', 'C']) (alt (word canon ['.', 'h']) (alt (word canon ['.', 'c', 'x', 'x'])
    (alt (word canon ['.', 'e', 'l']) (word canon ['.', 'p', 'y']))))

/-- `(string-match ..)` with an expression without groups: a success leaves match data without a group 1. -/
def stringMatch (r : Regexp Char) (text : List Char) : Command Signal (Bar W) Bool := fun bar =>
  if (search r text).isSome then some (.ok true, { bar with matchData := none }) else some (.ok false, bar)

/-- The last file loses its highlight and its expansion, if it is listed. -/
def unmarkLast (sb : Speedbar W) (last : List Char) : Command Signal (Bar W) Unit := do
  if ← sb.findSelectedFile last then
    putFace .file
    sb.contractLine

/-- The current file gets the highlight: whether it has been found is not asked. -/
def markCurrent (sb : Speedbar W) (current : List Char) : Command Signal (Bar W) Unit := do
  let _ ← sb.findSelectedFile current
  putFace .currentBuffer

/-- However the command exits, the current buffer is restored. -/
def saveCurrentBuffer (c : Command Signal (Bar W) Unit) : Command Signal (Bar W) Unit := fun bar =>
  match c bar with
  | none => none
  | some (r, bar') => some (r, { bar' with currentBuffer := bar.currentBuffer })

/-- `scroll-speedbar-buffer-up`: if no window shows the speedbar, `select-window` refuses nil. -/
def scrollSpeedbarBufferUp (sb : Speedbar W) (num : Nat) : Command Signal (Bar W) Unit :=
  saveCurrentBuffer do
    match ← gets fun bar => sb.getBufferWindow bar.world with
    | some window => sb.scrollUp window num
    | none => signal .wrongTypeArgument

/-- The current file is expanded, if it is a source file, and scrolled into view. -/
def showCurrent (sb : Speedbar W) (table : CaseTable) (current : List Char) : Command Signal (Bar W) Unit := do
  let l1 ← gets sb.lineNumberAtPos
  if ← stringMatch (expandedRegexp table.canon) current then
    sb.expandLine
  if l1 < 20 then
    scrollSpeedbarBufferUp sb 0
  else
    scrollSpeedbarBufferUp sb (l1 - 20)

/-- An operation of the speedbar, in the state of the tick. -/
def onBar {α : Type} (c : Command Signal (Bar W) α) : Command Signal (SrState W) α := fun s =>
  match c s.bar with
  | none => none
  | some (r, bar) => some (r, { s with bar := bar })

/-- The directory has changed. -/
def directoryChanged (sb : Speedbar W) (table : CaseTable) (t : Tick) : Command Signal (SrState W) Unit := do
  update fun s => { s with lastRefreshDictionary := some t.defaultDirectory }
  onBar (sb.refresh t.defaultDirectory)
  match ← gets SrState.lastBufferFilename with
  | some last => onBar (unmarkLast sb last)
  | none => pure ()
  match t.bufferFileName with
  | some current =>
    update fun s => { s with lastBufferFilename := some current }
    onBar (markCurrent sb current)
    onBar (showCurrent sb table current)
  | none => update fun s => { s with lastBufferFilename := some s.bar.currentBuffer }

/-- Another file in the same directory.  `speedbar-find-selected-file` refuses a last file name that is nil. -/
def fileChanged (sb : Speedbar W) (table : CaseTable) (current : List Char) : Command Signal (SrState W) Unit := do
  match ← gets SrState.lastBufferFilename with
  | some last => onBar (unmarkLast sb last)
  | none => signal .wrongTypeArgument
  onBar (markCurrent sb current)
  update fun s => { s with lastBufferFilename := some current }
  onBar (showCurrent sb table current)

/-- The tick takes the path for a changed directory. -/
def Tick.ChangesDirectory (t : Tick) (s : SrState W) : Prop :=
  some t.defaultDirectory ≠ s.lastRefreshDictionary ∧ t.speedbarWindow = false

instance (t : Tick) (s : SrState W) : Decidable (t.ChangesDirectory s) := inferInstanceAs (Decidable (_ ∧ _))

def srSpeedbarRefresh (sb : Speedbar W) (table : CaseTable) (t : Tick) : Command Signal (SrState W) Unit := fun s =>
  if t.ChangesDirectory s then
    directoryChanged sb table t s
  else
    match t.bufferFileName with
    | some current =>
      if s.lastBufferFilename ≠ some current ∧ t.speedbarWindow = false then fileChanged sb table current s
      else some (.ok (), s)
    | none => some (.ok (), s)

/-- The tick is made in its buffer. -/
def tick (sb : Speedbar W) (table : CaseTable) (t : Tick) : Command Signal (SrState W) Unit := do
  update fun s => { s with bar := { s.bar with currentBuffer := t.bufferName } }
  srSpeedbarRefresh sb table t

end Operations

end EmacsDir
