import EmacsDir.Command

/-!
# The window of the speedbar

The commands of `sr-speedbar.el` that open and close the speedbar, its advice on the window commands, and the variables
and hooks that they set.  Of a window it matters whether it shows the speedbar, whether it is dedicated, and its width.
How Emacs shares the width of a window that is split or deleted is a parameter (`Emacs`).  The listing in the speedbar is
left to the timer.
-/

namespace EmacsDir

open Command

namespace SrSpeedbar

/-- A window of the frame.  `speedbar` says whether its buffer has the name `sr-speedbar-buffer-name`. -/
structure Window where
  id : Nat
  speedbar : Bool
  dedicated : Bool
  width : Nat
  deriving DecidableEq, Repr

/-- The options of the package. -/
structure Options where
  defaultWidth : Nat
  maxWidth : Nat
  rightSide : Bool
  deleteWindows : Bool
  skipOtherWindow : Bool

/-- The window system: the widths of a window and of the new one to its right when it is split, if there is room; the
widths of the windows that remain when others have been deleted; and the window that is selected when the selected one
has been deleted.  A positive size is the width of the window that is split. -/
structure Emacs where
  split : Nat → Int → Option (Nat × Nat)
  split_eq : ∀ width size p, 0 < size → split width size = some p → p = (size.toNat, (width - size).toNat)
  reflow : List Window → Nat → Nat
  next : List Window → Nat
  next_mem : ∀ ws, ws ≠ [] → ∃ w ∈ ws, w.id = next ws

/-- The hooks that the package uses. -/
inductive Hook
  | beforeVisitingFile
  | beforeVisitingTag
  | visitingFile
  | visitingTag
  | killBuffer
  | timer
  deriving DecidableEq, Repr

/-- The hooks for visits. -/
def Hook.visits : Hook → Bool
  | .killBuffer => false
  | .timer => false
  | _ => true

/-- The frame, and the variables of the package.  `bufferLive` says whether there is a buffer named
`sr-speedbar-buffer-name`, and `speedbarBuffer` whether `speedbar-buffer` has been set to it; `speedbarFrame` stands for
`speedbar-frame` and `dframe-attached-frame`.  Windows get their numbers from `nextId`. -/
structure State where
  windows : List Window
  selectedWindow : Nat
  nextId : Nat
  bufferLive : Bool
  speedbarBuffer : Bool
  speedbarFrame : Bool
  timer : Bool
  hooks : Hook → Bool
  srSpeedbarWindow : Option Nat
  srSpeedbarWidth : Nat
  autoRefresh : Bool
  otherWindowAdvice : Bool

/-- The errors of the window commands. -/
inductive WindowSignal
  | tooSmall
  | soleWindow
  | notLive
  | dedicated
  deriving DecidableEq, Repr

/-! ### The predicates -/

/-- `window-live-p` -/
def State.live (s : State) (id : Nat) : Bool := s.windows.any fun w => w.id = id

/-- `sr-speedbar-window-exist-p` -/
def windowExistP (s : State) (window : Option Nat) : Bool := window.any s.live

/-- `sr-speedbar-buffer-exist-p`, for `speedbar-buffer` -/
def bufferExistP (s : State) : Bool := s.speedbarBuffer && s.bufferLive

/-- `sr-speedbar-exist-p` -/
def existP (s : State) : Bool := bufferExistP s && windowExistP s s.srSpeedbarWindow

/-- The selected window. -/
def State.current (s : State) : Option Window := s.windows.find? fun w => w.id = s.selectedWindow

/-- `sr-speedbar-window-p` -/
def windowP (s : State) : Bool := s.current.any Window.speedbar

/-- `sr-speedbar-current-window-take-width` -/
def currentWindowTakeWidth (s : State) : Nat := (s.current.map Window.width).getD 0

/-! ### The window commands -/

/-- `sr-speedbar-remember-window-width` -/
def rememberWindowWidth (o : Options) : Command WindowSignal State Unit :=
  update fun s =>
    if windowP s ∧ 1 < currentWindowTakeWidth s ∧ currentWindowTakeWidth s ≤ o.maxWidth then
      { s with srSpeedbarWidth := currentWindowTakeWidth s }
    else s

/-- The other windows share the width. -/
def reflow (em : Emacs) (ws : List Window) : List Window := ws.map fun w => { w with width := em.reflow ws w.id }

/-- `delete-window`, with the advice that remembers the width of the speedbar. -/
def deleteWindow (o : Options) (em : Emacs) (id : Nat) : Command WindowSignal State Unit := do
  rememberWindowWidth o
  when (← gets fun s => !s.live id) (signal .notLive)
  when (← gets fun s => decide (s.windows.length ≤ 1)) (signal .soleWindow)
  update fun s =>
    let ws := s.windows.filter fun w => w.id ≠ id
    { s with
      windows := reflow em ws
      selectedWindow := if s.selectedWindow = id then em.next ws else s.selectedWindow }

/-- The loop of the advice on `delete-other-windows`. -/
def deleteOthers (o : Options) (em : Emacs) (currentWindow : Nat) : List Window → Command WindowSignal State Unit
  | [] => pure ()
  | win :: ws => do
    when (← gets fun s => s.live win.id && win.id ≠ currentWindow && !win.dedicated) (deleteWindow o em win.id)
    deleteOthers o em currentWindow ws

/-- `delete-other-windows`, with the advice that keeps the speedbar. -/
def deleteOtherWindows (o : Options) (em : Emacs) : Command WindowSignal State Unit := do
  if ← gets fun s => windowExistP s s.srSpeedbarWindow then
    let currentWindow ← gets State.selectedWindow
    deleteOthers o em currentWindow (← gets State.windows)
  else
    update fun s => { s with windows := reflow em (s.windows.filter fun w => w.id = s.selectedWindow) }

/-- `select-window` -/
def selectWindow (id : Nat) : Command WindowSignal State Unit := do
  if ← gets fun s => s.live id then update fun s => { s with selectedWindow := id }
  else signal .notLive

/-- The window that is `count` places after the selected one, in the cyclic order. -/
def State.nextWindow (s : State) (count : Int) : Nat :=
  let i := s.windows.findIdx fun w => w.id = s.selectedWindow
  match s.windows[((i + count) % s.windows.length).toNat]? with
  | some w => w.id
  | none => s.selectedWindow

/-- `other-window`, with the advice that skips the speedbar, and a bound on the depth of the calls. -/
def otherWindow (count : Int) : Nat → Command WindowSignal State Unit
  | 0 => fun _ => none
  | n + 1 => do
    update fun s => { s with selectedWindow := s.nextWindow count }
    when (← gets fun s => s.otherWindowAdvice && windowExistP s s.srSpeedbarWindow &&
      decide (s.srSpeedbarWindow = some s.selectedWindow)) (otherWindow count n)

/-! ### Opening and closing -/

/-- `sr-speedbar-handle-other-window-advice` -/
def handleOtherWindowAdvice (activate : Bool) : Command WindowSignal State Unit :=
  update fun s => { s with otherWindowAdvice := activate }

/-- `sr-speedbar-handle-auto-refresh` -/
def handleAutoRefresh (activate : Bool) : Command WindowSignal State Unit :=
  update fun s => { s with hooks := fun h => if h = .timer then activate else s.hooks h }

/-- A window comes in after the one with this number. -/
def insertAfter (id : Nat) (new : Window) : List Window → List Window
  | [] => []
  | w :: ws => if w.id = id then w :: new :: ws else w :: insertAfter id new ws

/-- The selected window gets a new width, and the new window comes in to its right with the same buffer. -/
def State.splitSelected (s : State) (left right : Nat) : State :=
  { s with
    windows := insertAfter s.selectedWindow ⟨s.nextId, windowP s, false, right⟩
      (s.windows.map fun w => if w.id = s.selectedWindow then { w with width := left } else w)
    nextId := s.nextId + 1 }

/-- `sr-speedbar-get-window` -/
def getWindow (o : Options) (em : Emacs) : Command WindowSignal State Unit := fun s =>
  let size : Int := if o.rightSide then (currentWindowTakeWidth s : Int) - s.srSpeedbarWidth else s.srSpeedbarWidth
  match em.split (currentWindowTakeWidth s) size with
  | none => signal .tooSmall s
  | some (left, right) =>
    update (fun s =>
      { s.splitSelected left right with
        srSpeedbarWindow := some (if o.rightSide then s.nextId else s.selectedWindow) }) s

/-- The buffer of the speedbar, with its timer and its hooks. -/
def makeBuffer : Command WindowSignal State Unit := do
  update fun s =>
    { s with
      bufferLive := true
      speedbarBuffer := true
      speedbarFrame := true
      timer := true
      hooks := fun h => h.visits || h = .killBuffer || s.hooks h }
  handleAutoRefresh (← gets State.autoRefresh)

/-- `(set-window-buffer sr-speedbar-window (get-buffer sr-speedbar-buffer-name))`, and the window is dedicated. -/
def showSpeedbar : Command WindowSignal State Unit := do
  when (← gets fun s => s.windows.any fun w => some w.id = s.srSpeedbarWindow && w.dedicated && !w.speedbar)
    (signal .dedicated)
  update fun s =>
    { s with
      windows := s.windows.map fun w =>
        if some w.id = s.srSpeedbarWindow then { w with speedbar := true, dedicated := true } else w }

/-- The window for the speedbar, and its buffer, as far as they do not exist. -/
def makeWindow (o : Options) (em : Emacs) : Command WindowSignal State Unit := do
  if ← gets bufferExistP then
    when (← gets fun s => !windowExistP s s.srSpeedbarWindow) (getWindow o em)
  else
    when (← gets fun s => decide (currentWindowTakeWidth s ≤ s.srSpeedbarWidth))
      (update fun s => { s with srSpeedbarWidth := o.defaultWidth })
    getWindow o em
    makeBuffer

/-- `sr-speedbar-open` -/
def srSpeedbarOpen (o : Options) (em : Emacs) : Command WindowSignal State Unit := do
  if ← gets existP then pure ()
  else
    let currentWindow ← gets State.selectedWindow
    when o.deleteWindows (deleteOtherWindows o em)
    handleOtherWindowAdvice o.skipOtherWindow
    makeWindow o em
    showSpeedbar
    selectWindow currentWindow

/-- `sr-speedbar-select-window` -/
def srSpeedbarSelectWindow : Command WindowSignal State Unit := do
  if ← gets existP then
    match ← gets State.srSpeedbarWindow with
    | some id => selectWindow id
    | none => pure ()

/-- `(delete-window sr-speedbar-window)` -/
def deleteSpeedbarWindow (o : Options) (em : Emacs) : Command WindowSignal State Unit := do
  match ← gets State.srSpeedbarWindow with
  | some id => deleteWindow o em id
  | none => pure ()

/-- `sr-speedbar-close` -/
def srSpeedbarClose (o : Options) (em : Emacs) : Command WindowSignal State Unit := do
  if ← gets existP then
    let currentWindow ← gets State.selectedWindow
    srSpeedbarSelectWindow
    rememberWindowWidth o
    deleteSpeedbarWindow o em
    when (← gets fun s => windowExistP s (some currentWindow)) (selectWindow currentWindow)

/-- `sr-speedbar-toggle` -/
def srSpeedbarToggle (o : Options) (em : Emacs) : Command WindowSignal State Unit := do
  if ← gets existP then srSpeedbarClose o em else srSpeedbarOpen o em

/-! ### Refreshing -/

/-- `sr-speedbar-refresh-turn-on` and `sr-speedbar-refresh-turn-off` -/
def refreshTurn (activate : Bool) : Command WindowSignal State Unit := do
  update fun s => { s with autoRefresh := activate }
  handleAutoRefresh (← gets State.autoRefresh)

/-- `sr-speedbar-refresh-toggle` -/
def refreshToggle : Command WindowSignal State Unit := do
  update fun s => { s with autoRefresh := !s.autoRefresh }
  handleAutoRefresh (← gets State.autoRefresh)

/-! ### Killing the buffer -/

/-- `sr-speedbar-kill-buffer-hook`, in the buffer of the speedbar -/
def killBufferHook : Command WindowSignal State Unit := do
  when (← gets State.speedbarBuffer)
    (update fun s =>
      { s with
        speedbarFrame := false
        speedbarBuffer := false
        timer := false
        hooks := fun h => !h.visits && s.hooks h })

/-- A window of a buffer that is killed is deleted if it is dedicated and not the sole one, and otherwise it shows
another buffer. -/
def leaveWindow (o : Options) (em : Emacs) (win : Window) : Command WindowSignal State Unit := do
  if ← gets fun s => win.dedicated && decide (1 < s.windows.length) then deleteWindow o em win.id
  else
    update fun s =>
      { s with
        windows := s.windows.map fun w => if w.id = win.id then { w with speedbar := false, dedicated := false } else w }

/-- The windows of the buffer of the speedbar, when it is killed. -/
def leaveBuffer (o : Options) (em : Emacs) : List Window → Command WindowSignal State Unit
  | [] => pure ()
  | win :: ws => do
    when win.speedbar (leaveWindow o em win)
    leaveBuffer o em ws

/-- The buffer of the speedbar is killed. -/
def killSpeedbar (o : Options) (em : Emacs) : Command WindowSignal State Unit := do
  if ← gets State.bufferLive then
    when (← gets fun s => s.hooks .killBuffer) killBufferHook
    leaveBuffer o em (← gets State.windows)
    update fun s => { s with bufferLive := false }

end SrSpeedbar

end EmacsDir
