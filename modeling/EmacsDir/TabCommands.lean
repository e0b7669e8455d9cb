import EmacsDir.TabGroups

/-!
# The commands of the tab bar

The commands of `awesome-tab.el` that select and move tabs, and the header line.  Each of them works on the tab set of
the current buffer, after this has been brought up to date.  A command that selects a tab returns the buffer to which it
switches; the tab becomes the selected one when the next command finds its buffer current.
-/

namespace EmacsDir

open Command

namespace AwesomeTab

variable {B : Type} [DecidableEq B]

/-! ### Cyclic navigation -/

/-- `awesome-tab-cycle-scope`; `all` is the default, tabs and then groups. -/
inductive Scope
  | tabs
  | groups
  | all
  deriving DecidableEq, Repr

section Next

variable {α : Type} [DecidableEq α]

/-- The loop of `awesome-tab-tab-next`, with the tab before the rest of the list. -/
def tabNextFrom (tab : α) (before : Bool) : Option α → List α → Option α
  | _, [] => none
  | last, t :: tabs =>
    if t = tab then (if before then last else tabs.head?) else tabNextFrom tab before (some t) tabs

/-- `awesome-tab-tab-next` -/
def tabNext (tabs : List α) (tab : α) (before : Bool) : Option α := tabNextFrom tab before none tabs

/-- The last or the first tab. -/
def endTab (tabs : List α) (backward : Bool) : Option α := if backward then tabs.getLast? else tabs.head?

end Next

/-- `awesome-tab-get-tabsets-tabset`: the selected tabs of the tab sets, pushed in the order of `mapatoms`.  Every tab set
of the store has a selected tab. -/
def getTabsetsTabset (tb : TabBar B) : List (Tab B) := tb.tabsets.atoms.reverse.filterMap Tabset.select

/-- The tab that `awesome-tab-cycle` selects. -/
def cycleTab (backward : Bool) (scope : Scope) (tb : TabBar B) (tabset : Tabset B) : Option (Tab B) :=
  let ttabset := getTabsetsTabset tb
  let scope := if scope = .groups ∧ ttabset.length ≤ 1 then .tabs else scope
  let nextIn (tabs : List (Tab B)) : Option (Tab B) := tabset.select.bind fun selected => tabNext tabs selected backward
  match scope with
  | .tabs => (nextIn tabset.tabs).or (endTab tabset.tabs backward)
  | .groups => (nextIn ttabset).or (endTab ttabset backward)
  | .all =>
    match nextIn tabset.tabs with
    | some tab => some tab
    | none =>
      ((nextIn ttabset).or (endTab ttabset backward)).bind fun tab =>
        (tb.tabsets.find? tab.tabset).bind fun ts => endTab ts.tabs backward

/-- `awesome-tab-cycle` -/
def cycle (bucket : List Char → Nat) (ed : Editor B) (backward : Bool) (scope : Scope) :
    Command TabSignal (TabBar B) (Option B) := do
  match ← currentTabset bucket ed with
  | some tabset =>
    let tab ← gets fun tb => cycleTab backward scope tb tabset
    pure (tab.map Tab.value)
  | none => pure none

/-- `awesome-tab-select-beg-tab` -/
def selectBegTab (bucket : List Char → Nat) (ed : Editor B) (backward : Bool) :
    Command TabSignal (TabBar B) (Option B) := do
  match ← currentTabset bucket ed with
  | some tabset => pure ((endTab tabset.tabs backward).map Tab.value)
  | none => pure none

/-! ### Moving tabs -/

section Moves

variable {α : Type}

/-- The loop of `awesome-tab-move-current-tab-to-right`, with the tabs that it has pushed. -/
def moveRightFrom (current : α → Bool) : List α → List α → Option (List α)
  | _, [] => none
  | newBufs, x :: oldBufs =>
    if current x then
      match oldBufs with
      | [] => some (x :: newBufs).reverse
      | y :: oldBufs => some ((x :: y :: newBufs).reverse ++ oldBufs)
    else moveRightFrom current (x :: newBufs) oldBufs

/-- The loop of `awesome-tab-move-current-tab-to-left`, which holds back one tab. -/
def moveLeftFrom (current : α → Bool) : List α → α → List α → Option (List α)
  | _, _, [] => none
  | newBufs, notYet, x :: oldBufs =>
    if current x then some ((notYet :: x :: newBufs).reverse ++ oldBufs)
    else moveLeftFrom current (notYet :: newBufs) x oldBufs

end Moves

def notFound : TabSignal := .error "Error: current buffer's name was not found in Awesome-Tab's buffer list."

/-- The tab of the current buffer, by name. -/
def isCurrent (ed : Editor B) (tab : Tab B) : Bool := ed.bufferName ed.currentBuffer = ed.bufferName tab.value

/-- `(set bufset new-bufs)`, and the header line is drawn again. -/
def setTabs (bufset : Tabset B) (tabs : List (Tab B)) : Command TabSignal (TabBar B) Unit :=
  update fun tb => { tb with tabsets := tb.tabsets.set { bufset.setTemplate none with tabs := tabs } }

/-- `awesome-tab-move-current-tab-to-right` -/
def moveCurrentTabToRight (bucket : List Char → Nat) (ed : Editor B) : Command TabSignal (TabBar B) Unit := do
  match ← currentTabset bucket ed with
  | none => signal notFound
  | some bufset =>
    match moveRightFrom (isCurrent ed) [] bufset.tabs with
    | some newBufs => setTabs bufset newBufs
    | none => signal notFound

/-- `awesome-tab-move-current-tab-to-left`; without tabs the name of the first buffer is that of nil. -/
def moveCurrentTabToLeft (bucket : List Char → Nat) (ed : Editor B) : Command TabSignal (TabBar B) Unit := do
  let noTabs : Command TabSignal (TabBar B) Unit :=
    if ed.bufferName ed.currentBuffer = ['n', 'i', 'l'] then pure () else signal notFound
  match ← currentTabset bucket ed with
  | none => noTabs
  | some bufset =>
    match bufset.tabs with
    | [] => noTabs
    | firstBuf :: oldBufs =>
      if isCurrent ed firstBuf then pure ()
      else
        match moveLeftFrom (isCurrent ed) [] firstBuf oldBufs with
        | some newBufs => setTabs bufset newBufs
        | none => signal notFound

/-- `awesome-tab-move-current-tab-to-beg`; there is no element at the position nil. -/
def moveCurrentTabToBeg (bucket : List Char → Nat) (ed : Editor B) : Command TabSignal (TabBar B) Unit := do
  match ← currentTabset bucket ed with
  | none => signal .wrongTypeArgument
  | some bufset =>
    match bufset.tabs.find? fun tab => tab.value = ed.currentBuffer with
    | some currentTab => setTabs bufset (currentTab :: bufset.tabs.filter (· ≠ currentTab))
    | none => signal .wrongTypeArgument

/-! ### The header line -/

/-- `awesome-tab-line-tab` -/
def lineTab (ed : Editor B) (ts : Tabset B) (tab : Tab B) : TabLabel B :=
  ⟨tab, ed.bufferName tab.value, ts.select = some tab⟩

/-- The tabs up to the selected one, and the others. -/
def throughSelected (sel : Option (Tab B)) : List (Tab B) → List (Tab B) × List (Tab B)
  | [] => ([], [])
  | tab :: tabs =>
    if some tab = sel then ([tab], tabs)
    else (tab :: (throughSelected sel tabs).1, (throughSelected sel tabs).2)

/-- `awesome-tab-line-format`; `n` bounds the loops. -/
def lineFormat (ed : Editor B) (track : Bool) (n : Nat) : Command TabSignal (Tabset B) Unit := do
  if track then
    -- scroll to the left until the selected tab is among the visible ones
    whileLoop (fun _ => gets fun ts => !(ts.view.any fun tab => ts.select = some tab))
      (fun _ => update (Tabset.scroll (-1))) n ()
    let ts ← gets id
    let (shown, rest) := throughSelected ts.select ts.view
    -- then to the right until it is on the first line
    let elts ← whileLoop (fun elts : List (TabLabel B) => pure (decide (1 < elts.length) && ed.overflows elts))
      (fun elts => do
        update (Tabset.scroll 1)
        pure elts.tail) n (shown.map (lineTab ed ts))
    update (Tabset.setTemplate (some (elts ++ rest.map (lineTab ed ts))))
  else
    update fun ts => ts.setTemplate (some (ts.view.map (lineTab ed ts)))

/-- The cached header line of a tab set, or a new one. -/
def tabsetLine (n : Nat) (ed : Editor B) :
    Option (Tabset B) → Command TabSignal (TabBar B) (Option (List (TabLabel B)))
  | none => pure none
  | some ts =>
    match ts.template with
    | some labels => pure (some labels)
    | none => fun tb =>
      match lineFormat ed tb.trackSelected n ts with
      | none => none
      | some (.error e, ts') => some (.error e, { tb with tabsets := tb.tabsets.set ts' })
      | some (.ok (), ts') => some (.ok ts'.template, { tb with tabsets := tb.tabsets.set ts', trackSelected := false })

/-- `awesome-tab-line`; the bar is not shown for a hidden buffer. -/
def line (bucket : List Char → Nat) (n : Nat) (ed : Editor B) :
    Command TabSignal (TabBar B) (Option (List (TabLabel B))) := do
  let hide ← gets fun tb => hidden ed tb ed.currentBuffer
  update (hideTabCached ed ed.currentBuffer)
  if hide then pure none
  else currentTabset bucket ed >>= tabsetLine n ed

/-- `awesome-tab-refresh-display` -/
def refreshDisplay : Command TabSignal (TabBar B) Unit :=
  update fun tb => { tb with tabsets := tb.tabsets.mapAtoms (Tabset.setTemplate none) (Tabset.name_setTemplate none) }

/-! ### Runs -/

/-- What can be done with the tab bar. -/
inductive Action
  | line
  | cycle (backward : Bool) (scope : Scope)
  | selectBegTab (backward : Bool)
  | moveToRight
  | moveToLeft
  | moveToBeg
  | refreshDisplay

/-- An action in an editor. -/
def perform (bucket : List Char → Nat) (n : Nat) (ed : Editor B) : Action → Command TabSignal (TabBar B) Unit
  | .line => line bucket n ed >>= fun _ => pure ()
  | .cycle backward scope => cycle bucket ed backward scope >>= fun _ => pure ()
  | .selectBegTab backward => selectBegTab bucket ed backward >>= fun _ => pure ()
  | .moveToRight => moveCurrentTabToRight bucket ed
  | .moveToLeft => moveCurrentTabToLeft bucket ed
  | .moveToBeg => moveCurrentTabToBeg bucket ed
  | .refreshDisplay => refreshDisplay

end AwesomeTab

end EmacsDir
