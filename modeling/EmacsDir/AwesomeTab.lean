import Mathlib.Data.List.Sort
import EmacsDir.FileName
import EmacsDir.Obarray
import EmacsDir.Tabset

/-!
# The tab bar

The store of tab sets of `awesome-tab.el` and the commands on it.  What the package asks of Emacs is an `Editor`: the
buffers with their names, files and groups, the current buffer, and the decision to hide a buffer.  Between two commands
the editor may change at will.

Every command first brings the tab sets up to date (`bufferUpdateGroups`): a list of entries for the buffers to show is
compared with that of the last time, and only if they differ the tab sets are changed.
-/

namespace EmacsDir

open Command

namespace AwesomeTab

variable {B : Type} [DecidableEq B]

/-- What the tab bar asks of Emacs.  `hideTab` is `awesome-tab-hide-tab-function`, `bufferGroups` is
`awesome-tab-buffer-groups-function`, called in the buffer, and `overflows` says whether labels take more than one line
of the window.  Live buffers have distinct names. -/
structure Editor (B : Type) where
  bufferList : List B
  currentBuffer : B
  bufferName : B → List Char
  bufferFileName : B → Option (List Char)
  bufferGroups : B → List (List Char)
  hideTab : B → Bool
  overflows : List (TabLabel B) → Bool
  bufferList_nodup : bufferList.Nodup
  bufferName_inj : ∀ b ∈ bufferList, ∀ c ∈ bufferList, bufferName b = bufferName c → b = c

/-- An element of `awesome-tab--buffers`. -/
structure Entry (B : Type) where
  buffer : B
  name : List Char
  groups : List (List Char)
  deriving DecidableEq

/-- The errors that the commands signal. -/
inductive TabSignal
  | error (message : String)
  | wrongTypeArgument
  deriving DecidableEq, Repr

/-- The variables of the package: `awesome-tab-tabsets`, `awesome-tab--buffers`, `awesome-tab-hide-hash`,
`awesome-tab--track-selected` and the option `awesome-tab-auto-scroll-flag`. -/
structure TabBar (B : Type) where
  tabsets : Obarray (Tabset.name (B := B))
  buffers : List (Entry B)
  hideHash : B → Option Bool
  trackSelected : Bool
  autoScrollFlag : Bool

/-- After `awesome-tab-mode` has been turned on. -/
def start (autoScrollFlag : Bool) : TabBar B where
  tabsets := Obarray.empty
  buffers := []
  hideHash _ := none
  trackSelected := false
  autoScrollFlag := autoScrollFlag

/-! ### The buffers to show -/

/-- The decision of `awesome-tab-hide-tab-cached`: the first one stays. -/
def hidden (ed : Editor B) (tb : TabBar B) (b : B) : Bool := (tb.hideHash b).getD (ed.hideTab b)

/-- `awesome-tab-hide-tab-cached` puts the decision into the hash table. -/
def hideTabCached (ed : Editor B) (b : B) (tb : TabBar B) : TabBar B :=
  { tb with hideHash := fun c => if c = b then some (hidden ed tb b) else tb.hideHash c }

/-- The test of `awesome-tab-buffer-list`, for a live buffer. -/
def listed (ed : Editor B) (b : B) : Bool :=
  b = ed.currentBuffer || (ed.bufferFileName b).isSome || (ed.bufferName b).head? != some ' '

/-- `awesome-tab-buffer-list` -/
def tabBufferList (ed : Editor B) (tb : TabBar B) : List B :=
  (ed.bufferList.filter (listed ed)).filter fun b => !hidden ed tb b

/-- `string-lessp` -/
def stringLessp : List Char → List Char → Bool
  | _, [] => false
  | [], _ :: _ => true
  | a :: s, b :: t => a.toNat < b.toNat || (a = b && stringLessp s t)

/-- The entries, sorted by name. -/
def entries (ed : Editor B) (tb : TabBar B) : List (Entry B) :=
  ((tabBufferList ed tb).map fun b => Entry.mk b (ed.bufferName b) (ed.bufferGroups b)).insertionSort
    fun e1 e2 => stringLessp e2.name e1.name = false

/-! ### Bringing the tab sets up to date -/

/-- `assq` in the entries. -/
def entryOf (bl : List (Entry B)) (b : B) : Option (Entry B) := bl.find? fun e => e.buffer = b

/-- An entry in one of its groups: a new buffer, or one that has been renamed or moved, gets its tab. -/
def addToGroup (bucket : List Char → Nat) (cache : List (Entry B)) (e : Entry B) (ob : Obarray (Tabset.name (B := B)))
    (g : List Char) : Obarray (Tabset.name (B := B)) :=
  match ob.find? g with
  | some tabset =>
    if entryOf cache e.buffer = some e then ob
    else ob.set ((tabset.addTab e.buffer).setTemplate none)
  | none => ob.intern bucket (Tabset.make g [e.buffer])

/-- An entry in all its groups. -/
def addEntry (bucket : List Char → Nat) (cache : List (Entry B)) (ob : Obarray (Tabset.name (B := B))) (e : Entry B) :
    Obarray (Tabset.name (B := B)) :=
  e.groups.foldl (addToGroup bucket cache e) ob

/-- A tab stays if its buffer has an entry in the group. -/
def staysIn (bl : List (Entry B)) (g : List Char) (b : B) : Bool :=
  match entryOf bl b with
  | some e => e.groups.contains g
  | none => false

/-- A tab is deleted from the tab set of a group unless its buffer stays in the group. -/
def sweepTab (bl : List (Entry B)) (g : List Char) (acc : Tabset B × Bool) (tab : Tab B) : Tabset B × Bool :=
  if staysIn bl g tab.value then acc
  else ((acc.1.deleteTab tab).1, acc.2 || (acc.1.deleteTab tab).2)

/-- The other tabs of a tab set are deleted. -/
def sweep (bl : List (Entry B)) (ts : Tabset B) : Tabset B × Bool :=
  ts.tabs.foldl (sweepTab bl ts.name) (ts, false)

theorem sweepTab_stays {bl : List (Entry B)} {g : List Char} {acc : Tabset B × Bool} {tab : Tab B}
    (h : staysIn bl g tab.value = true) : sweepTab bl g acc tab = acc := if_pos h

theorem sweepTab_goes {bl : List (Entry B)} {g : List Char} {acc : Tabset B × Bool} {tab : Tab B}
    (h : ¬ staysIn bl g tab.value = true) :
    sweepTab bl g acc tab = ((acc.1.deleteTab tab).1, acc.2 || (acc.1.deleteTab tab).2) := if_neg h

theorem name_sweepTab (bl : List (Entry B)) (g : List Char) (acc : Tabset B × Bool) (tab : Tab B) :
    (sweepTab bl g acc tab).1.name = acc.1.name := by
  unfold sweepTab
  split
  · rfl
  · exact Tabset.name_deleteTab tab acc.1

theorem name_sweepFrom (bl : List (Entry B)) (g : List Char) (tabs : List (Tab B)) (acc : Tabset B × Bool) :
    (tabs.foldl (sweepTab bl g) acc).1.name = acc.1.name := by
  induction tabs generalizing acc with
  | nil => rfl
  | cons tab tabs ih => rw [List.foldl_cons, ih, name_sweepTab]

theorem name_sweep (bl : List (Entry B)) (ts : Tabset B) : (sweep bl ts).1.name = ts.name :=
  name_sweepFrom bl ts.name ts.tabs (ts, false)

/-- The tab sets that have become empty leave the store. -/
def removeEmpty (ob : Obarray (Tabset.name (B := B))) : Obarray (Tabset.name (B := B)) :=
  (ob.atoms.filter fun ts => ts.tabs.isEmpty).foldl (fun ob ts => ob.unintern ts.name) ob

/-- The change of the tab sets when the entries have changed. -/
def updateTabsets (bucket : List Char → Nat) (bl : List (Entry B)) (tb : TabBar B) : TabBar B :=
  let added := bl.foldl (addEntry bucket tb.buffers) tb.tabsets
  let moved := added.atoms.any fun ts => (sweep bl ts).2
  { tb with
    tabsets := removeEmpty (added.mapAtoms (fun ts => (sweep bl ts).1) (name_sweep bl))
    buffers := bl
    trackSelected := if moved then tb.autoScrollFlag else tb.trackSelected }

/-- `awesome-tab-buffer-update-groups`, which returns the first group of the current buffer. -/
def bufferUpdateGroups (bucket : List Char → Nat) (ed : Editor B) (tb : TabBar B) : TabBar B × Option (List Char) :=
  let bl := entries ed tb
  let tb' := (ed.bufferList.filter (listed ed)).foldl (fun tb b => hideTabCached ed b tb) tb
  let tb'' := if bl = tb.buffers then tb' else updateTabsets bucket bl tb'
  (tb'', (entryOf tb''.buffers ed.currentBuffer).bind fun e => e.groups.head?)

/-- `awesome-tab-buffer-tabs`: the tab set of the current buffer, whose tab is selected. -/
def bufferTabs (bucket : List Char → Nat) (ed : Editor B) (tb : TabBar B) : TabBar B × Option (Tabset B) :=
  let (tb, group) := bufferUpdateGroups bucket ed tb
  match group.bind fun g => tb.tabsets.find? g with
  | some ts =>
    let (ts', moved) := ts.selectTab (ts.getTab ed.currentBuffer)
    ({ tb with
        tabsets := tb.tabsets.set ts'
        trackSelected := if moved then tb.autoScrollFlag else tb.trackSelected }, some ts')
  | none => (tb, none)

/-- `(awesome-tab-current-tabset t)` -/
def currentTabset (bucket : List Char → Nat) (ed : Editor B) : Command TabSignal (TabBar B) (Option (Tabset B)) :=
  fun tb => some (.ok (bufferTabs bucket ed tb).2, (bufferTabs bucket ed tb).1)

end AwesomeTab

end EmacsDir
