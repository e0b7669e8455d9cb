import EmacsDir.Buffer
import EmacsDir.Focus

/-!
# Tab sets

The tabs of one group of buffers in `awesome-tab.el`.  A tab is a pair of a buffer and its tab set, and the properties of
a tab set are the selected tab, the first visible tab and the cached header line.  Buffers are objects that can be told
apart, and within a tab set so can their tabs.

A tab set shows a focus (`Tabset.Shows`): its tabs are those of the listed buffers, and the buffer in focus is selected.
-/

namespace EmacsDir

open Command

/-- A tab: a buffer and the name of its tab set. -/
structure Tab (B : Type) where
  value : B
  tabset : List Char
  deriving DecidableEq

/-- What the label of a tab depends on. -/
structure TabLabel (B : Type) where
  tab : Tab B
  name : List Char
  active : Bool

/-- A tab set: its value, and its properties. -/
structure Tabset (B : Type) where
  name : List Char
  tabs : List (Tab B)
  select : Option (Tab B)
  start : Int
  template : Option (List (TabLabel B))

section Insert

variable {α : Type}

/-- `awesome-tab-insert-at` -/
def insertAt (x : α) : List α → Option Nat → List α
  | a :: l, some 0 => a :: x :: l
  | a :: l, some (n + 1) => a :: insertAt x l (some n)
  | [], _ => []
  | l, none => l

theorem insertAt_append (x a : α) (u v : List α) : insertAt x (u ++ a :: v) (some u.length) = u ++ a :: x :: v := by
  induction u with
  | nil => rfl
  | cons b u ih =>
    show b :: insertAt x (u ++ a :: v) (some u.length) = _
    rw [ih]
    rfl

theorem idxOf?_append_cons [DecidableEq α] {x : α} {u v : List α} (h : x ∉ u) :
    (u ++ x :: v).idxOf? x = some u.length := by
  induction u with
  | nil => simp [List.idxOf?_cons]
  | cons a u ih =>
    have hne : a ≠ x := fun he => h (he ▸ List.mem_cons_self)
    rw [List.cons_append, List.idxOf?_cons, ih fun hm => h (List.mem_cons_of_mem a hm)]
    simp [hne]

end Insert

namespace Tabset

variable {B : Type} [DecidableEq B]

/-- `awesome-tab-make-tabset` -/
def make (name : List Char) (objects : List B) : Tabset B :=
  let tabs := objects.map fun object => Tab.mk object name
  { name := name, tabs := tabs, select := tabs.head?, start := 0, template := none }

/-- `awesome-tab-get-tab` -/
def getTab (object : B) (ts : Tabset B) : Option (Tab B) := ts.tabs.find? fun tab => tab.value = object

/-- `awesome-tab-member` -/
def member (tab : Tab B) (ts : Tabset B) : Bool := tab.tabset = ts.name || ts.tabs.contains tab

/-- `awesome-tab-set-template` -/
def setTemplate (template : Option (List (TabLabel B))) (ts : Tabset B) : Tabset B := { ts with template := template }

/-- `awesome-tab-select-tab`, with whether another tab has been selected, which is noted in
`awesome-tab--track-selected`. -/
def selectTab (tab : Option (Tab B)) (ts : Tabset B) : Tabset B × Bool :=
  match tab with
  | none => (ts, false)
  | some tab =>
    if ts.member tab then
      if ts.select = some tab then (ts, false)
      else ({ ts.setTemplate none with select := some tab }, true)
    else (ts, false)

/-- `awesome-tab-view`: the tabs from the first visible one. -/
def view (ts : Tabset B) : List (Tab B) := ts.tabs.drop ts.start.toNat

/-- `awesome-tab-add-tab`: a new tab comes in to the right of the selected one. -/
def addTab (object : B) (ts : Tabset B) : Tabset B :=
  if (ts.getTab object).isSome then ts
  else
    let selectedIndex := ts.select.bind fun selected => (ts.tabs.map Tab.value).idxOf? selected.value
    { ts.setTemplate none with tabs := insertAt (Tab.mk object ts.name) ts.tabs selectedIndex }

/-- `awesome-tab-delete-tab`: the next tab is selected for a deleted one, or the last tab. -/
def deleteTab (tab : Tab B) (ts : Tabset B) : Tabset B × Bool :=
  let sel := ts.select = some tab
  let next := if sel then (ts.tabs.dropWhile (· ≠ tab)).tail else []
  let tabs := ts.tabs.filter (· ≠ tab)
  let (ts', moved) := if sel then selectTab (next.head?.or tabs.getLast?) (ts.setTemplate none)
    else (ts.setTemplate none, false)
  ({ ts' with tabs := tabs }, moved)

/-- `awesome-tab-scroll` -/
def scroll (count : Int) (ts : Tabset B) : Tabset B :=
  let start := min (max 0 (ts.start + count)) (ts.tabs.length - 1)
  if start ≠ ts.start then { ts.setTemplate none with start := start } else ts

/-! ### What a tab set shows -/

/-- The tabs are those of the buffers, and the tab of the buffer in focus is selected. -/
structure Shows (ts : Tabset B) (f : Focus B) : Prop where
  tabs : ts.tabs = f.toList.map fun b => Tab.mk b ts.name
  select : ts.select = some ⟨f.here, ts.name⟩

variable {ts : Tabset B} {f : Focus B}

omit [DecidableEq B] in
theorem tab_injective (name : List Char) : Function.Injective fun b : B => Tab.mk b name := by
  intro b b' h
  cases h
  rfl

omit [DecidableEq B] in
theorem values_of_shows (h : ts.Shows f) : ts.tabs.map Tab.value = f.toList := by
  rw [h.tabs, List.map_map]
  exact List.map_id f.toList

theorem find?_tabs (h : ts.Shows f) (b : B) :
    ts.getTab b = if b ∈ f.toList then some ⟨b, ts.name⟩ else none := by
  unfold getTab
  rw [h.tabs, List.find?_map]
  split
  · rename_i hb
    have hfind : f.toList.find? ((fun tab => decide (tab.value = b)) ∘ fun c => Tab.mk c ts.name) = some b := by
      rw [List.find?_eq_some_iff_append]
      obtain ⟨u, v, huv, hu⟩ := List.eq_append_cons_of_mem hb
      refine ⟨by simp, u, v, huv, ?_⟩
      intro c hc
      have hne : c ≠ b := fun he => hu (he ▸ hc)
      simpa using hne
    rw [hfind]
    rfl
  · rename_i hb
    rw [Option.map_eq_none_iff, List.find?_eq_none]
    intro c hc
    have hne : c ≠ b := fun he => hb (he ▸ hc)
    simpa using hne

omit [DecidableEq B] in
/-- A new tab set shows its only buffer. -/
theorem shows_make (name : List Char) (b : B) : (make name [b]).Shows (Focus.single b) := ⟨rfl, rfl⟩

omit [DecidableEq B] in
theorem shows_setTemplate (h : ts.Shows f) (l : Option (List (TabLabel B))) : (ts.setTemplate l).Shows f :=
  ⟨h.tabs, h.select⟩

omit [DecidableEq B] in
theorem name_setTemplate (l : Option (List (TabLabel B))) (ts : Tabset B) : (ts.setTemplate l).name = ts.name := rfl

theorem name_selectTab (tab : Option (Tab B)) (ts : Tabset B) : (ts.selectTab tab).1.name = ts.name := by
  unfold selectTab
  split
  · rfl
  split
  · split <;> rfl
  · rfl

theorem tabs_selectTab (tab : Option (Tab B)) (ts : Tabset B) : (ts.selectTab tab).1.tabs = ts.tabs := by
  unfold selectTab
  split
  · rfl
  split
  · split <;> rfl
  · rfl

/-- A tab of the tab set is selected. -/
theorem select_selectTab (b : B) (ts : Tabset B) : (ts.selectTab (some ⟨b, ts.name⟩)).1.select = some ⟨b, ts.name⟩ := by
  unfold selectTab member
  simp only [decide_true, Bool.true_or, if_true]
  split
  · rename_i h
    exact h
  · rfl

/-- Selecting a listed buffer brings it in focus. -/
theorem shows_selectTab (h : ts.Shows f) (b : B) : (ts.selectTab (ts.getTab b)).1.Shows (f.visit b) := by
  constructor
  · rw [tabs_selectTab, name_selectTab, Focus.toList_visit]
    exact h.tabs
  · rw [find?_tabs h]
    by_cases hb : b ∈ f.toList
    · rw [if_pos hb, name_selectTab, Focus.visit_here hb]
      exact select_selectTab b ts
    · rw [if_neg hb]
      unfold Focus.visit
      rw [dif_neg hb]
      exact h.select

theorem name_addTab (b : B) (ts : Tabset B) : (ts.addTab b).name = ts.name := by
  unfold addTab
  split <;> rfl

/-- A new tab comes in to the right of the focus. -/
theorem shows_addTab (h : ts.Shows f) (b : B) : (ts.addTab b).Shows (f.add b) := by
  unfold addTab
  rw [find?_tabs h]
  by_cases hb : b ∈ f.toList
  · rw [if_pos hb, Focus.add_of_mem hb]
    exact h
  · rw [if_neg hb]
    have hleft : f.here ∉ f.left.reverse := by
      rw [List.mem_reverse]
      exact f.here_notMem_left
    have hidx : (ts.tabs.map Tab.value).idxOf? f.here = some f.left.length := by
      rw [values_of_shows h, Focus.toList, idxOf?_append_cons hleft, List.length_reverse]
    simp only [Option.isSome_none, Bool.false_eq_true, if_false, h.select, Option.bind_some, hidx]
    constructor
    · show insertAt _ ts.tabs _ = (f.add b).toList.map fun c => Tab.mk c ts.name
      rw [h.tabs, Focus.toList, Focus.toList, List.map_append, List.map_cons, Focus.add_left, Focus.add_here,
        Focus.add_right hb]
      have := insertAt_append (Tab.mk b ts.name) (Tab.mk f.here ts.name) (f.left.reverse.map fun b => Tab.mk b ts.name)
        (f.right.map fun b => Tab.mk b ts.name)
      rw [List.length_map, List.length_reverse] at this
      rw [this, List.map_append, List.map_cons, List.map_cons]
    · show ts.select = _
      rw [h.select, Focus.add_here]
      rfl

/-- What a tab set shows that may have lost all its tabs. -/
def ShowsRest (ts : Tabset B) : Option (Focus B) → Prop
  | some f => ts.Shows f
  | none => ts.tabs = []

theorem name_deleteTab (tab : Tab B) (ts : Tabset B) : (ts.deleteTab tab).1.name = ts.name := by
  unfold deleteTab
  dsimp only
  split
  · exact name_selectTab _ _
  · rfl

theorem tabs_deleteTab (tab : Tab B) (ts : Tabset B) : (ts.deleteTab tab).1.tabs = ts.tabs.filter (· ≠ tab) := rfl

/-- The tabs that remain are those of the buffers that remain. -/
theorem tabs_filter (h : ts.Shows f) (b : B) :
    (ts.tabs.filter fun tab => tab ≠ ⟨b, ts.name⟩) = (f.toList.filter fun c => c ≠ b).map fun c => Tab.mk c ts.name := by
  rw [h.tabs, List.filter_map]
  congr 1
  apply List.filter_congr
  intro c _
  simp

/-- What is selected for the deleted tab in focus. -/
theorem select_deleteTab_here (h : ts.Shows f) :
    (ts.deleteTab ⟨f.here, ts.name⟩).1.select =
      match (f.right.head?.or f.left.head?) with
      | some c => some ⟨c, ts.name⟩
      | none => some ⟨f.here, ts.name⟩ := by
  have hnext : (ts.tabs.dropWhile (· ≠ ⟨f.here, ts.name⟩)).tail = f.right.map fun c => Tab.mk c ts.name := by
    have hall : ∀ tab ∈ f.left.reverse.map fun c => Tab.mk c ts.name, decide (tab ≠ ⟨f.here, ts.name⟩) = true := by
      intro tab htab
      obtain ⟨c, hc, rfl⟩ := List.mem_map.1 htab
      have hne : c ≠ f.here := fun he => f.here_notMem_left (he ▸ List.mem_reverse.1 hc)
      simpa using hne
    rw [h.tabs, Focus.toList, List.map_append, List.dropWhile_append_of_pos hall]
    simp
  have hlast : (ts.tabs.filter (· ≠ ⟨f.here, ts.name⟩)) =
      (f.left.reverse ++ f.right).map fun c => Tab.mk c ts.name := by
    rw [tabs_filter h, Focus.toList, List.filter_append, List.filter_reverse, List.filter_cons_of_neg (by simp),
      Focus.filter_ne_eq_self f.here_notMem_left, Focus.filter_ne_eq_self f.here_notMem_right]
  unfold deleteTab
  simp only [h.select, if_true, hnext, hlast]
  cases hr : f.right with
  | cons c r => exact select_selectTab c (ts.setTemplate none)
  | nil =>
    cases hl : f.left with
    | cons c l =>
      have hgetLast : ((c :: l).reverse ++ [] : List B).getLast? = some c := by simp
      simp only [List.map_nil, List.head?_nil, Option.none_or, List.getLast?_map, hgetLast]
      exact select_selectTab c (ts.setTemplate none)
    | nil => exact h.select

/-- Deleting a tab takes the buffer out of the focus list. -/
theorem shows_deleteTab (h : ts.Shows f) (b : B) :
    (ts.deleteTab ⟨b, ts.name⟩).1.ShowsRest (f.filter fun c => c ≠ b) := by
  have htabs : (ts.deleteTab ⟨b, ts.name⟩).1.tabs =
      (f.toList.filter fun c => c ≠ b).map fun c => Tab.mk c (ts.deleteTab ⟨b, ts.name⟩).1.name := by
    rw [tabs_deleteTab, name_deleteTab, tabs_filter h]
  cases hg : f.filter fun c => c ≠ b with
  | none =>
    show (ts.deleteTab ⟨b, ts.name⟩).1.tabs = []
    have hnone := Focus.filter_eq_none.1 hg
    have hfilter : (f.toList.filter fun c => c ≠ b) = [] := by
      rw [List.filter_eq_nil_iff]
      intro c hc
      rw [hnone c hc]
      exact Bool.false_ne_true
    rw [htabs, hfilter, List.map_nil]
  | some g =>
    refine ⟨by rw [htabs, Focus.toList_filter hg], ?_⟩
    by_cases hb : b = f.here
    · -- the selected tab is deleted
      subst hb
      rw [select_deleteTab_here h, name_deleteTab, Focus.here_filter_ne hg]
    · have hkeep : decide (f.here ≠ b) = true := by simpa using fun he : f.here = b => hb he.symm
      obtain ⟨g', hg', hhere⟩ := Focus.filter_here (p := fun c => c ≠ b) hkeep
      obtain rfl : g' = g := Option.some.inj (hg'.symm.trans hg)
      have hsel : ¬ ts.select = some ⟨b, ts.name⟩ := by
        rw [h.select]
        simpa using fun he : f.here = b => hb he.symm
      rw [name_deleteTab, hhere, ← h.select]
      unfold deleteTab
      simp only [hsel, if_false]
      rfl

end Tabset

end EmacsDir
