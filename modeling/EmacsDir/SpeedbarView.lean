import EmacsDir.SpeedbarTick

/-!
# The window of the speedbar

A tick that marks its file scrolls the window that shows the speedbar, and signals if there is none.  The assumptions
on this window and on the text of the listing (`ViewLaws`), and from them when a file that has been looked up can be
shown.  The names of the listed files lie in the listing (`InListing`) whatever ticks are made.
-/

namespace EmacsDir

open Command

variable {W : Type}

/-- A window shows the speedbar. -/
def Visible (sb : Speedbar W) (w : W) : Prop := (sb.getBufferWindow w).isSome = true

/-- The names of the listed files lie in the listing. -/
def InListing (nameSpan : W → List Char → Option (Nat × Nat)) (bar : Bar W) : Prop :=
  ∀ f a b, nameSpan bar.world f = some (a, b) → b ≤ bar.shown.length

/-- A tick that marks its file needs a remembered file, unless the directory has changed, and a window that shows the
speedbar. -/
def Tick.CanShow (sb : Speedbar W) (t : Tick) (s : SrState W) (bar : Bar W) : Prop :=
  (t.ChangesDirectory s ∨ s.lastBufferFilename.isSome = true) ∧ Visible sb bar.world

/-- What is assumed of the window and of the text of the listing.  No operation of the tick shows or hides the speedbar
or moves a name out of the listing. -/
structure ViewLaws {sb : Speedbar W} (laws : SpeedbarLaws sb) where
  /-- How many lines the listing has. -/
  lines : W → Nat
  refresh : ∀ d, Preserves (InListing laws.nameSpan) (sb.refresh d)
  contract : Preserves (InListing laws.nameSpan) sb.contractLine
  expand : Preserves (InListing laws.nameSpan) sb.expandLine
  scroll : ∀ window num, Preserves (InListing laws.nameSpan) (sb.scrollUp window num)
  /-- The lookup leaves point on a line of the listing or behind the last one. -/
  find : ∀ {f bar found bar'}, sb.findSelectedFile f bar = some (.ok found, bar') →
    sb.getBufferWindow bar'.world = sb.getBufferWindow bar.world ∧
      ∀ shown, sb.lineNumberAtPos { bar' with shown := shown } ≤ lines bar'.world + 1
  contract_window : ∀ {bar bar'}, sb.contractLine bar = some (.ok (), bar') →
    sb.getBufferWindow bar'.world = sb.getBufferWindow bar.world
  /-- On the line of a file the contraction ends with a search for the button, which has no groups. -/
  contract_matchData : ∀ {f bar bar₁ bar₂ shown}, sb.findSelectedFile f bar = some (.ok true, bar₁) →
    sb.contractLine { bar₁ with shown := shown } = some (.ok (), bar₂) → bar₂.matchData = none
  expand_window : ∀ {bar bar'}, sb.expandLine bar = some (.ok (), bar') →
    sb.getBufferWindow bar'.world = sb.getBufferWindow bar.world ∧ lines bar.world ≤ lines bar'.world
  /-- A window is not scrolled beyond the last line. -/
  scroll_returns : ∀ {window num bar}, num = 0 ∨ num < lines bar.world →
    ∃ bar', sb.scrollUp window num bar = some (.ok (), bar')

section View

variable {sb : Speedbar W} {laws : SpeedbarLaws sb} (view : ViewLaws laws)
variable {table : CaseTable} {t : Tick} {s s' : SrState W} {bar bar' bar₁ : Bar W} {current : List Char}

/-! ### Showing a file -/

theorem scrollSpeedbarBufferUp_returns_iff {num : Nat} (h : num = 0 ∨ num < view.lines bar.world) :
    (∃ bar', scrollSpeedbarBufferUp sb num bar = some (.ok (), bar')) ↔ Visible sb bar.world := by
  constructor
  · rintro ⟨bar', hscroll⟩
    obtain ⟨window, bar₁, hwindow, -⟩ := scrollSpeedbarBufferUp_eq_ok_iff.1 hscroll
    exact Option.isSome_of_eq_some hwindow
  · intro hvisible
    obtain ⟨window, hwindow⟩ := Option.isSome_iff_exists.1 hvisible
    obtain ⟨bar₁, hscroll⟩ : ∃ bar₁, sb.scrollUp window num bar = some (.ok (), bar₁) := view.scroll_returns h
    exact ⟨_, scrollSpeedbarBufferUp_eq_ok_iff.2 ⟨window, bar₁, hwindow, hscroll, rfl⟩⟩

/-- From a line of the listing, showing the file needs a window only. -/
theorem showCurrent_returns_iff (hline : sb.lineNumberAtPos bar ≤ view.lines bar.world + 1) :
    (∃ bar', showCurrent sb table current bar = some (.ok (), bar')) ↔ Visible sb bar.world := by
  by_cases hc : ContainsSuffix table current
  · rw [showCurrent_of_suffix hc]
    obtain ⟨bar₁, hexpand, -⟩ := laws.expand { bar with matchData := none }
    obtain ⟨hwindow, hlines⟩ := view.expand_window hexpand
    have hnum : sb.lineNumberAtPos bar - 20 = 0 ∨ sb.lineNumberAtPos bar - 20 < view.lines bar₁.world := by
      have : view.lines bar.world ≤ view.lines bar₁.world := hlines
      omega
    rw [bind_ok hexpand, scrollSpeedbarBufferUp_returns_iff view hnum]
    unfold Visible
    rw [hwindow]
  · rw [showCurrent_of_not_suffix hc]
    exact scrollSpeedbarBufferUp_returns_iff view (by omega)

include view in
/-- The same behind the lookup of the file, whatever faces have been put. -/
theorem showCurrent_found_iff {found : Bool} (hfind : sb.findSelectedFile current bar = some (.ok found, bar₁))
    (shown : List Glyph) :
    (∃ bar', showCurrent sb table current { bar₁ with shown := shown } = some (.ok (), bar')) ↔
      Visible sb bar.world := by
  obtain ⟨hwindow, hline⟩ := view.find hfind
  have hvisible : Visible sb bar₁.world ↔ Visible sb bar.world := by
    unfold Visible
    rw [hwindow]
  exact (showCurrent_returns_iff view (hline shown)).trans hvisible

include view in
theorem unmarkRemembered_window {last : Option (List Char)}
    (h : unmarkRemembered sb last bar = some (.ok (), bar')) :
    Visible sb bar'.world ↔ Visible sb bar.world := by
  unfold Visible
  cases last with
  | none =>
    obtain rfl := (Prod.mk.inj (Option.some.inj h)).2
    exact Iff.rfl
  | some last =>
    obtain ⟨bar₁, hfind, -, -, ⟨-, rfl⟩ | ⟨a, b, -, -, hcontract⟩⟩ := unmarkLast_cases laws h
    · rw [(view.find hfind).1]
    · rw [view.contract_window hcontract, (view.find hfind).1]

/-! ### The names stay in the listing -/

theorem inListing_setFace (a b : Nat) (face : Face) :
    InListing laws.nameSpan { bar with shown := setFace a b face bar.shown } ↔ InListing laws.nameSpan bar := by
  have hlength : (setFace a b face bar.shown).length = bar.shown.length := List.length_mapIdx
  unfold InListing
  rw [hlength]

theorem preserves_findSelectedFile (f : List Char) :
    Preserves (InListing laws.nameSpan) (sb.findSelectedFile f) := by
  intro bar r bar' h hin
  obtain ⟨bar₁, hfind, hs, hw, -⟩ := laws.find f bar
  obtain ⟨-, rfl⟩ := Prod.mk.inj (Option.some.inj (hfind.symm.trans h))
  unfold InListing
  rw [hs, hw]
  exact hin

theorem preserves_putFace (face : Face) : Preserves (InListing laws.nameSpan) (putFace face) := by
  intro bar r bar' h hin
  unfold putFace at h
  split at h
  · cases h
    exact hin
  · split at h
    · cases h
      exact (inListing_setFace _ _ face).2 hin
    · cases h
      exact hin

theorem preserves_onBar {α : Type} {P : Bar W → Prop} {c : Command Signal (Bar W) α} (hc : Preserves P c) :
    Preserves (fun s => P s.bar) (onBar c) := by
  intro s r s' h hs
  obtain ⟨bar, hbar, rfl⟩ := onBar_eq_some_iff.1 h
  exact hc _ _ _ hbar hs

theorem preserves_saveCurrentBuffer {c : Command Signal (Bar W) Unit} (hc : Preserves (InListing laws.nameSpan) c) :
    Preserves (InListing laws.nameSpan) (saveCurrentBuffer c) := by
  intro bar r bar' h hin
  unfold saveCurrentBuffer at h
  split at h
  · cases h
  · rename_i r' bar₁ hbar₁
    cases h
    have hin₁ : InListing laws.nameSpan bar₁ := hc _ _ _ hbar₁ hin
    exact hin₁

theorem preserves_markCurrent (current : List Char) :
    Preserves (InListing laws.nameSpan) (markCurrent sb current) :=
  (preserves_findSelectedFile current).bind fun _ => preserves_putFace .currentBuffer

include view

theorem preserves_unmarkLast (last : List Char) : Preserves (InListing laws.nameSpan) (unmarkLast sb last) := by
  apply (preserves_findSelectedFile last).bind
  intro found
  cases found with
  | false => exact preserves_pure ()
  | true => exact (preserves_putFace .file).bind fun _ => view.contract

theorem preserves_scrollSpeedbarBufferUp (num : Nat) :
    Preserves (InListing laws.nameSpan) (scrollSpeedbarBufferUp sb num) := by
  apply preserves_saveCurrentBuffer
  refine (preserves_gets _).bind fun window => ?_
  cases window with
  | none => exact preserves_signal _
  | some window => exact view.scroll window num

theorem preserves_showCurrent (table : CaseTable) (current : List Char) :
    Preserves (InListing laws.nameSpan) (showCurrent sb table current) := by
  intro bar r bar' h hin
  by_cases hc : ContainsSuffix table current
  · rw [showCurrent_of_suffix hc] at h
    exact view.expand.bind (fun _ => preserves_scrollSpeedbarBufferUp view _) _ _ _ h hin
  · rw [showCurrent_of_not_suffix hc] at h
    exact preserves_scrollSpeedbarBufferUp view _ _ _ _ h hin

/-- The names stay in the listing on the path for a changed directory. -/
theorem preserves_directoryChanged (table : CaseTable) (t : Tick) :
    Preserves (fun s => InListing laws.nameSpan s.bar) (directoryChanged sb table t) := by
  have hlast : ∀ {f : SrState W → Option (List Char)}, Preserves (fun s : SrState W => InListing laws.nameSpan s.bar)
      (update fun s => { s with lastBufferFilename := f s } : Command Signal (SrState W) Unit) :=
    preserves_update fun _ hs => hs
  refine Preserves.bind (preserves_update fun _ hs => hs) fun _ => ?_
  refine Preserves.bind (preserves_onBar (view.refresh t.defaultDirectory)) fun _ => ?_
  refine Preserves.bind (preserves_gets _) fun last => ?_
  cases t.bufferFileName with
  | none =>
    cases last with
    | none => exact hlast
    | some last => exact (preserves_onBar (preserves_unmarkLast view last)).bind fun _ => hlast
  | some current =>
    have hshow : Preserves (fun s => InListing laws.nameSpan s.bar) (do
        update fun s => { s with lastBufferFilename := some current }
        onBar (markCurrent sb current)
        onBar (showCurrent sb table current)) :=
      hlast.bind fun _ => (preserves_onBar (preserves_markCurrent current)).bind fun _ =>
        preserves_onBar (preserves_showCurrent view table current)
    cases last with
    | none => exact hshow
    | some last => exact (preserves_onBar (preserves_unmarkLast view last)).bind fun _ => hshow

/-- The names stay in the listing on the path for another file. -/
theorem preserves_fileChanged (table : CaseTable) (current : List Char) :
    Preserves (fun s => InListing laws.nameSpan s.bar) (fileChanged sb table current) := by
  have hrest : Preserves (fun s => InListing laws.nameSpan s.bar) (do
      onBar (markCurrent sb current)
      update fun s => { s with lastBufferFilename := some current }
      onBar (showCurrent sb table current)) :=
    (preserves_onBar (preserves_markCurrent current)).bind fun _ =>
      Preserves.bind (preserves_update fun _ hs => hs) fun _ =>
        preserves_onBar (preserves_showCurrent view table current)
  refine Preserves.bind (preserves_gets _) fun last => ?_
  cases last with
  | none => exact (preserves_signal _).bind fun _ => hrest
  | some last => exact (preserves_onBar (preserves_unmarkLast view last)).bind fun _ => hrest

/-- However a tick ends, the names are still in the listing. -/
theorem preserves_tick (table : CaseTable) (t : Tick) :
    Preserves (fun s => InListing laws.nameSpan s.bar) (tick sb table t) := by
  refine Preserves.bind (preserves_update fun _ hs => hs) fun _ => ?_
  intro s r s' h hs
  unfold srSpeedbarRefresh at h
  split at h
  · exact preserves_directoryChanged view table t _ _ _ h hs
  · split at h
    · split at h
      · exact preserves_fileChanged view table _ _ _ _ h hs
      · cases h
        exact hs
    · cases h
      exact hs

theorem inListing_redrawn (hr : Redrawn sb t s bar) (hin : InListing laws.nameSpan s.bar) :
    InListing laws.nameSpan bar := by
  by_cases hd : t.ChangesDirectory s
  · exact view.refresh t.defaultDirectory _ _ _ ((redrawn_of_changes hd).1 hr) hin
  · obtain rfl := (redrawn_of_same hd).1 hr
    exact hin

/-! ### Ticks that mark a listed file -/

theorem unmarkRemembered_returns (hin : InListing laws.nameSpan bar) (last : Option (List Char)) :
    ∃ bar', unmarkRemembered sb last bar = some (.ok (), bar') ∧ InListing laws.nameSpan bar' := by
  cases last with
  | none => exact ⟨bar, rfl, hin⟩
  | some last =>
    obtain ⟨bar₁, hfind, hs, -, hm, -⟩ := laws.find last bar
    have hreturns : ∃ bar', unmarkLast sb last bar = some (.ok (), bar') := by
      cases hspan : laws.nameSpan bar.world last with
      | none =>
        rw [hspan] at hfind
        exact ⟨bar₁, unmarkLast_unlisted hfind⟩
      | some span =>
        obtain ⟨a, b⟩ := span
        rw [hspan] at hfind hm
        obtain ⟨bar₂, hcontract, -⟩ := laws.contract { bar₁ with shown := setFace a b .file bar₁.shown }
        exact ⟨bar₂, (unmarkLast_listed laws hspan hfind hs hm bar₂).2 ⟨hin last a b hspan, hcontract⟩⟩
    obtain ⟨bar', h⟩ := hreturns
    exact ⟨bar', h, preserves_unmarkLast view last _ _ _ h hin⟩

/-- A listed file is marked and shown if a window shows the speedbar. -/
theorem markAndShow_returns_iff (hlisted : (laws.nameSpan bar.world current).isSome = true)
    (hin : InListing laws.nameSpan bar) :
    (∃ bar', markAndShow sb table current bar = some (.ok (), bar')) ↔ Visible sb bar.world := by
  obtain ⟨bar₁, hfind, hs, -, hm, -⟩ := laws.find current bar
  obtain ⟨⟨a, b⟩, hspan⟩ := Option.isSome_iff_exists.1 hlisted
  rw [hspan] at hm
  have hle : a ≤ b := Nat.le_of_lt (laws.span_lt hspan)
  have hmark : markCurrent sb current bar =
      some (.ok (), { bar₁ with shown := setFace a b .currentBuffer bar₁.shown }) := by
    unfold markCurrent
    rw [bind_ok hfind]
    exact putFace_eq_ok.2 ⟨a, b, hm, hle, hs ▸ hin current a b hspan, rfl⟩
  rw [← showCurrent_found_iff view hfind (setFace a b .currentBuffer bar₁.shown)]
  unfold markAndShow
  rw [bind_ok hmark]

/-- A tick that marks a listed file returns exactly if it can show it. -/
theorem tick_returns_iff (hm : t.Marks s current) (hr : Redrawn sb t s bar)
    (hlisted : (laws.nameSpan bar.world current).isSome = true) (hin : InListing laws.nameSpan bar) :
    (∃ s', tick sb table t s = some (.ok (), s')) ↔ t.CanShow sb s bar := by
  obtain ⟨bar₂, hunmark, hin₂⟩ := unmarkRemembered_returns view hin s.lastBufferFilename
  have hlisted₂ : (laws.nameSpan bar₂.world current).isSome = true := by
    rw [(unmarkRemembered_carries laws hunmark).1, hlisted]
  have hshow : (∃ bar₃, markAndShow sb table current bar₂ = some (.ok (), bar₃)) ↔ Visible sb bar.world :=
    (markAndShow_returns_iff view hlisted₂ hin₂).trans (unmarkRemembered_window view hunmark)
  unfold Tick.CanShow
  rw [← hshow]
  constructor
  · rintro ⟨s', htick⟩
    obtain ⟨hpath, bar₁, bar₂', bar₃, hr₁, hunmark₁, hshow₃, -⟩ := (tick_marks_eq_ok_iff hm).1 htick
    obtain rfl := hr.unique hr₁
    obtain rfl := state_unique hunmark hunmark₁
    exact ⟨hpath, bar₃, hshow₃⟩
  · rintro ⟨hpath, bar₃, hshow₃⟩
    exact ⟨_, (tick_marks_eq_ok_iff hm).2 ⟨hpath, bar, bar₂, bar₃, hr, hunmark, hshow₃, rfl⟩⟩

end View

end EmacsDir
