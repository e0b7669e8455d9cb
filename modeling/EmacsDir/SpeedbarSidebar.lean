import EmacsDir.SpeedbarLifecycle

/-!
# The speedbar as a sidebar

What the commands do for the user in every state that is reached.  Opening and closing the speedbar leaves the other windows
as they were (`toggle_twice`), `delete-other-windows` keeps it (`delete_others_run`), it comes back with the width that it
had (`width_run`), and `other-window` skips it (`other_window_run`).
-/

namespace EmacsDir

open Command

namespace SrSpeedbar

variable {o : Options} {em : Emacs} {s s' : State}

/-! ### Toggling twice -/

theorem toggle_of_closed (hex : existP s = false) : srSpeedbarToggle o em s = srSpeedbarOpen o em s := by
  unfold srSpeedbarToggle
  rw [bind_ok (show gets existP s = some (.ok false, s) by rw [← hex]; rfl)]
  rfl

theorem toggle_of_open (hex : existP s = true) : srSpeedbarToggle o em s = srSpeedbarClose o em s := by
  unfold srSpeedbarToggle
  rw [bind_ok (show gets existP s = some (.ok true, s) by rw [← hex]; rfl)]
  rfl

theorem closed_selectedWindow {n : Nat} (hne : s.selectedWindow ≠ n) : (s.closed o em n).selectedWindow = s.selectedWindow := by
  unfold State.closed
  rw [if_neg hne]

theorem closed_bufferLive {n : Nat} : (s.closed o em n).bufferLive = s.bufferLive := by
  unfold State.closed State.remembered
  split <;> split <;> rfl

/-- Without its window the speedbar does not exist. -/
theorem closed_existP {n : Nat} (hwin : s.srSpeedbarWindow = some n) : existP (s.closed o em n) = false := by
  have hwin' : (s.closed o em n).srSpeedbarWindow = some n := by
    rw [← hwin]
    unfold State.closed State.remembered
    split <;> split <;> rfl
  rw [existP, hwin', Bool.and_eq_false_iff]
  right
  rw [Bool.eq_false_iff]
  intro h
  obtain ⟨_, hid, hlive⟩ := windowExistP_iff.1 h
  obtain ⟨w, hw, hwid⟩ := live_iff.1 hlive
  rw [closed_plain, List.mem_filter, decide_eq_true_eq] at hw
  exact hw.2 (hwid.trans (Option.some.inj hid).symm)

theorem exists_of_wp {c : Command WindowSignal State Unit} {Q : Unit → State → Prop} {E : WindowSignal → State → Prop}
    (h : wp c Q E s) : (∃ s', c s = some (.ok (), s') ∧ Q () s') ∨ ∃ e s', c s = some (.error e, s') ∧ E e s' := by
  unfold wp at h
  split at h
  · exact h.elim
  · rename_i s' hc
    exact Or.inl ⟨s', hc, h⟩
  · rename_i e s' hc
    exact Or.inr ⟨e, s', hc, h⟩

/-- Without the window of the speedbar the other windows are as they were. -/
theorem Opened.closed_plain {s₁ : State} {left right : Nat} (hs : Framed s) (hcl : Cleared o s s₁)
    (h : Opened o em s s₁ s' left right) : (s'.closed o em s.nextId).plain = keptToOpen o s := by
  rw [SrSpeedbar.closed_plain, h.plain hcl]
  refine filter_insertAfter (n := s.nextId) rfl fun w hw => ?_
  rw [← hcl.windows] at hw
  exact Nat.ne_of_lt (hs.lt w (hcl.narrows.windows.subset hw))

theorem Opened.selected_ne (hs : Framed s) : s.selectedWindow ≠ s.nextId := by
  obtain ⟨w, hw, hid⟩ := live_iff.1 hs.selected
  rw [← hid]
  exact Nat.ne_of_lt (hs.lt w hw)

theorem Narrows.existP (h : Narrows o s s') (hex : existP s = false) : existP s' = false := by
  rw [Bool.eq_false_iff] at hex ⊢
  intro hex'
  apply hex
  rw [SrSpeedbar.existP, Bool.and_eq_true] at hex' ⊢
  obtain ⟨n, hwin, hlive⟩ := windowExistP_iff.1 hex'.2
  rw [h.state] at hwin hex'
  exact ⟨hex'.1, windowExistP_iff.2 ⟨n, hwin, live_of_sublist h.windows hlive⟩⟩

/-- Toggling either finds no room, or opens the speedbar, and then toggling again never fails and takes the frame back. -/
theorem toggle_twice (hside : o.rightSide = true) {start : State} (hstart : Start o start) {es : List Event}
    (hrun : Runs (Step o em) start es s) (hex : existP s = false) :
    (∃ s₁, srSpeedbarToggle o em s = some (.error .tooSmall, s₁) ∧ existP s₁ = false ∧ s₁.plain = keptToOpen o s ∧
      s₁.selectedWindow = s.selectedWindow) ∨
    ∃ s₁ s₂, srSpeedbarToggle o em s = some (.ok (), s₁) ∧ existP s₁ = true ∧ s₁.selectedWindow = s.selectedWindow ∧
      srSpeedbarToggle o em s₁ = some (.ok (), s₂) ∧ existP s₂ = false ∧ s₂.plain = keptToOpen o s ∧
      s₂.selectedWindow = s.selectedWindow ∧ s₂.bufferLive = true := by
  have hs := (valid_start hstart).of_run hside hrun
  have hwp : wp (srSpeedbarOpen o em) _ _ s := wp_srSpeedbarOpen hside hs.framed hex
  rcases exists_of_wp hwp with
    ⟨s₁, hopen, s₀, left, right, hcl, hopened⟩ | ⟨_, s₁, hopen, rfl, s₀, hcl, hrefused⟩
  · right
    have hs₁ := hs.of_opened hcl hopened
    have hex₁ := hopened.existP hs.framed hcl
    have hne : s₁.selectedWindow ≠ s.nextId := by
      rw [hopened.selectedWindow]
      exact Opened.selected_ne hs.framed
    have hlen : 1 < s₁.windows.length :=
      one_lt_length (existP_live hex₁ hopened.srSpeedbarWindow) hs₁.framed.selected (Ne.symm hne)
    refine ⟨s₁, s₁.closed o em s.nextId, ?_, hex₁, hopened.selectedWindow, ?_, closed_existP hopened.srSpeedbarWindow,
      hopened.closed_plain hs.framed hcl, ?_, ?_⟩
    · rw [toggle_of_closed hex, hopen]
    · rw [toggle_of_open hex₁]
      exact srSpeedbarClose_ok hs₁.framed hex₁ hopened.srSpeedbarWindow hlen
    · rw [closed_selectedWindow hne, hopened.selectedWindow]
    · rw [closed_bufferLive, hopened.state]
      exact hs.wired.withBuffer.2
  · left
    refine ⟨s₁, by rw [toggle_of_closed hex, hopen], ?_, ?_, ?_⟩
    · rw [hrefused.state]
      exact hcl.narrows.existP hex
    · rw [hrefused.state]
      exact hcl.windows
    · rw [hrefused.state]
      exact hcl.selectedWindow

/-- Opening and closing in a frame with one window. -/
theorem toggle_twice_oneWindow :
    ∃ s₁ s₂, srSpeedbarToggle sidebarOptions narrowFrame oneWindow = some (.ok (), s₁) ∧ existP s₁ = true ∧
      s₁.selectedWindow = 0 ∧ srSpeedbarToggle sidebarOptions narrowFrame s₁ = some (.ok (), s₂) ∧ existP s₂ = false ∧
      s₂.plain = [⟨0, false, false, 0⟩] ∧ s₂.selectedWindow = 0 ∧ s₂.bufferLive = true := by
  have hrun : Runs (Step sidebarOptions narrowFrame) oneWindow [] oneWindow := .nil
  rcases toggle_twice rfl start_oneWindow hrun rfl with ⟨s₁, h, -⟩ | h
  · rw [toggle_oneWindow] at h
    cases h
  · exact h

/-! ### Deleting the other windows -/

/-- `delete-other-windows` never fails.  It leaves the selected window and the dedicated ones, the speedbar among them. -/
theorem delete_others_run (hside : o.rightSide = true) {start : State} (hstart : Start o start) {es : List Event}
    (hrun : Runs (Step o em) start es s) (hex : existP s = true) :
    ∃ s', deleteOtherWindows o em s = some (.ok (), s') ∧ existP s' = true ∧ s'.selectedWindow = s.selectedWindow ∧
      s'.plain = s.plain.filter fun w => w.id = s.selectedWindow || w.dedicated := by
  have hs := (valid_start hstart).of_run hside hrun
  obtain ⟨n, hwin, hlive⟩ := exists_of_existP hex
  have hexw : windowExistP s s.srSpeedbarWindow = true := windowExistP_iff.2 ⟨n, hwin, hlive⟩
  have hwp : wp (deleteOtherWindows o em) _ _ s := wp_deleteOtherWindows hs.framed
  rcases exists_of_wp hwp with
    ⟨s', hdel, hnar, hsel, hplain, -⟩ | ⟨_, _, _, h⟩
  · have hplain' : s'.plain = s.plain.filter fun w => w.id = s.selectedWindow || w.dedicated := by
      rw [hplain, keptByOthers, hexw]
      rfl
    refine ⟨s', hdel, ?_, hsel, hplain'⟩
    have hl := bufferLive_of_existP hex
    rw [existP, Bool.and_eq_true] at hex ⊢
    rw [hnar.state]
    refine ⟨hex.1, windowExistP_iff.2 ⟨n, hwin, ?_⟩⟩
    obtain ⟨w, hw, rfl⟩ := live_iff.1 hlive
    refine live_iff.2 ⟨w, ?_, rfl⟩
    show w ∈ s'.plain
    rw [hplain', List.mem_filter, Bool.or_eq_true]
    exact ⟨hw, Or.inr (hs.shown hl w hw hwin).2⟩
  · exact h.elim

/-- The user has split the window on the left. -/
def threeWindows : State :=
  { withSpeedbar with
    windows := [⟨0, false, false, 25⟩, ⟨2, false, false, 20⟩, ⟨1, true, true, 35⟩]
    nextId := 3 }

theorem run_threeWindows : Runs (Step sidebarOptions narrowFrame) oneWindow [.command .toggle, .change] threeWindows :=
  .snoc run_withSpeedbar
    { state := rfl
      framed := ⟨by decide, by decide, rfl⟩
      nextId := by decide
      old := by decide
      dedicated := by decide
      showing := by decide }

theorem delete_others_run_threeWindows :
    ∃ s', deleteOtherWindows sidebarOptions narrowFrame threeWindows = some (.ok (), s') ∧ existP s' = true ∧
      s'.selectedWindow = 0 ∧ s'.plain = [⟨0, false, false, 0⟩, ⟨1, true, true, 0⟩] :=
  delete_others_run rfl start_oneWindow run_threeWindows rfl

/-! ### The width -/

/-- The speedbar is hidden: its buffer is alive, and neither its window nor another one in use shows it. -/
structure Hidden (s : State) : Prop where
  bufferLive : s.bufferLive = true
  existP : existP s = false
  windowP : windowP s = false

/-- A step that leaves the buffer alive. -/
def HiddenStep (o : Options) (em : Emacs) (s : State) (e : Event) (s' : State) : Prop :=
  Hidden s ∧ Step o em s e s' ∧ s'.bufferLive = true

theorem deleteWindow_width {id : Nat} (hP : windowP s = false) :
    wp (deleteWindow o em id) (fun _ s' => s'.srSpeedbarWidth = s.srSpeedbarWidth)
      (fun _ s' => s'.srSpeedbarWidth = s.srSpeedbarWidth) s := by
  by_cases hlive : s.live id = true
  · by_cases hlen : 1 < s.windows.length
    · rw [wp_of_eq_ok (deleteWindow_ok hlive hlen), remembered_of_not_windowP hP]
      rfl
    · rw [wp_of_eq_error (deleteWindow_sole hlive (Nat.not_lt.1 hlen)), remembered_of_not_windowP hP]
  · rw [wp_of_eq_error (deleteWindow_notLive (Bool.eq_false_iff.2 hlive)), remembered_of_not_windowP hP]

theorem widthToOpen_width {width : Nat} (hbuf : bufferExistP s = true) (h : WidthToOpen o s width) :
    width = s.srSpeedbarWidth := by
  rcases h with rfl | ⟨h, -⟩
  · rfl
  · rw [hbuf] at h
    cases h

theorem Cleared.bufferExistP (hcl : Cleared o s s') : bufferExistP s' = bufferExistP s := by
  rw [hcl.narrows.state]
  rfl

theorem Hidden.bufferExistP (h : Hidden s) (hs : Valid o s) : bufferExistP s = true := by
  rw [SrSpeedbar.bufferExistP, hs.wired.buffer, h.bufferLive]
  rfl

theorem open_width (hside : o.rightSide = true) (hs : Valid o s) (h : Hidden s) :
    wp (srSpeedbarOpen o em) (fun _ s' => s'.srSpeedbarWidth = s.srSpeedbarWidth)
      (fun _ s' => s'.srSpeedbarWidth = s.srSpeedbarWidth) s := by
  apply wp_mono (wp_srSpeedbarOpen hside hs.framed h.existP)
  · rintro _ s' ⟨s₁, left, right, hcl, hopened⟩
    rw [widthToOpen_width (hcl.bufferExistP.trans (h.bufferExistP hs)) hopened.width, hcl.width h.windowP]
  · rintro _ s' ⟨-, s₁, hcl, hrefused⟩
    rw [widthToOpen_width (hcl.bufferExistP.trans (h.bufferExistP hs)) hrefused.width, hcl.width h.windowP]

theorem close_width (hex : existP s = false) : srSpeedbarClose o em s = some (.ok (), s) := by
  unfold srSpeedbarClose
  rw [bind_ok (show gets existP s = some (.ok false, s) by rw [← hex]; rfl)]
  rfl

theorem selectWindow_width (id : Nat) :
    wp (selectWindow id) (fun _ s' => s'.srSpeedbarWidth = s.srSpeedbarWidth)
      (fun _ s' => s'.srSpeedbarWidth = s.srSpeedbarWidth) s := by
  unfold selectWindow
  rw [wp_bind, wp_gets]
  split <;> rfl

theorem width_step (hside : o.rightSide = true) (hs : Valid o s) {e : Event} (h : HiddenStep o em s e s') :
    s'.srSpeedbarWidth = s.srSpeedbarWidth := by
  obtain ⟨hh, hstep, hl⟩ := h
  cases e with
  | change =>
    have hchanged : Changed s s' := hstep
    rw [hchanged.state]
  | command a =>
    obtain ⟨r, hr⟩ := hstep
    cases a with
    | toggle =>
      replace hr : srSpeedbarToggle o em s = some (r, s') := hr
      rw [toggle_of_closed hh.existP] at hr
      exact state_of_wp (open_width hside hs hh) hr
    | openSpeedbar => exact state_of_wp (open_width hside hs hh) hr
    | closeSpeedbar =>
      replace hr : srSpeedbarClose o em s = some (r, s') := hr
      rw [close_width hh.existP] at hr
      cases hr
      rfl
    | selectSpeedbar =>
      refine state_of_wp (P := fun s' => s'.srSpeedbarWidth = s.srSpeedbarWidth) ?_ hr
      show wp srSpeedbarSelectWindow _ _ s
      unfold srSpeedbarSelectWindow
      rw [wp_bind, wp_gets, if_neg (by rw [hh.existP]; exact Bool.false_ne_true)]
      rfl
    | selectWindow id => exact state_of_wp (selectWindow_width id) hr
    | deleteWindow id => exact state_of_wp (deleteWindow_width hh.windowP) hr
    | deleteOtherWindows =>
      refine state_of_wp (P := fun s' => s'.srSpeedbarWidth = s.srSpeedbarWidth) ?_ hr
      exact wp_mono (wp_deleteOtherWindows hs.framed) (fun _ _ h => h.2.2.2 hh.windowP) fun _ _ h => h.elim
    | otherWindow count n =>
      obtain ⟨id, -, rfl⟩ := selected_otherWindow hs.framed hr
      rfl
    | refreshTurn activate =>
      cases hr
      rfl
    | refreshToggle =>
      cases hr
      rfl
    | killSpeedbar =>
      have hkilled : s'.bufferLive = false :=
        state_of_wp (wp_mono (wp_killSpeedbar hs) (fun _ _ h => h.2) fun _ _ h => h.elim) hr
      rw [hkilled] at hl
      cases hl

/-- While the speedbar is hidden, its width stays remembered. -/
theorem width_hidden (hside : o.rightSide = true) (hs : Valid o s) (hl : s.bufferLive = true) {es : List Event}
    (h : Runs (HiddenStep o em) s es s') :
    Valid o s' ∧ s'.bufferLive = true ∧ s'.srSpeedbarWidth = s.srSpeedbarWidth := by
  apply h.invariant fun t => Valid o t ∧ t.bufferLive = true ∧ t.srSpeedbarWidth = s.srSpeedbarWidth
  · exact ⟨hs, hl, rfl⟩
  · rintro t e t' ⟨ht, -, hw⟩ hstep
    exact ⟨ht.step hside hstep.2.1, hstep.2.2, (width_step hside ht hstep).trans hw⟩

/-- Closing the speedbar remembers the width of its window. -/
theorem closed_width {w : Window} (hs : Valid o s) (hex : existP s = true) (hw : w ∈ s.windows)
    (hwin : s.srSpeedbarWindow = some w.id) (hwidth : 1 < w.width ∧ w.width ≤ o.maxWidth) :
    (s.closed o em w.id).srSpeedbarWidth = w.width := by
  have hcur : State.current { s with selectedWindow := w.id } = some w :=
    (hs.of_narrows (narrows_selected (o := o) (existP_live hex hwin))).framed.current_eq hw rfl
  have hsp : w.speedbar = true := (hs.shown (bufferLive_of_existP hex) w.plain (List.mem_map_of_mem hw) hwin).1
  have htake : currentWindowTakeWidth { s with selectedWindow := w.id } = w.width := by
    rw [currentWindowTakeWidth, hcur]
    rfl
  have hremember : (State.remembered o { s with selectedWindow := w.id }).srSpeedbarWidth = w.width := by
    unfold State.remembered
    rw [htake, if_pos ⟨by rw [windowP, hcur]; exact hsp, hwidth⟩]
  unfold State.closed
  split
  · exact hremember
  · exact hremember

/-- The speedbar comes back with the width that it had when it was closed, whatever happens while it is hidden. -/
theorem width_run (hside : o.rightSide = true) (hdel : o.deleteWindows = false) {start s₁ s₂ s₃ : State}
    (hstart : Start o start) {es hidden : List Event} (hrun : Runs (Step o em) start es s) (hex : existP s = true)
    {w : Window} (hw : w ∈ s.windows) (hwin : s.srSpeedbarWindow = some w.id)
    (hwidth : 1 < w.width ∧ w.width ≤ o.maxWidth) (hclose : srSpeedbarToggle o em s = some (.ok (), s₁))
    (hhidden : Runs (HiddenStep o em) s₁ hidden s₂) (hex₂ : existP s₂ = false)
    (hroom : w.width < currentWindowTakeWidth s₂) (hopen : srSpeedbarToggle o em s₂ = some (.ok (), s₃)) :
    ∃ v ∈ s₃.windows, s₃.srSpeedbarWindow = some v.id ∧ v.width = w.width := by
  have hs := (valid_start hstart).of_run hside hrun
  have hlive := existP_live hex hwin
  have hlen : 1 < s.windows.length := by
    by_contra hlen
    rw [toggle_of_open hex, srSpeedbarClose_sole hex hwin (Nat.not_lt.1 hlen)] at hclose
    cases hclose
  rw [toggle_of_open hex, srSpeedbarClose_ok hs.framed hex hwin hlen] at hclose
  obtain rfl : s.closed o em w.id = s₁ := (Prod.mk.inj (Option.some.inj hclose)).2
  have hbuf : (s.closed o em w.id).bufferLive = true := by
    rw [closed_bufferLive]
    exact bufferLive_of_existP hex
  have hs₁ : Valid o (s.closed o em w.id) := hs.of_narrows (narrows_closed hs.framed hlive hlen)
  obtain ⟨hs₂, hl₂, hw₂⟩ := width_hidden hside hs₁ hbuf hhidden
  rw [closed_width hs hex hw hwin hwidth] at hw₂
  rw [toggle_of_closed hex₂] at hopen
  obtain ⟨s₀, left, right, hcl, hopened⟩ := (wp_of_eq_ok hopen).1 (wp_srSpeedbarOpen hside hs₂.framed hex₂)
  obtain rfl := hcl.eq_of_keep hdel
  have hbuf₂ : bufferExistP s₀ = true := by
    rw [bufferExistP, hs₂.wired.buffer, hl₂]
    rfl
  have hsplit := hopened.split
  rw [widthToOpen_width hbuf₂ hopened.width, hw₂] at hsplit
  have hright : right = w.width := by
    have := em.split_eq _ _ _ (by omega) hsplit
    rw [Prod.mk.injEq] at this
    omega
  refine ⟨⟨s₀.nextId, true, true, right⟩, ?_, hopened.srSpeedbarWindow, hright⟩
  rw [hopened.windows, (insertAfter_perm _).mem_iff]
  · exact List.mem_cons_self
  · obtain ⟨v, hv, hid, -⟩ := hs₂.framed.exists_current
    refine ⟨_, List.mem_map_of_mem hv, ?_⟩
    split
    · exact hid
    · exact hid

/-- The user has made the speedbar wider. -/
def widerSpeedbar : State :=
  { withSpeedbar with windows := [⟨0, false, false, 40⟩, ⟨1, true, true, 40⟩] }

theorem run_widerSpeedbar :
    Runs (Step sidebarOptions narrowFrame) oneWindow [.command .toggle, .change] widerSpeedbar :=
  .snoc run_withSpeedbar
    { state := rfl
      framed := ⟨by decide, by decide, rfl⟩
      nextId := by decide
      old := by decide
      dedicated := by decide
      showing := by decide }

/-- The speedbar has been closed. -/
def hiddenSpeedbar : State :=
  { widerSpeedbar with windows := [⟨0, false, false, 80⟩], srSpeedbarWidth := 40 }

/-- The refresh has been turned off. -/
def withoutRefresh : State :=
  { hiddenSpeedbar with autoRefresh := false, hooks := fun h => if h = .timer then false else hiddenSpeedbar.hooks h }

theorem run_withoutRefresh :
    Runs (HiddenStep sidebarOptions narrowFrame) hiddenSpeedbar [.command .refreshToggle] withoutRefresh :=
  .snoc .nil ⟨⟨rfl, rfl, rfl⟩, ⟨.ok (), rfl⟩, rfl⟩

theorem width_run_widerSpeedbar :
    ∃ s, srSpeedbarToggle sidebarOptions narrowFrame withoutRefresh = some (.ok (), s) ∧
      ∃ v ∈ s.windows, s.srSpeedbarWindow = some v.id ∧ v.width = 40 :=
  ⟨_, rfl, width_run (w := ⟨1, true, true, 40⟩) rfl rfl start_oneWindow run_widerSpeedbar rfl (by simp [widerSpeedbar])
    rfl (by decide) rfl run_withoutRefresh rfl (by decide) rfl⟩

/-! ### Other windows -/

/-- The place of the selected window. -/
theorem findIdx_of_getElem (hs : Framed s) {k : Nat} (hk : k < s.windows.length)
    (hid : s.windows[k].id = s.selectedWindow) : (s.windows.findIdx fun w => w.id = s.selectedWindow) = k := by
  rw [List.findIdx_eq hk]
  refine ⟨decide_eq_true hid, fun j hj => decide_eq_false fun he => ?_⟩
  have hk' : k < (s.windows.map Window.id).length := by rwa [List.length_map]
  have hj' : j < (s.windows.map Window.id).length := Nat.lt_trans hj hk'
  have hids : (s.windows.map Window.id)[j] = (s.windows.map Window.id)[k] := by
    rw [List.getElem_map, List.getElem_map, he, hid]
  have hnodup := map_id_plain s ▸ hs.nodup
  exact absurd (hnodup.getElem_inj_iff.1 hids) (Nat.ne_of_lt hj)

theorem exists_place (hs : Framed s) : ∃ k, ∃ hk : k < s.windows.length, s.windows[k].id = s.selectedWindow := by
  obtain ⟨w, hw, hid, -⟩ := hs.exists_current
  obtain ⟨k, hk, rfl⟩ := List.getElem_of_mem hw
  exact ⟨k, hk, hid⟩

/-- The window that is `count` places further in the cyclic order. -/
theorem nextWindow_of_place (hs : Framed s) {k : Nat} (hk : k < s.windows.length)
    (hid : s.windows[k].id = s.selectedWindow) (count : Int) :
    ∃ j, ∃ hj : j < s.windows.length, (j : Int) = (k + count) % s.windows.length ∧
      s.windows[j].id = s.nextWindow count := by
  have hpos : (0 : Int) < s.windows.length := by omega
  have hnonneg := Int.emod_nonneg ((k : Int) + count) (Int.ne_of_gt hpos)
  have hlt := Int.emod_lt_of_pos ((k : Int) + count) hpos
  have hj : (((k : Int) + count) % s.windows.length).toNat < s.windows.length := by omega
  refine ⟨_, hj, Int.toNat_of_nonneg hnonneg, ?_⟩
  unfold State.nextWindow
  rw [findIdx_of_getElem hs hk hid]
  dsimp only
  rw [List.getElem?_eq_getElem hj]

/-- Going round takes one back to the same window. -/
theorem nextWindow_eq_iff (hs : Framed s) (count : Int) :
    s.nextWindow count = s.selectedWindow ↔ (s.windows.length : Int) ∣ count := by
  obtain ⟨k, hk, hid⟩ := exists_place hs
  obtain ⟨j, hj, hjk, hnext⟩ := nextWindow_of_place hs hk hid count
  have hround : ((k : Int) + count) % s.windows.length = k ↔ (s.windows.length : Int) ∣ count := by
    rw [Int.emod_eq_iff (by omega), ← Int.dvd_neg, show -((k : Int) - (k + count)) = count by omega]
    constructor
    · exact fun h => h.2.2
    · exact fun h => ⟨by omega, by omega, h⟩
  rw [← hround, ← hjk, ← hnext]
  constructor
  · intro h
    have := (findIdx_of_getElem hs hj h).symm.trans (findIdx_of_getElem hs hk hid)
    omega
  · intro h
    obtain rfl : j = k := by omega
    exact hid

/-- Two moves in the cyclic order are one move. -/
theorem nextWindow_nextWindow (hs : Framed s) (count count' : Int) :
    State.nextWindow { s with selectedWindow := s.nextWindow count } count' = s.nextWindow (count + count') := by
  obtain ⟨k, hk, hid⟩ := exists_place hs
  obtain ⟨j, hj, hjk, hnext⟩ := nextWindow_of_place hs hk hid count
  obtain ⟨i, hi, hik, hnext'⟩ := nextWindow_of_place hs hk hid (count + count')
  have hs' : Framed { s with selectedWindow := s.nextWindow count } := ⟨hs.nodup, hs.lt, nextWindow_live hs count⟩
  obtain ⟨i', hi', hik', hnext''⟩ := nextWindow_of_place hs' hj hnext count'
  obtain rfl : i = i' := by
    have : (i : Int) = i' := by
      rw [hik, hik']
      show _ = ((j : Int) + count') % s.windows.length
      rw [hjk, Int.emod_add_emod, Int.add_assoc]
    omega
  exact hnext''.symm.trans hnext'

/-- With the advice, `other-window` never leaves one in the speedbar, but from the speedbar it does not return when
`count` goes round all windows. -/
theorem other_window_run (hside : o.rightSide = true) {start : State} (hstart : Start o start) {es : List Event}
    (hrun : Runs (Step o em) start es s) {n : Nat} (hwin : s.srSpeedbarWindow = some n) (hlive : s.live n = true)
    (hadvice : s.otherWindowAdvice = true) (count : Int) :
    (s.selectedWindow = n ∧ (s.windows.length : Int) ∣ count → ∀ k, otherWindow count k s = none) ∧
    (¬ (s.selectedWindow = n ∧ (s.windows.length : Int) ∣ count) → ∃ id, id ≠ n ∧ s.live id = true ∧
      (id = s.nextWindow count ∨ s.nextWindow count = n ∧ id = s.nextWindow (count + count)) ∧
      ∀ k, otherWindow count (k + 2) s = some (.ok (), { s with selectedWindow := id })) := by
  have hs := ((valid_start hstart).of_run hside hrun).framed
  have hskips : ∀ id, State.skips { s with selectedWindow := id } = decide (n = id) := by
    intro id
    have hex : windowExistP { s with selectedWindow := id } s.srSpeedbarWindow = true :=
      windowExistP_iff.2 ⟨n, hwin, hlive⟩
    show (s.otherWindowAdvice && windowExistP { s with selectedWindow := id } s.srSpeedbarWindow &&
      decide (s.srSpeedbarWindow = some id)) = decide (n = id)
    rw [hex, hadvice, Bool.true_and, Bool.true_and, decide_eq_decide, hwin, Option.some.injEq]
  constructor
  · rintro ⟨rfl, hdvd⟩ k
    have hnext := (nextWindow_eq_iff hs count).2 hdvd
    induction k with
    | zero => rfl
    | succ k ih => rw [otherWindow_succ, hskips, hnext, decide_eq_true rfl, if_pos rfl, ih]
  · intro hnot
    by_cases hfirst : s.nextWindow count = n
    · -- The first move ends in the speedbar, and the second one leaves it.
      have hs' : Framed { s with selectedWindow := s.nextWindow count } := ⟨hs.nodup, hs.lt, nextWindow_live hs count⟩
      have hsecond : s.nextWindow (count + count) ≠ n := by
        intro he
        rw [← nextWindow_nextWindow hs, ← hfirst] at he
        have hdvd := (nextWindow_eq_iff hs' count).1 he
        exact hnot ⟨((nextWindow_eq_iff hs count).2 hdvd).symm.trans hfirst, hdvd⟩
      refine ⟨_, hsecond, nextWindow_live hs _, Or.inr ⟨hfirst, rfl⟩, fun k => ?_⟩
      rw [otherWindow_succ, hskips, decide_eq_true hfirst.symm, if_pos rfl, otherWindow_succ,
        nextWindow_nextWindow hs]
      rw [show State.skips { s with selectedWindow := s.nextWindow (count + count) } = false by
        rw [hskips, decide_eq_false (Ne.symm hsecond)]]
      rfl
    · refine ⟨_, hfirst, nextWindow_live hs count, Or.inl rfl, fun k => ?_⟩
      rw [otherWindow_succ, hskips, decide_eq_false (Ne.symm hfirst)]
      rfl

theorem other_window_run_withSpeedbar :
    (∃ id, id ≠ 1 ∧ withSpeedbar.live id = true ∧
      (id = withSpeedbar.nextWindow 1 ∨ withSpeedbar.nextWindow 1 = 1 ∧ id = withSpeedbar.nextWindow 2) ∧
      ∀ k, otherWindow 1 (k + 2) withSpeedbar = some (.ok (), { withSpeedbar with selectedWindow := id })) :=
  (other_window_run rfl start_oneWindow run_withSpeedbar rfl rfl rfl 1).2 (by decide)

end SrSpeedbar

end EmacsDir
