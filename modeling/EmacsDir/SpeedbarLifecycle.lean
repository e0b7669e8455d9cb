import EmacsDir.Runs
import EmacsDir.SpeedbarFrame

/-!
# The lifecycle of the speedbar

Commands follow each other in any order, and between them the user changes the frame.  In every state that is reached
(`Valid`) the timer and the hooks are on exactly while the buffer of the speedbar is alive, a speedbar window that exists
shows the speedbar and is dedicated to it, and the remembered width is within its bounds.
-/

namespace EmacsDir

open Command

namespace SrSpeedbar

/-! ### Commands and changes -/

/-- The commands.  `otherWindow` has the bound on the depth of its calls. -/
inductive Action
  | toggle
  | openSpeedbar
  | closeSpeedbar
  | selectSpeedbar
  | selectWindow (id : Nat)
  | deleteWindow (id : Nat)
  | deleteOtherWindows
  | otherWindow (count : Int) (n : Nat)
  | refreshTurn (activate : Bool)
  | refreshToggle
  | killSpeedbar

def Action.perform (o : Options) (em : Emacs) : Action → Command WindowSignal State Unit
  | .toggle => srSpeedbarToggle o em
  | .openSpeedbar => srSpeedbarOpen o em
  | .closeSpeedbar => srSpeedbarClose o em
  | .selectSpeedbar => srSpeedbarSelectWindow
  | .selectWindow id => SrSpeedbar.selectWindow id
  | .deleteWindow id => SrSpeedbar.deleteWindow o em id
  | .deleteOtherWindows => SrSpeedbar.deleteOtherWindows o em
  | .otherWindow count n => SrSpeedbar.otherWindow count n
  | .refreshTurn activate => SrSpeedbar.refreshTurn activate
  | .refreshToggle => SrSpeedbar.refreshToggle
  | .killSpeedbar => SrSpeedbar.killSpeedbar o em

/-- The user splits, resizes and selects windows and shows buffers in them, and other code deletes windows.  A window that
has been deleted does not come back, a dedicated one keeps its buffer, and the speedbar can be shown while its buffer is
alive. -/
structure Changed (s s' : State) : Prop where
  state : s' = { s with windows := s'.windows, selectedWindow := s'.selectedWindow, nextId := s'.nextId }
  framed : Framed s'
  nextId : s.nextId ≤ s'.nextId
  old : ∀ w ∈ s'.plain, w.id < s.nextId → s.live w.id = true
  dedicated : ∀ w ∈ s.plain, w.dedicated = true → ∀ w' ∈ s'.plain, w'.id = w.id → w' = w
  showing : ∀ w ∈ s'.plain, w.speedbar = true → s.bufferLive = true

inductive Event
  | command (a : Action)
  | change

/-- A command runs until it returns or signals an error. -/
def Step (o : Options) (em : Emacs) (s : State) : Event → State → Prop
  | .command a, s' => ∃ r, a.perform o em s = some (r, s')
  | .change, s' => Changed s s'

/-- A frame, before the package has been used. -/
structure Start (o : Options) (s : State) : Prop where
  framed : Framed s
  state : s =
    { windows := s.windows
      selectedWindow := s.selectedWindow
      nextId := s.nextId
      bufferLive := false
      speedbarBuffer := false
      speedbarFrame := false
      timer := false
      hooks := fun _ => false
      srSpeedbarWindow := none
      srSpeedbarWidth := o.defaultWidth
      autoRefresh := s.autoRefresh
      otherWindowAdvice := false }
  showing : ∀ w ∈ s.plain, w.speedbar = false

/-! ### The invariant -/

/-- What is on while the buffer of the speedbar is alive. -/
structure Wired (s : State) : Prop where
  buffer : s.speedbarBuffer = s.bufferLive
  frame : s.speedbarFrame = s.bufferLive
  timer : s.timer = s.bufferLive
  visits : ∀ h, Hook.visits h = true → s.hooks h = s.bufferLive
  kill : s.bufferLive = true → s.hooks .killBuffer = true
  refresh : s.hooks .timer = true → s.autoRefresh = true
  refresh_live : s.bufferLive = true → s.hooks .timer = s.autoRefresh

/-- The frame and the speedbar window do not matter. -/
theorem Wired.reframe {s : State} (h : Wired s) (windows : List Window) (selectedWindow nextId : Nat)
    (srSpeedbarWindow : Option Nat) (srSpeedbarWidth : Nat) (otherWindowAdvice : Bool) :
    Wired
      { s with
        windows := windows
        selectedWindow := selectedWindow
        nextId := nextId
        srSpeedbarWindow := srSpeedbarWindow
        srSpeedbarWidth := srSpeedbarWidth
        otherWindowAdvice := otherWindowAdvice } :=
  ⟨h.buffer, h.frame, h.timer, h.visits, h.kill, h.refresh, h.refresh_live⟩

/-- The invariant. -/
structure Valid (o : Options) (s : State) : Prop where
  framed : Framed s
  window : ∀ id, s.srSpeedbarWindow = some id → id < s.nextId
  wired : Wired s
  width : s.srSpeedbarWidth = o.defaultWidth ∨ 1 < s.srSpeedbarWidth ∧ s.srSpeedbarWidth ≤ o.maxWidth
  showing : ∀ w ∈ s.plain, w.speedbar = true → s.bufferLive = true
  shown : s.bufferLive = true → ∀ w ∈ s.plain, s.srSpeedbarWindow = some w.id → w.speedbar = true ∧ w.dedicated = true

theorem valid_start {o : Options} {s : State} (h : Start o s) : Valid o s where
  framed := h.framed
  window := by
    rw [h.state]
    exact fun _ h => by cases h
  wired := by
    rw [h.state]
    exact ⟨rfl, rfl, rfl, fun _ _ => rfl, fun h => h, fun h => absurd h Bool.false_ne_true,
      fun h => absurd h Bool.false_ne_true⟩
  width := by
    rw [h.state]
    exact Or.inl rfl
  showing := fun w hw hs => absurd ((h.showing w hw).symm.trans hs) Bool.false_ne_true
  shown := by
    rw [h.state]
    exact fun hl => absurd hl Bool.false_ne_true

section Keep

variable {o : Options} {em : Emacs} {s s' : State}

/-- Commands that drop windows. -/
theorem Valid.of_narrows (hs : Valid o s) (h : Narrows o s s') : Valid o s' where
  framed := hs.framed.of_narrows h
  window := by
    rw [h.state]
    exact hs.window
  wired := by
    rw [h.state]
    exact hs.wired.reframe _ _ _ _ _ _
  width := by
    rcases h.width with he | hw
    · rw [he]
      exact hs.width
    · exact Or.inr hw
  showing := by
    rw [h.state]
    exact fun w hw => hs.showing w (h.windows.subset hw)
  shown := by
    rw [h.state]
    exact fun hl w hw => hs.shown hl w (h.windows.subset hw)

theorem Valid.of_changed (hs : Valid o s) (h : Changed s s') : Valid o s' where
  framed := h.framed
  window := fun id hid => by
    rw [h.state] at hid
    exact Nat.lt_of_lt_of_le (hs.window id hid) h.nextId
  wired := by
    rw [h.state]
    exact hs.wired.reframe _ _ _ _ _ _
  width := by
    rw [h.state]
    exact hs.width
  showing := fun w hw hsp => by
    rw [h.state]
    exact h.showing w hw hsp
  shown := by
    intro hl w hw hid
    rw [h.state] at hl hid
    -- The window is an old one, and it was dedicated.
    obtain ⟨v, hv, hvid⟩ := live_iff.1 (h.old w hw (hs.window w.id hid))
    have hshown := hs.shown hl v hv (by rw [hvid]; exact hid)
    obtain rfl := h.dedicated v hv hshown.2 w hw hvid.symm
    exact hshown

/-- The other variables do not matter. -/
theorem Valid.readvise (hs : Valid o s) (otherWindowAdvice : Bool) :
    Valid o { s with otherWindowAdvice := otherWindowAdvice } :=
  ⟨⟨hs.framed.nodup, hs.framed.lt, hs.framed.selected⟩, hs.window, hs.wired.reframe _ _ _ _ _ _, hs.width, hs.showing,
    hs.shown⟩

theorem Valid.rewidth (hs : Valid o s) {width : Nat}
    (hw : width = o.defaultWidth ∨ 1 < width ∧ width ≤ o.maxWidth) : Valid o { s with srSpeedbarWidth := width } :=
  ⟨⟨hs.framed.nodup, hs.framed.lt, hs.framed.selected⟩, hs.window, hs.wired.reframe _ _ _ _ _ _, hw, hs.showing, hs.shown⟩

theorem narrows_selected {id : Nat} (hlive : s.live id = true) : Narrows o s { s with selectedWindow := id } :=
  ⟨rfl, List.Sublist.refl _, fun _ => hlive, Or.inl rfl⟩

theorem nextWindow_live (hs : Framed s) (count : Int) : s.live (s.nextWindow count) = true := by
  unfold State.nextWindow
  dsimp only
  split
  · rename_i w hw
    exact List.any_eq_true.2 ⟨w, List.mem_of_getElem? hw, decide_eq_true rfl⟩
  · exact hs.selected

/-- The test of the advice on `other-window`. -/
def State.skips (s : State) : Bool :=
  s.otherWindowAdvice && windowExistP s s.srSpeedbarWindow && decide (s.srSpeedbarWindow = some s.selectedWindow)

theorem otherWindow_succ (count : Int) (n : Nat) (s : State) :
    otherWindow count (n + 1) s =
      if State.skips { s with selectedWindow := s.nextWindow count } then
        otherWindow count n { s with selectedWindow := s.nextWindow count }
      else some (.ok (), { s with selectedWindow := s.nextWindow count }) := by
  show when (State.skips { s with selectedWindow := s.nextWindow count }) (otherWindow count n) _ = _
  unfold when
  split <;> rfl

/-- `other-window` selects a window that is there. -/
theorem selected_otherWindow {count : Int} {n : Nat} {r : Except WindowSignal Unit} (hs : Framed s)
    (h : otherWindow count n s = some (r, s')) : ∃ id, s.live id = true ∧ s' = { s with selectedWindow := id } := by
  induction n generalizing s with
  | zero => cases h
  | succ n ih =>
    have hlive := nextWindow_live hs count
    rw [otherWindow_succ] at h
    split at h
    · obtain ⟨id, hid, rfl⟩ := ih (s := { s with selectedWindow := s.nextWindow count }) ⟨hs.nodup, hs.lt, hlive⟩ h
      exact ⟨id, hid, rfl⟩
    · cases h
      exact ⟨_, hlive, rfl⟩

theorem narrows_closed {n : Nat} (hs : Framed s) (hlive : s.live n = true) (hlen : 1 < s.windows.length) :
    Narrows o s (s.closed o em n) := by
  have hdeleted : Narrows o s ((State.remembered o { s with selectedWindow := n }).deleted em n) :=
    (narrows_selected hlive).trans (narrows_deleted (hs.of_narrows (narrows_selected (o := o) hlive)) hlen)
  unfold State.closed
  split
  · exact hdeleted
  · rename_i hne
    apply hdeleted.trans
    apply narrows_selected
    obtain ⟨w, hw, hid⟩ := live_iff.1 hs.selected
    refine live_iff.2 ⟨w, mem_deleted_plain.2 ⟨?_, by rwa [hid]⟩, hid⟩
    rwa [remembered_plain]

theorem wp_srSpeedbarClose (hs : Framed s) :
    wp (srSpeedbarClose o em) (fun _ s' => Narrows o s s') (fun _ s' => Narrows o s s') s := by
  by_cases hex : existP s = true
  · obtain ⟨n, hwin⟩ : ∃ n, s.srSpeedbarWindow = some n := by
      rw [existP, Bool.and_eq_true] at hex
      obtain ⟨n, hn, -⟩ := windowExistP_iff.1 hex.2
      exact ⟨n, hn⟩
    have hlive := existP_live hex hwin
    by_cases hlen : 1 < s.windows.length
    · rw [wp_of_eq_ok (srSpeedbarClose_ok hs hex hwin hlen)]
      exact narrows_closed hs hlive hlen
    · rw [wp_of_eq_error (srSpeedbarClose_sole hex hwin (Nat.not_lt.1 hlen))]
      exact (narrows_selected hlive).trans (narrows_remembered o _)
  · unfold srSpeedbarClose
    rw [wp_bind, wp_gets, if_neg hex]
    exact Narrows.refl o s

theorem Valid.of_cleared (hs : Valid o s) (hcl : Cleared o s s') : Valid o s' := hs.of_narrows hcl.narrows

theorem Valid.width_to_open {width : Nat} (hs : Valid o s) (h : WidthToOpen o s width) :
    width = o.defaultWidth ∨ 1 < width ∧ width ≤ o.maxWidth := by
  rcases h with rfl | ⟨-, rfl⟩
  · exact hs.width
  · exact Or.inl rfl

theorem Wired.withBuffer (h : Wired s) : Wired s.withBuffer ∧ s.withBuffer.bufferLive = true := by
  unfold State.withBuffer
  split
  · rename_i hbuf
    rw [bufferExistP, Bool.and_eq_true] at hbuf
    exact ⟨h, hbuf.2⟩
  · refine ⟨⟨rfl, rfl, rfl, fun k hk => ?_, fun _ => rfl, fun hr => hr, fun _ => rfl⟩, rfl⟩
    show (if k = Hook.timer then s.autoRefresh else k.visits || k = .killBuffer || s.hooks k) = true
    have hne : k ≠ Hook.timer := fun he => by rw [he] at hk; cases hk
    rw [if_neg hne, hk]
    rfl

theorem Valid.of_opened {s₁ : State} {left right : Nat} (hs : Valid o s) (hcl : Cleared o s s₁)
    (h : Opened o em s s₁ s' left right) : Valid o s' := by
  have hlive : s'.bufferLive = true := by
    rw [h.state]
    exact hs.wired.withBuffer.2
  refine ⟨h.framed hs.framed hcl, ?_, ?_, (hs.of_cleared hcl).width_to_open h.width, fun _ _ _ => hlive, ?_⟩
  · intro id hid
    rw [h.srSpeedbarWindow] at hid
    rw [h.nextId, ← Option.some.inj hid]
    exact Nat.lt_succ_self _
  · rw [h.state]
    exact hs.wired.withBuffer.1.reframe _ _ _ _ _ _
  · intro _ w hw hid
    rw [h.srSpeedbarWindow] at hid
    obtain rfl := (h.framed hs.framed hcl).eq_of_id hw (h.mem hs.framed hcl) (Option.some.inj hid).symm
    exact ⟨rfl, rfl⟩

theorem Valid.of_refused {s₁ : State} (hs : Valid o s) (hcl : Cleared o s s₁) (h : Refused o s s₁ s') :
    Valid o s' := by
  rw [h.state]
  exact ((hs.of_cleared hcl).rewidth ((hs.of_cleared hcl).width_to_open h.width)).readvise _

end Keep

/-! ### Killing the buffer -/

/-- The frame may have lost windows, and others show another buffer. -/
structure Shrinks (o : Options) (s s' : State) : Prop where
  state : s' =
    { s with windows := s'.windows, selectedWindow := s'.selectedWindow, srSpeedbarWidth := s'.srSpeedbarWidth }
  ids : (s'.plain.map Window.id).Sublist (s.plain.map Window.id)
  selected : s.live s.selectedWindow = true → s'.live s'.selectedWindow = true
  width : s'.srSpeedbarWidth = s.srSpeedbarWidth ∨ 1 < s'.srSpeedbarWidth ∧ s'.srSpeedbarWidth ≤ o.maxWidth

section Kill

variable {o : Options} {em : Emacs} {s s' : State}

theorem Narrows.shrinks (h : Narrows o s s') : Shrinks o s s' :=
  ⟨h.state, h.windows.map Window.id, h.selected, h.width⟩

theorem Shrinks.trans {s'' : State} (h : Shrinks o s s') (h' : Shrinks o s' s'') : Shrinks o s s'' where
  state := by
    rw [h'.state, h.state]
  ids := h'.ids.trans h.ids
  selected := fun hs => h'.selected (h.selected hs)
  width := by
    rcases h'.width with he | hw
    · rw [he]
      exact h.width
    · exact Or.inr hw

theorem Framed.of_shrinks (hs : Framed s) (h : Shrinks o s s') : Framed s' where
  nodup := hs.nodup.sublist h.ids
  lt := fun w hw => by
    obtain ⟨v, hv, hid⟩ := List.mem_map.1 (h.ids.subset (List.mem_map_of_mem hw))
    rw [← hid, h.state]
    exact hs.lt v hv
  selected := h.selected hs.selected

theorem live_iff_ids {id : Nat} : s.live id = true ↔ id ∈ s.plain.map Window.id := by
  rw [live_iff, List.mem_map]

/-- The window no longer shows the buffer. -/
def leave (id : Nat) (w : Window) : Window := if w.id = id then { w with speedbar := false, dedicated := false } else w

theorem leave_id (id : Nat) (w : Window) : (leave id w).id = w.id := by
  unfold leave
  split <;> rfl

theorem leave_plain (id : Nat) (w : Window) : (leave id w).plain = leave id w.plain := by
  unfold leave
  rw [plain_id]
  split <;> rfl

/-- A window that leaves the buffer. -/
structure Left (o : Options) (s s' : State) (id : Nat) : Prop where
  shrinks : Shrinks o s s'
  showing : ∀ w ∈ s'.plain, w.speedbar = true → w ∈ s.plain ∧ w.id ≠ id
  live : ∀ i, i ≠ id → s.live i = true → s'.live i = true

theorem wp_leaveWindow {win : Window} (hs : Framed s) (hlive : s.live win.id = true) :
    wp (leaveWindow o em win) (fun _ s' => Left o s s' win.id) (fun _ _ => False) s := by
  unfold leaveWindow
  rw [wp_bind, wp_gets]
  split
  · rename_i h
    rw [Bool.and_eq_true, decide_eq_true_eq] at h
    rw [wp_of_eq_ok (deleteWindow_ok hlive h.2)]
    refine ⟨(narrows_deleted hs h.2).shrinks, ?_, ?_⟩
    · intro w hw _
      rw [mem_deleted_plain, remembered_plain] at hw
      exact hw
    · intro i hne hi
      obtain ⟨w, hw, rfl⟩ := live_iff.1 hi
      refine live_iff.2 ⟨w, mem_deleted_plain.2 ⟨?_, hne⟩, rfl⟩
      rwa [remembered_plain]
  · rw [wp_update]
    have hplain : State.plain { s with windows := s.windows.map (leave win.id) } = s.plain.map (leave win.id) := by
      rw [State.plain, State.plain, List.map_map, List.map_map]
      exact List.map_congr_left fun w _ => leave_plain win.id w
    have hids : (State.plain { s with windows := s.windows.map (leave win.id) }).map Window.id = s.plain.map Window.id := by
      rw [hplain, List.map_map]
      exact List.map_congr_left fun w _ => leave_id win.id w
    have hlive : ∀ i, s.live i = true → State.live { s with windows := s.windows.map (leave win.id) } i = true := by
      intro i hi
      rwa [live_iff_ids, hids, ← live_iff_ids]
    refine ⟨⟨rfl, ?_, hlive _, Or.inl rfl⟩, ?_, fun i _ => hlive i⟩
    · exact hids ▸ List.Sublist.refl _
    · intro w hw hsp
      replace hw : w ∈ s.plain.map (leave win.id) := hplain ▸ hw
      obtain ⟨v, hv, rfl⟩ := List.mem_map.1 hw
      unfold leave at hsp ⊢
      split at hsp
      · cases hsp
      · rename_i hne
        rw [if_neg hne]
        exact ⟨hv, hne⟩

/-- No window that the loop has come to shows the buffer. -/
theorem wp_leaveBuffer (ws : List Window) (hs : Framed s) (hnodup : (ws.map Window.id).Nodup)
    (hlive : ∀ win ∈ ws, s.live win.id = true) :
    wp (leaveBuffer o em ws)
      (fun _ s' => Shrinks o s s' ∧
        ∀ w ∈ s'.plain, w.speedbar = true → w ∈ s.plain ∧ ∀ win ∈ ws, win.speedbar = true → w.id ≠ win.id)
      (fun _ _ => False) s := by
  induction ws generalizing s with
  | nil =>
    exact ⟨(Narrows.refl o s).shrinks, fun w hw _ => ⟨hw, fun win hwin => by cases hwin⟩⟩
  | cons win ws ih =>
    rw [List.map_cons, List.nodup_cons] at hnodup
    have hne : ∀ v ∈ ws, v.id ≠ win.id := fun v hv he => hnodup.1 (he ▸ List.mem_map_of_mem hv)
    unfold leaveBuffer
    rw [wp_bind]
    apply wp_when
    · intro hsp
      apply wp_mono (wp_leaveWindow hs (hlive win List.mem_cons_self)) _ fun _ _ h => h
      intro _ s₁ hleft
      have hlive₁ : ∀ v ∈ ws, s₁.live v.id = true := fun v hv =>
        hleft.live v.id (hne v hv) (hlive v (List.mem_cons_of_mem win hv))
      apply wp_mono (ih (hs.of_shrinks hleft.shrinks) hnodup.2 hlive₁) _ fun _ _ h => h
      rintro _ s' ⟨hshrinks, hshowing⟩
      refine ⟨hleft.shrinks.trans hshrinks, fun w hw hwsp => ?_⟩
      obtain ⟨hw₁, hws⟩ := hshowing w hw hwsp
      obtain ⟨hw, hwin⟩ := hleft.showing w hw₁ hwsp
      refine ⟨hw, fun v hv hvsp => ?_⟩
      rcases List.mem_cons.1 hv with rfl | hv
      · exact hwin
      · exact hws v hv hvsp
    · intro hsp
      apply wp_mono (ih hs hnodup.2 fun v hv => hlive v (List.mem_cons_of_mem win hv)) _ fun _ _ h => h
      rintro _ s' ⟨hshrinks, hshowing⟩
      refine ⟨hshrinks, fun w hw hwsp => ⟨(hshowing w hw hwsp).1, fun v hv hvsp => ?_⟩⟩
      rcases List.mem_cons.1 hv with rfl | hv
      · rw [hsp] at hvsp
        cases hvsp
      · exact (hshowing w hw hwsp).2 v hv hvsp

/-- The hook turns everything off but the refresh. -/
def State.unhooked (s : State) : State :=
  { s with
    speedbarFrame := false
    speedbarBuffer := false
    timer := false
    hooks := fun h => !h.visits && s.hooks h }

theorem Wired.unhooked (h : Wired s) : Wired { s.unhooked with bufferLive := false } where
  buffer := rfl
  frame := rfl
  timer := rfl
  visits := fun k hk => by
    show (!k.visits && s.hooks k) = false
    rw [hk]
    rfl
  kill := fun hl => by cases hl
  refresh := h.refresh
  refresh_live := fun hl => by cases hl

/-- Killing the buffer never fails, and leaves no window that shows the speedbar. -/
theorem wp_killSpeedbar (hs : Valid o s) :
    wp (killSpeedbar o em) (fun _ s' => Valid o s' ∧ s'.bufferLive = false) (fun _ _ => False) s := by
  unfold killSpeedbar
  rw [wp_bind, wp_gets]
  split
  · rename_i hl
    have hl : s.bufferLive = true := hl
    rw [wp_bind, wp_gets, hs.wired.kill hl, wp_bind, wp_when_true]
    unfold killBufferHook
    rw [wp_bind, wp_gets, hs.wired.buffer, hl, wp_when_true, wp_update, wp_bind, wp_gets, wp_bind]
    have hs₁ : Framed s.unhooked := ⟨hs.framed.nodup, hs.framed.lt, hs.framed.selected⟩
    have hlive : ∀ win ∈ s.windows, s.unhooked.live win.id = true := fun win hwin =>
      live_iff.2 ⟨win.plain, List.mem_map_of_mem hwin, rfl⟩
    apply wp_mono (wp_leaveBuffer (o := o) s.windows hs₁ (map_id_plain s ▸ hs.framed.nodup) hlive) _ fun _ _ h => h
    · rintro _ s' ⟨hshrinks, hshowing⟩
      rw [wp_update]
      have hnone : ∀ w ∈ s'.plain, w.speedbar = true → False := by
        intro w hw hsp
        obtain ⟨hw, hws⟩ := hshowing w hw hsp
        obtain ⟨v, hv, rfl⟩ := List.mem_map.1 hw
        exact hws v hv hsp rfl
      have hframed := hs₁.of_shrinks hshrinks
      refine ⟨⟨⟨hframed.nodup, hframed.lt, hframed.selected⟩, ?_, ?_, ?_, fun w hw hsp => (hnone w hw hsp).elim,
        fun hl => ?_⟩, rfl⟩
      · rw [hshrinks.state]
        exact hs.window
      · rw [hshrinks.state]
        exact hs.wired.unhooked.reframe _ _ _ _ _ _
      · rcases hshrinks.width with he | hw
        · show s'.srSpeedbarWidth = _ ∨ 1 < s'.srSpeedbarWidth ∧ s'.srSpeedbarWidth ≤ _
          rw [he]
          exact hs.width
        · exact Or.inr hw
      · cases hl
  · rename_i hl
    exact ⟨hs, Bool.eq_false_iff.2 hl⟩

end Kill

/-! ### Runs -/

section Runs

variable {o : Options} {em : Emacs} {s s' : State}

/-- However a command exits, the state it leaves is as its specification says. -/
theorem state_of_wp {c : Command WindowSignal State Unit} {P : State → Prop} {r : Except WindowSignal Unit}
    (h : wp c (fun _ => P) (fun _ => P) s) (hc : c s = some (r, s')) : P s' := by
  cases r with
  | ok a => exact (wp_of_eq_ok hc).1 h
  | error e => exact (wp_of_eq_error hc).1 h

theorem wp_valid_of_narrows {c : Command WindowSignal State Unit} (hs : Valid o s)
    (h : wp c (fun _ s' => Narrows o s s') (fun _ s' => Narrows o s s') s) :
    wp c (fun _ => Valid o) (fun _ => Valid o) s :=
  wp_mono h (fun _ _ h => hs.of_narrows h) fun _ _ h => hs.of_narrows h

theorem valid_open (hside : o.rightSide = true) (hs : Valid o s) :
    wp (srSpeedbarOpen o em) (fun _ => Valid o) (fun _ => Valid o) s := by
  by_cases hex : existP s = true
  · unfold srSpeedbarOpen
    rw [wp_bind, wp_gets, if_pos hex]
    exact hs
  · apply wp_mono (wp_srSpeedbarOpen hside hs.framed (Bool.eq_false_iff.2 hex))
    · rintro _ s' ⟨s₁, left, right, hcl, hopened⟩
      exact hs.of_opened hcl hopened
    · rintro _ s' ⟨-, s₁, hcl, hrefused⟩
      exact hs.of_refused hcl hrefused

theorem wp_selectWindow_narrows (id : Nat) :
    wp (selectWindow id) (fun _ s' => Narrows o s s') (fun _ s' => Narrows o s s') s := by
  unfold selectWindow
  rw [wp_bind, wp_gets]
  split
  · rename_i hlive
    exact narrows_selected hlive
  · exact Narrows.refl o s

theorem wp_srSpeedbarSelectWindow :
    wp srSpeedbarSelectWindow (fun _ s' => Narrows o s s') (fun _ s' => Narrows o s s') s := by
  unfold srSpeedbarSelectWindow
  rw [wp_bind, wp_gets]
  split
  · rw [wp_bind, wp_gets]
    split
    · exact wp_selectWindow_narrows _
    · exact Narrows.refl o s
  · exact Narrows.refl o s

/-- The refresh can be turned on and off whether the buffer exists or not. -/
theorem Valid.refreshed (hs : Valid o s) (activate : Bool) :
    Valid o { s with autoRefresh := activate, hooks := fun h => if h = .timer then activate else s.hooks h } := by
  refine ⟨⟨hs.framed.nodup, hs.framed.lt, hs.framed.selected⟩, hs.window, ?_, hs.width, hs.showing, hs.shown⟩
  refine ⟨hs.wired.buffer, hs.wired.frame, hs.wired.timer, fun k hk => ?_, hs.wired.kill, fun hr => hr, fun _ => rfl⟩
  show (if k = Hook.timer then activate else s.hooks k) = s.bufferLive
  have hne : k ≠ Hook.timer := fun he => by rw [he] at hk; cases hk
  rw [if_neg hne, hs.wired.visits k hk]

/-- Every command keeps the invariant, whether it returns or signals an error. -/
theorem Valid.perform (hside : o.rightSide = true) (hs : Valid o s) (a : Action) {r : Except WindowSignal Unit}
    (h : a.perform o em s = some (r, s')) : Valid o s' := by
  cases a with
  | toggle =>
    apply state_of_wp _ h
    show wp (srSpeedbarToggle o em) _ _ s
    unfold srSpeedbarToggle
    rw [wp_bind, wp_gets]
    split
    · exact wp_valid_of_narrows hs (wp_srSpeedbarClose hs.framed)
    · exact valid_open hside hs
  | openSpeedbar => exact state_of_wp (valid_open hside hs) h
  | closeSpeedbar => exact state_of_wp (wp_valid_of_narrows hs (wp_srSpeedbarClose hs.framed)) h
  | selectSpeedbar => exact state_of_wp (wp_valid_of_narrows hs wp_srSpeedbarSelectWindow) h
  | selectWindow id => exact state_of_wp (wp_valid_of_narrows hs (wp_selectWindow_narrows id)) h
  | deleteWindow id => exact state_of_wp (wp_valid_of_narrows hs (wp_deleteWindow hs.framed)) h
  | deleteOtherWindows =>
    refine state_of_wp (wp_valid_of_narrows hs ?_) h
    exact wp_mono (wp_deleteOtherWindows hs.framed) (fun _ _ h => h.1) fun _ _ h => h.elim
  | otherWindow count n =>
    obtain ⟨id, hid, rfl⟩ := selected_otherWindow hs.framed h
    exact hs.of_narrows (narrows_selected hid)
  | refreshTurn activate =>
    cases h
    exact hs.refreshed activate
  | refreshToggle =>
    cases h
    exact hs.refreshed (!s.autoRefresh)
  | killSpeedbar =>
    exact state_of_wp (wp_mono (wp_killSpeedbar hs) (fun _ _ h => h.1) fun _ _ h => h.elim) h

theorem Valid.step (hside : o.rightSide = true) (hs : Valid o s) {e : Event} (h : Step o em s e s') : Valid o s' := by
  cases e with
  | command a =>
    obtain ⟨r, hr⟩ := h
    exact hs.perform hside a hr
  | change => exact hs.of_changed h

theorem Valid.of_run (hside : o.rightSide = true) (hs : Valid o s) {es : List Event} (h : Runs (Step o em) s es s') :
    Valid o s' :=
  h.invariant (Valid o) hs fun _ _ _ hs hstep => hs.step hside hstep

theorem exists_of_existP (hex : existP s = true) : ∃ n, s.srSpeedbarWindow = some n ∧ s.live n = true := by
  rw [existP, Bool.and_eq_true] at hex
  exact windowExistP_iff.1 hex.2

theorem bufferLive_of_existP (hex : existP s = true) : s.bufferLive = true := by
  rw [existP, Bool.and_eq_true, bufferExistP, Bool.and_eq_true] at hex
  exact hex.1.2

/-- After every run the timer and the hooks for visits are on exactly while the buffer is alive, the refresh is on as the
user has asked for it, the speedbar is in a window of its own whenever it exists, and its width is within the bounds. -/
theorem lifecycle_run (hside : o.rightSide = true) {start : State} (hstart : Start o start) {es : List Event}
    (h : Runs (Step o em) start es s) :
    (s.speedbarBuffer = s.bufferLive ∧ s.speedbarFrame = s.bufferLive ∧ s.timer = s.bufferLive ∧
      ∀ k, Hook.visits k = true → s.hooks k = s.bufferLive) ∧
    (s.bufferLive = true → s.hooks .killBuffer = true ∧ s.hooks .timer = s.autoRefresh) ∧
    (existP s = true → ∃ w ∈ s.windows, s.srSpeedbarWindow = some w.id ∧ w.speedbar = true ∧ w.dedicated = true) ∧
    (s.srSpeedbarWidth = o.defaultWidth ∨ 1 < s.srSpeedbarWidth ∧ s.srSpeedbarWidth ≤ o.maxWidth) := by
  have hs : Valid o s := (valid_start hstart).of_run hside h
  refine ⟨⟨hs.wired.buffer, hs.wired.frame, hs.wired.timer, hs.wired.visits⟩,
    fun hl => ⟨hs.wired.kill hl, hs.wired.refresh_live hl⟩, fun hex => ?_, hs.width⟩
  obtain ⟨n, hwin, hlive⟩ := exists_of_existP hex
  obtain ⟨_, hplain, rfl⟩ := live_iff.1 hlive
  have hshown := hs.shown (bufferLive_of_existP hex) _ hplain hwin
  obtain ⟨w, hw, rfl⟩ := List.mem_map.1 hplain
  exact ⟨w, hw, hwin, hshown⟩

/-- A frame of 80 columns, in which a window needs 10. -/
def narrowFrame : Emacs where
  split := fun width size =>
    if 10 ≤ size ∧ size + 10 ≤ width then some (size.toNat, (width - size).toNat) else none
  split_eq := by
    intro width size p _ h
    split at h
    · exact (Option.some.inj h).symm
    · cases h
  reflow := fun ws id => if ws.length = 1 then 80 else ((ws.find? fun w => w.id = id).map Window.width).getD 0
  next := fun ws => (ws.head?.map Window.id).getD 0
  next_mem := by
    intro ws hws
    match ws, hws with
    | w :: ws, _ => exact ⟨w, List.mem_cons_self, rfl⟩

/-- The options, with windows that `other-window` skips. -/
def sidebarOptions : Options := ⟨35, 50, true, false, true⟩

def oneWindow : State where
  windows := [⟨0, false, false, 80⟩]
  selectedWindow := 0
  nextId := 1
  bufferLive := false
  speedbarBuffer := false
  speedbarFrame := false
  timer := false
  hooks := fun _ => false
  srSpeedbarWindow := none
  srSpeedbarWidth := 35
  autoRefresh := true
  otherWindowAdvice := false

theorem start_oneWindow : Start sidebarOptions oneWindow where
  framed := ⟨by decide, by decide, rfl⟩
  state := rfl
  showing := by decide

/-- The speedbar to the right of the window. -/
def withSpeedbar : State :=
  { oneWindow.made with
    windows := [⟨0, false, false, 45⟩, ⟨1, true, true, 35⟩]
    nextId := 2
    srSpeedbarWindow := some 1
    otherWindowAdvice := true }

theorem toggle_oneWindow : srSpeedbarToggle sidebarOptions narrowFrame oneWindow = some (.ok (), withSpeedbar) := rfl

theorem run_withSpeedbar : Runs (Step sidebarOptions narrowFrame) oneWindow [.command .toggle] withSpeedbar :=
  .snoc .nil ⟨.ok (), toggle_oneWindow⟩

theorem lifecycle_run_withSpeedbar :
    withSpeedbar.hooks .timer = true ∧
      ∃ w ∈ withSpeedbar.windows, withSpeedbar.srSpeedbarWindow = some w.id ∧ w.speedbar = true ∧ w.dedicated = true :=
  have h := lifecycle_run rfl start_oneWindow run_withSpeedbar
  ⟨(h.2.1 rfl).2, h.2.2.1 rfl⟩

end Runs

end SrSpeedbar

end EmacsDir
