import EmacsDir.SpeedbarWindow
import Mathlib.Data.List.Nodup

/-!
# What the commands of the speedbar do to the frame

Widths apart, a command drops windows or brings in one.  This module says for each of them which windows it leaves, in
which states it signals an error, and what becomes of the variables.
-/

namespace EmacsDir

open Command

namespace SrSpeedbar

/-! ### Windows without their widths -/

/-- The window without its width. -/
def Window.plain (w : Window) : Window := { w with width := 0 }

/-- The windows without their widths. -/
def State.plain (s : State) : List Window := s.windows.map Window.plain

@[simp] theorem plain_id (w : Window) : w.plain.id = w.id := rfl

@[simp] theorem plain_speedbar (w : Window) : w.plain.speedbar = w.speedbar := rfl

@[simp] theorem plain_dedicated (w : Window) : w.plain.dedicated = w.dedicated := rfl

theorem map_plain_congr {f : Window → Window} (h : ∀ w, (f w).plain = w.plain) (ws : List Window) :
    (ws.map f).map Window.plain = ws.map Window.plain := by
  rw [List.map_map]
  exact List.map_congr_left fun w _ => h w

theorem map_plain_reflow (em : Emacs) (ws : List Window) :
    (reflow em ws).map Window.plain = ws.map Window.plain :=
  map_plain_congr (f := fun w => { w with width := em.reflow ws w.id }) (fun _ => rfl) ws

theorem map_plain_filter {p : Window → Bool} (hp : ∀ w, p w.plain = p w) (ws : List Window) :
    (ws.filter p).map Window.plain = (ws.map Window.plain).filter p := by
  rw [List.filter_map]
  congr 1
  exact List.filter_congr fun w _ => (hp w).symm

theorem live_iff {s : State} {id : Nat} : s.live id = true ↔ ∃ w ∈ s.plain, w.id = id := by
  simp only [State.live, State.plain, List.any_eq_true, decide_eq_true_eq, List.mem_map]
  constructor
  · rintro ⟨w, hw, h⟩
    exact ⟨w.plain, ⟨w, hw, rfl⟩, h⟩
  · rintro ⟨_, ⟨w, hw, rfl⟩, h⟩
    exact ⟨w, hw, h⟩

theorem live_congr {s s' : State} (h : s'.plain = s.plain) (id : Nat) : s'.live id = s.live id := by
  rw [Bool.eq_iff_iff, live_iff, live_iff, h]

theorem live_of_sublist {s s' : State} (h : s'.plain.Sublist s.plain) {id : Nat} (hid : s'.live id = true) :
    s.live id = true := by
  obtain ⟨w, hw, rfl⟩ := live_iff.1 hid
  exact live_iff.2 ⟨w, h.subset hw, rfl⟩

theorem windowExistP_iff {s : State} {window : Option Nat} :
    windowExistP s window = true ↔ ∃ id, window = some id ∧ s.live id = true := by
  cases window <;> simp [windowExistP]

/-! ### Deleting windows -/

/-- The frame has lost windows, and a width of the speedbar may have been remembered. -/
structure Narrows (o : Options) (s s' : State) : Prop where
  state : s' =
    { s with windows := s'.windows, selectedWindow := s'.selectedWindow, srSpeedbarWidth := s'.srSpeedbarWidth }
  windows : s'.plain.Sublist s.plain
  selected : s.live s.selectedWindow = true → s'.live s'.selectedWindow = true
  width : s'.srSpeedbarWidth = s.srSpeedbarWidth ∨ 1 < s'.srSpeedbarWidth ∧ s'.srSpeedbarWidth ≤ o.maxWidth

theorem Narrows.refl (o : Options) (s : State) : Narrows o s s :=
  ⟨rfl, List.Sublist.refl _, id, Or.inl rfl⟩

theorem Narrows.trans {o : Options} {s₁ s₂ s₃ : State} (h : Narrows o s₁ s₂) (h' : Narrows o s₂ s₃) :
    Narrows o s₁ s₃ where
  state := by
    rw [h'.state, h.state]
  windows := h'.windows.trans h.windows
  selected := fun hs => h'.selected (h.selected hs)
  width := by
    rcases h'.width with he | hw
    · rw [he]
      exact h.width
    · exact Or.inr hw

/-- After `sr-speedbar-remember-window-width`. -/
def State.remembered (o : Options) (s : State) : State :=
  if windowP s ∧ 1 < currentWindowTakeWidth s ∧ currentWindowTakeWidth s ≤ o.maxWidth then
    { s with srSpeedbarWidth := currentWindowTakeWidth s }
  else s

/-- After a window has been deleted. -/
def State.deleted (em : Emacs) (id : Nat) (s : State) : State :=
  let ws := s.windows.filter fun w => w.id ≠ id
  { s with
    windows := reflow em ws
    selectedWindow := if s.selectedWindow = id then em.next ws else s.selectedWindow }

theorem rememberWindowWidth_eq (o : Options) (s : State) :
    rememberWindowWidth o s = some (.ok (), s.remembered o) := rfl

theorem narrows_remembered (o : Options) (s : State) : Narrows o s (s.remembered o) := by
  unfold State.remembered
  split
  · rename_i h
    exact ⟨rfl, List.Sublist.refl _, id, Or.inr h.2⟩
  · exact Narrows.refl o s

@[simp] theorem remembered_windows (o : Options) (s : State) : (s.remembered o).windows = s.windows := by
  unfold State.remembered
  split <;> rfl

@[simp] theorem remembered_selectedWindow (o : Options) (s : State) :
    (s.remembered o).selectedWindow = s.selectedWindow := by
  unfold State.remembered
  split <;> rfl

@[simp] theorem remembered_srSpeedbarWindow (o : Options) (s : State) :
    (s.remembered o).srSpeedbarWindow = s.srSpeedbarWindow := by
  unfold State.remembered
  split <;> rfl

@[simp] theorem remembered_plain (o : Options) (s : State) : (s.remembered o).plain = s.plain :=
  congrArg (List.map Window.plain) (remembered_windows o s)

@[simp] theorem remembered_live (o : Options) (s : State) (id : Nat) : (s.remembered o).live id = s.live id :=
  live_congr (remembered_plain o s) id

theorem deleted_plain (em : Emacs) (id : Nat) (s : State) :
    (s.deleted em id).plain = s.plain.filter fun w => w.id ≠ id := by
  show (reflow em (s.windows.filter fun w => w.id ≠ id)).map Window.plain = _
  rw [map_plain_reflow, map_plain_filter (p := fun w => w.id ≠ id) fun _ => rfl]
  rfl

theorem mem_deleted_plain {em : Emacs} {id : Nat} {s : State} {w : Window} :
    w ∈ (s.deleted em id).plain ↔ w ∈ s.plain ∧ w.id ≠ id := by
  rw [deleted_plain, List.mem_filter, decide_eq_true_eq]

/-- A window that stays selected, or the one that Emacs selects. -/
theorem deleted_selected {em : Emacs} {id : Nat} {s : State} (h : ∃ w ∈ s.windows, w.id ≠ id)
    (hs : s.live s.selectedWindow = true) : (s.deleted em id).live (s.deleted em id).selectedWindow = true := by
  rw [live_iff]
  by_cases he : s.selectedWindow = id
  · obtain ⟨w, hw, hne⟩ := h
    have hnil : (s.windows.filter fun w => w.id ≠ id) ≠ [] :=
      List.ne_nil_of_mem (List.mem_filter.2 ⟨hw, decide_eq_true hne⟩)
    obtain ⟨v, hv, hid⟩ := em.next_mem _ hnil
    obtain ⟨hv, hvid⟩ := List.mem_filter.1 hv
    refine ⟨v.plain, mem_deleted_plain.2 ⟨List.mem_map_of_mem hv, of_decide_eq_true hvid⟩, ?_⟩
    show v.id = if s.selectedWindow = id then em.next (s.windows.filter fun w => w.id ≠ id) else s.selectedWindow
    rw [if_pos he, hid]
  · obtain ⟨w, hw, hid⟩ := live_iff.1 hs
    refine ⟨w, mem_deleted_plain.2 ⟨hw, by rw [hid]; exact he⟩, ?_⟩
    show w.id = if s.selectedWindow = id then em.next (s.windows.filter fun w => w.id ≠ id) else s.selectedWindow
    rw [if_neg he, hid]

theorem exists_ne_of_length {ws : List Window} (h : (ws.map Window.id).Nodup) (hlen : 1 < ws.length) (id : Nat) :
    ∃ w ∈ ws, w.id ≠ id := by
  obtain ⟨w, v, ws, rfl⟩ : ∃ w v vs, ws = w :: v :: vs := by
    match ws, hlen with
    | w :: v :: vs, _ => exact ⟨w, v, vs, rfl⟩
  by_cases hw : w.id = id
  · refine ⟨v, by simp, fun hv => ?_⟩
    rw [List.map_cons, List.nodup_cons] at h
    exact h.1 (by simp [hw, hv])
  · exact ⟨w, by simp, hw⟩

/-! ### Frames -/

/-- The windows have numbers of their own, and one of them is selected. -/
structure Framed (s : State) : Prop where
  nodup : (s.plain.map Window.id).Nodup
  lt : ∀ w ∈ s.plain, w.id < s.nextId
  selected : s.live s.selectedWindow = true

theorem map_id_plain (s : State) : s.plain.map Window.id = s.windows.map Window.id := by
  rw [State.plain, List.map_map]
  rfl

theorem Narrows.nextId {o : Options} {s s' : State} (h : Narrows o s s') : s'.nextId = s.nextId := by
  rw [h.state]

theorem Framed.of_narrows {o : Options} {s s' : State} (hs : Framed s) (h : Narrows o s s') : Framed s' where
  nodup := hs.nodup.sublist (h.windows.map Window.id)
  lt := fun w hw => h.nextId ▸ hs.lt w (h.windows.subset hw)
  selected := h.selected hs.selected

/-- A window is known by its number. -/
theorem Framed.eq_of_id {s : State} (hs : Framed s) {w v : Window} (hw : w ∈ s.plain) (hv : v ∈ s.plain)
    (h : w.id = v.id) : w = v :=
  List.inj_on_of_nodup_map hs.nodup hw hv h

/-- The selected window. -/
theorem Framed.current_eq {s : State} (hs : Framed s) {w : Window} (hw : w ∈ s.windows) (hid : w.id = s.selectedWindow) :
    s.current = some w := by
  unfold State.current
  cases hfind : s.windows.find? fun w => w.id = s.selectedWindow with
  | none => exact absurd (decide_eq_true hid) (List.find?_eq_none.1 hfind w hw)
  | some v =>
    have hv : v.id = s.selectedWindow := by simpa using List.find?_some hfind
    have hnodup := map_id_plain s ▸ hs.nodup
    rw [List.inj_on_of_nodup_map hnodup (List.mem_of_find?_eq_some hfind) hw (hv.trans hid.symm)]

theorem Framed.exists_current {s : State} (hs : Framed s) :
    ∃ w ∈ s.windows, w.id = s.selectedWindow ∧ s.current = some w := by
  obtain ⟨_, hw, hid⟩ := live_iff.1 hs.selected
  obtain ⟨v, hv, rfl⟩ := List.mem_map.1 hw
  exact ⟨v, hv, hid, hs.current_eq hv hid⟩

theorem windowP_iff {s : State} (hs : Framed s) :
    windowP s = true ↔ ∃ w ∈ s.plain, w.id = s.selectedWindow ∧ w.speedbar = true := by
  obtain ⟨v, hv, hid, hcur⟩ := hs.exists_current
  rw [windowP, hcur, Option.any_some]
  constructor
  · exact fun hsp => ⟨v.plain, List.mem_map_of_mem hv, hid, hsp⟩
  · rintro ⟨w, hw, hwid, hsp⟩
    obtain rfl := hs.eq_of_id hw (List.mem_map_of_mem hv) (hwid.trans hid.symm)
    exact hsp

/-- The selected window still does not show the speedbar. -/
theorem windowP_of_sublist {s s' : State} (hs : Framed s) (hs' : Framed s') (h : s'.plain.Sublist s.plain)
    (hsel : s'.selectedWindow = s.selectedWindow) (hP : windowP s = false) : windowP s' = false := by
  rw [Bool.eq_false_iff] at hP ⊢
  intro hP'
  obtain ⟨w, hw, hid, hsp⟩ := (windowP_iff hs').1 hP'
  exact hP ((windowP_iff hs).2 ⟨w, h.subset hw, hid.trans hsel, hsp⟩)

theorem remembered_of_not_windowP {o : Options} {s : State} (hP : windowP s = false) : s.remembered o = s := by
  unfold State.remembered
  rw [if_neg]
  rintro ⟨h, -⟩
  rw [hP] at h
  cases h

section Delete

variable {o : Options} {em : Emacs} {s : State} {id : Nat}

theorem deleteWindow_ok (hlive : s.live id = true) (hlen : 1 < s.windows.length) :
    deleteWindow o em id s = some (.ok (), (s.remembered o).deleted em id) := by
  apply eq_of_wp
  unfold deleteWindow
  rw [wp_bind, wp_of_eq_ok (rememberWindowWidth_eq o s), wp_bind, wp_gets, remembered_live, hlive, Bool.not_true,
    wp_bind, wp_when_false, wp_bind, wp_gets, remembered_windows, decide_eq_false (Nat.not_le.2 hlen), wp_bind,
    wp_when_false]
  rfl

theorem deleteWindow_notLive (hlive : s.live id = false) :
    deleteWindow o em id s = some (.error .notLive, s.remembered o) := by
  apply eq_of_wp
  unfold deleteWindow
  rw [wp_bind, wp_of_eq_ok (rememberWindowWidth_eq o s), wp_bind, wp_gets, remembered_live, hlive, Bool.not_false,
    wp_bind, wp_when_true]
  rfl

theorem deleteWindow_sole (hlive : s.live id = true) (hlen : s.windows.length ≤ 1) :
    deleteWindow o em id s = some (.error .soleWindow, s.remembered o) := by
  apply eq_of_wp
  unfold deleteWindow
  rw [wp_bind, wp_of_eq_ok (rememberWindowWidth_eq o s), wp_bind, wp_gets, remembered_live, hlive, Bool.not_true,
    wp_bind, wp_when_false, wp_bind, wp_gets, remembered_windows, decide_eq_true hlen, wp_bind, wp_when_true]
  rfl

theorem remembered_remembered (o : Options) (s : State) : (s.remembered o).remembered o = s.remembered o := by
  unfold State.remembered
  by_cases h : windowP s ∧ 1 < currentWindowTakeWidth s ∧ currentWindowTakeWidth s ≤ o.maxWidth
  · simp only [if_pos h]
    split <;> rfl
  · rw [if_neg h, if_neg h]

/-- A window is deleted after the width has been remembered. -/
theorem deleteWindow_remembered_ok (hlive : s.live id = true) (hlen : 1 < s.windows.length) :
    deleteWindow o em id (s.remembered o) = some (.ok (), (s.remembered o).deleted em id) := by
  rw [deleteWindow_ok (by rwa [remembered_live]) (by rwa [remembered_windows]), remembered_remembered]

theorem deleteWindow_remembered_sole (hlive : s.live id = true) (hlen : s.windows.length ≤ 1) :
    deleteWindow o em id (s.remembered o) = some (.error .soleWindow, s.remembered o) := by
  rw [deleteWindow_sole (by rwa [remembered_live]) (by rwa [remembered_windows]), remembered_remembered]

theorem narrows_deleted (hs : Framed s) (hlen : 1 < s.windows.length) :
    Narrows o s ((s.remembered o).deleted em id) := by
  apply (narrows_remembered o s).trans
  have hs' := hs.of_narrows (narrows_remembered o s)
  have hne : ∃ w ∈ (s.remembered o).windows, w.id ≠ id := by
    apply exists_ne_of_length _ (by rwa [remembered_windows])
    rw [← map_id_plain]
    exact hs'.nodup
  refine ⟨rfl, ?_, fun h => deleted_selected hne h, Or.inl rfl⟩
  rw [deleted_plain]
  exact List.filter_sublist

theorem wp_deleteWindow (hs : Framed s) :
    wp (deleteWindow o em id) (fun _ s' => Narrows o s s') (fun _ s' => Narrows o s s') s := by
  by_cases hlive : s.live id = true
  · by_cases hlen : 1 < s.windows.length
    · rw [wp_of_eq_ok (deleteWindow_ok hlive hlen)]
      exact narrows_deleted hs hlen
    · rw [wp_of_eq_error (deleteWindow_sole hlive (Nat.not_lt.1 hlen))]
      exact narrows_remembered o s
  · rw [wp_of_eq_error (deleteWindow_notLive (Bool.eq_false_iff.2 hlive))]
    exact narrows_remembered o s

end Delete

theorem one_lt_length {s : State} {a b : Nat} (ha : s.live a = true) (hb : s.live b = true) (hne : a ≠ b) :
    1 < s.windows.length := by
  unfold State.live at ha hb
  match hws : s.windows with
  | [] => simp [hws] at ha
  | [w] =>
    simp only [hws, List.any_cons, List.any_nil, Bool.or_false, decide_eq_true_eq] at ha hb
    exact absurd (ha.symm.trans hb) hne
  | _ :: _ :: _ => simp

/-! ### Deleting the other windows -/

section Others

variable {o : Options} {em : Emacs} {s : State}

/-- A window stays if it is the current one, or if the loop does not come to it or finds it dedicated. -/
def staysIn (ws : List Window) (currentWindow : Nat) (w : Window) : Bool :=
  w.id = currentWindow || ws.all fun win => win.id ≠ w.id || win.dedicated

theorem staysIn_nil (currentWindow : Nat) (w : Window) : staysIn [] currentWindow w = true := by
  simp [staysIn]

theorem staysIn_cons_of_deleted {ws : List Window} {currentWindow : Nat} {win : Window}
    (hne : win.id ≠ currentWindow) (hd : win.dedicated = false) (w : Window) :
    staysIn (win :: ws) currentWindow w = (staysIn ws currentWindow w && decide (w.id ≠ win.id)) := by
  unfold staysIn
  by_cases hw : w.id = win.id
  · simp [hw, hne, hd]
  · simp [hw, Ne.symm hw]

theorem staysIn_cons_of_kept {ws : List Window} {currentWindow : Nat} {win w : Window}
    (h : win.id = w.id → win.id = currentWindow ∨ win.dedicated = true) :
    staysIn (win :: ws) currentWindow w = staysIn ws currentWindow w := by
  unfold staysIn
  rw [List.all_cons]
  by_cases hw : win.id = w.id
  · rcases h hw with hc | hd
    · simp [← hw, hc]
    · simp [hd]
  · simp [hw]

/-- The loop deletes the windows that do not stay, and there is always another window than the one it deletes. -/
theorem wp_deleteOthers {currentWindow : Nat} (ws : List Window) (hs : Framed s)
    (hcur : s.selectedWindow = currentWindow) :
    wp (deleteOthers o em currentWindow ws)
      (fun _ s' => Narrows o s s' ∧ s'.selectedWindow = currentWindow ∧
        s'.plain = s.plain.filter (staysIn ws currentWindow) ∧
        (windowP s = false → s'.srSpeedbarWidth = s.srSpeedbarWidth)) (fun _ _ => False) s := by
  induction ws generalizing s with
  | nil =>
    refine ⟨Narrows.refl o s, hcur, ?_, fun _ => rfl⟩
    rw [List.filter_eq_self.2 fun w _ => staysIn_nil currentWindow w]
  | cons win ws ih =>
    unfold deleteOthers
    rw [wp_bind, wp_gets, wp_bind]
    apply wp_when
    · intro hdel
      simp only [Bool.and_eq_true, decide_eq_true_eq, Bool.not_eq_true'] at hdel
      obtain ⟨⟨hlive, hne⟩, hd⟩ := hdel
      have hlen : 1 < s.windows.length := one_lt_length hlive (hcur ▸ hs.selected) hne
      have hnar : Narrows o s ((s.remembered o).deleted em win.id) := narrows_deleted hs hlen
      have hsel : ((s.remembered o).deleted em win.id).selectedWindow = currentWindow := by
        show (if (s.remembered o).selectedWindow = win.id then _ else (s.remembered o).selectedWindow) = _
        rw [remembered_selectedWindow, if_neg (by rw [hcur]; exact Ne.symm hne), hcur]
      rw [wp_of_eq_ok (deleteWindow_ok hlive hlen)]
      apply wp_mono (ih (hs.of_narrows hnar) hsel) _ fun _ _ h => h
      rintro _ s' ⟨hnar', hsel', hplain, hwidth⟩
      refine ⟨hnar.trans hnar', hsel', ?_, fun hP => ?_⟩
      · rw [hplain, deleted_plain, remembered_plain, List.filter_filter]
        exact List.filter_congr fun w _ => (staysIn_cons_of_deleted hne hd w).symm
      · rw [hwidth (windowP_of_sublist hs (hs.of_narrows hnar) hnar.windows (hsel.trans hcur.symm) hP),
          remembered_of_not_windowP hP]
        rfl
    · intro hdel
      apply wp_mono (ih hs hcur) _ fun _ _ h => h
      rintro _ s' ⟨hnar, hsel, hplain, hwidth⟩
      refine ⟨hnar, hsel, ?_, hwidth⟩
      rw [hplain]
      apply List.filter_congr
      intro w hw
      refine (staysIn_cons_of_kept fun he => ?_).symm
      have hlive : s.live win.id = true := live_iff.2 ⟨w, hw, he.symm⟩
      by_cases hne : win.id = currentWindow
      · exact Or.inl hne
      · right
        rwa [hlive, Bool.true_and, decide_eq_true hne, Bool.true_and, Bool.not_eq_false'] at hdel

/-- The windows that `delete-other-windows` leaves. -/
def keptByOthers (s : State) : List Window :=
  s.plain.filter fun w => w.id = s.selectedWindow || windowExistP s s.srSpeedbarWindow && w.dedicated

theorem wp_deleteOtherWindows (hs : Framed s) :
    wp (deleteOtherWindows o em)
      (fun _ s' => Narrows o s s' ∧ s'.selectedWindow = s.selectedWindow ∧ s'.plain = keptByOthers s ∧
        (windowP s = false → s'.srSpeedbarWidth = s.srSpeedbarWidth))
      (fun _ _ => False) s := by
  unfold deleteOtherWindows keptByOthers
  rw [wp_bind, wp_gets]
  by_cases hex : windowExistP s s.srSpeedbarWindow = true
  · rw [if_pos hex, wp_bind, wp_gets, wp_bind, wp_gets]
    apply wp_mono (wp_deleteOthers s.windows hs rfl) _ fun _ _ h => h
    rintro _ s' ⟨hnar, hsel, hplain, hwidth⟩
    refine ⟨hnar, hsel, ?_, hwidth⟩
    rw [hplain, hex]
    apply List.filter_congr
    intro w hw
    -- The loop has come to every window once.
    have hall : (s.windows.all fun win => win.id ≠ w.id || win.dedicated) = w.dedicated := by
      obtain ⟨v, hv, rfl⟩ := List.mem_map.1 hw
      rw [Bool.eq_iff_iff, List.all_eq_true]
      constructor
      · intro h
        simpa using h v hv
      · intro hd win hwin
        by_cases he : win.id = v.plain.id
        · have := hs.eq_of_id (List.mem_map_of_mem hwin) hw he
          have hd' : win.dedicated = true := (congrArg Window.dedicated this).trans hd
          simp [hd']
        · rw [Bool.or_eq_true]
          exact Or.inl (decide_eq_true he)
    unfold staysIn
    rw [hall, Bool.true_and]
  · rw [if_neg hex, wp_update]
    have hplain : (reflow em (s.windows.filter fun w => w.id = s.selectedWindow)).map Window.plain =
        s.plain.filter fun w => w.id = s.selectedWindow := by
      rw [map_plain_reflow, map_plain_filter (p := fun w => w.id = s.selectedWindow) fun _ => rfl]
      rfl
    refine ⟨⟨rfl, ?_, fun h => ?_, Or.inl rfl⟩, rfl, ?_, fun _ => rfl⟩
    · show (reflow em _).map Window.plain |>.Sublist s.plain
      rw [hplain]
      exact List.filter_sublist
    · obtain ⟨w, hw, hid⟩ := live_iff.1 h
      refine live_iff.2 ⟨w, ?_, hid⟩
      show w ∈ (reflow em _).map Window.plain
      rw [hplain, List.mem_filter, decide_eq_true_eq]
      exact ⟨hw, hid⟩
    · show (reflow em _).map Window.plain = _
      rw [hplain, Bool.eq_false_iff.2 hex]
      simp

end Others

/-! ### A new window -/

section Insert

variable {id : Nat} {new : Window} {ws : List Window}

theorem map_insertAfter {f : Window → Window} (hf : ∀ w, (f w).id = w.id) (ws : List Window) :
    (insertAfter id new ws).map f = insertAfter id (f new) (ws.map f) := by
  induction ws with
  | nil => rfl
  | cons w ws ih =>
    simp only [insertAfter, List.map_cons, hf]
    split
    · rfl
    · rw [List.map_cons, ih]

theorem insertAfter_perm (h : ∃ w ∈ ws, w.id = id) : (insertAfter id new ws).Perm (new :: ws) := by
  induction ws with
  | nil =>
    obtain ⟨w, hw, -⟩ := h
    cases hw
  | cons w ws ih =>
    unfold insertAfter
    split
    · exact List.Perm.swap new w ws
    · rename_i hne
      obtain ⟨v, hv, hid⟩ := h
      have hv' : v ∈ ws := by
        rcases List.mem_cons.1 hv with rfl | hv'
        · exact absurd hid hne
        · exact hv'
      exact ((ih ⟨v, hv', hid⟩).cons w).trans (List.Perm.swap new w ws)

/-- Without the new window the others are as before. -/
theorem filter_insertAfter {n : Nat} (hnew : new.id = n) (h : ∀ w ∈ ws, w.id ≠ n) :
    (insertAfter id new ws).filter (fun w => w.id ≠ n) = ws := by
  induction ws with
  | nil => rfl
  | cons w ws ih =>
    have hw : decide (w.id ≠ n) = true := decide_eq_true (h w List.mem_cons_self)
    have hws := fun v hv => h v (List.mem_cons_of_mem w hv)
    unfold insertAfter
    split
    · rw [List.filter_cons, if_pos hw, List.filter_cons, if_neg (by simp [hnew]),
        List.filter_eq_self.2 fun v hv => decide_eq_true (hws v hv)]
    · rw [List.filter_cons, if_pos hw, ih hws]

end Insert

section Split

variable {s : State} {left right : Nat}

theorem Framed.insertAfter {s s' : State} (hs : Framed s) (new : Window) (hnew : new.id = s.nextId)
    (hplain : s'.plain = insertAfter s.selectedWindow new s.plain) (hsel : s'.selectedWindow = s.selectedWindow)
    (hnext : s'.nextId = s.nextId + 1) : Framed s' := by
  have hperm : s'.plain.Perm (new :: s.plain) := hplain ▸ insertAfter_perm (live_iff.1 hs.selected)
  refine ⟨?_, ?_, ?_⟩
  · rw [(hperm.map Window.id).nodup_iff, List.map_cons, List.nodup_cons]
    refine ⟨fun h => ?_, hs.nodup⟩
    obtain ⟨w, hw, hid⟩ := List.mem_map.1 h
    exact absurd (hs.lt w hw) (by omega)
  · intro w hw
    rw [hnext]
    rcases List.mem_cons.1 (hperm.mem_iff.1 hw) with rfl | hw
    · omega
    · exact Nat.lt_succ_of_lt (hs.lt w hw)
  · obtain ⟨w, hw, hid⟩ := live_iff.1 hs.selected
    rw [hsel]
    exact live_iff.2 ⟨w, hperm.mem_iff.2 (List.mem_cons_of_mem new hw), hid⟩

end Split

/-! ### Opening -/

section Open

variable {o : Options} {em : Emacs} {s : State}

/-- The windows with which the speedbar is opened. -/
def keptToOpen (o : Options) (s : State) : List Window := if o.deleteWindows then keptByOthers s else s.plain

/-- Before the speedbar window comes in, other windows may be deleted. -/
structure Cleared (o : Options) (s s₁ : State) : Prop where
  narrows : Narrows o s s₁
  selectedWindow : s₁.selectedWindow = s.selectedWindow
  windows : s₁.plain = keptToOpen o s
  width : windowP s = false → s₁.srSpeedbarWidth = s.srSpeedbarWidth
  eq_of_keep : o.deleteWindows = false → s₁ = s

/-- The width with which the speedbar is opened. -/
def WidthToOpen (o : Options) (s : State) (width : Nat) : Prop :=
  width = s.srSpeedbarWidth ∨ bufferExistP s = false ∧ width = o.defaultWidth

/-- The buffer of the speedbar has been made. -/
def State.made (s : State) : State :=
  { s with
    bufferLive := true
    speedbarBuffer := true
    speedbarFrame := true
    timer := true
    hooks := fun h => if h = .timer then s.autoRefresh else h.visits || h = .killBuffer || s.hooks h }

/-- The buffer of the speedbar exists. -/
def State.withBuffer (s : State) : State := if bufferExistP s then s else s.made

/-- The selected window has been split for the speedbar. -/
def State.splitFor (s : State) (left right width : Nat) : State :=
  { s.withBuffer with
    windows := (s.splitSelected left right).windows
    nextId := s.nextId + 1
    srSpeedbarWindow := some s.nextId
    srSpeedbarWidth := width }

/-- The speedbar has been opened in a new window to the right of the selected one. -/
structure Opened (o : Options) (em : Emacs) (s s₁ s' : State) (left right : Nat) : Prop where
  split : em.split (currentWindowTakeWidth s₁) (currentWindowTakeWidth s₁ - s'.srSpeedbarWidth) = some (left, right)
  width : WidthToOpen o s₁ s'.srSpeedbarWidth
  windows : s'.windows = insertAfter s.selectedWindow ⟨s.nextId, true, true, right⟩
    (s₁.windows.map fun w => if w.id = s.selectedWindow then { w with width := left } else w)
  state : s' =
    { s.withBuffer with
      windows := s'.windows
      nextId := s.nextId + 1
      srSpeedbarWindow := some s.nextId
      srSpeedbarWidth := s'.srSpeedbarWidth
      otherWindowAdvice := o.skipOtherWindow }

/-- The speedbar has not been opened since there is no room for it. -/
structure Refused (o : Options) (s s₁ s' : State) : Prop where
  width : WidthToOpen o s₁ s'.srSpeedbarWidth
  state : s' =
    { s₁ with srSpeedbarWidth := s'.srSpeedbarWidth, otherWindowAdvice := o.skipOtherWindow }

theorem wp_clear (hs : Framed s) :
    wp (when o.deleteWindows (deleteOtherWindows o em)) (fun _ s₁ => Cleared o s s₁)
      (fun _ _ => False) s := by
  apply wp_when
  · intro ho
    apply wp_mono (wp_deleteOtherWindows hs) _ fun _ _ h => h
    rintro _ s₁ ⟨hnar, hsel, hplain, hwidth⟩
    refine ⟨hnar, hsel, ?_, hwidth, fun h => ?_⟩
    · rw [hplain, keptToOpen, if_pos ho]
    · rw [ho] at h
      cases h
  · intro ho
    exact ⟨Narrows.refl o s, rfl, by rw [keptToOpen, ho, if_neg Bool.false_ne_true], fun _ => rfl, fun _ => rfl⟩

/-- The new window is the only one that changes when the speedbar comes into it. -/
theorem showIn_insertAfter {id n : Nat} {p d : Bool} {right : Nat} {ws : List Window} (h : ∀ w ∈ ws, w.id ≠ n) :
    (insertAfter id ⟨n, p, d, right⟩ ws).map
        (fun w => if some w.id = some n then { w with speedbar := true, dedicated := true } else w) =
      insertAfter id ⟨n, true, true, right⟩ ws := by
  rw [map_insertAfter fun w => by split <;> rfl]
  congr 1
  · simp
  · rw [List.map_congr_left fun w hw => if_neg fun he => h w hw (Option.some.inj he), List.map_id']

theorem wp_getWindow (hside : o.rightSide = true) {Q : Unit → State → Prop} {E : WindowSignal → State → Prop}
    (hok : ∀ left right, em.split (currentWindowTakeWidth s) (currentWindowTakeWidth s - s.srSpeedbarWidth) =
      some (left, right) → Q () { s.splitSelected left right with srSpeedbarWindow := some s.nextId })
    (herr : E .tooSmall s) : wp (getWindow o em) Q E s := by
  unfold getWindow wp
  simp only [hside, if_true]
  cases hsplit : em.split (currentWindowTakeWidth s) (currentWindowTakeWidth s - s.srSpeedbarWidth) with
  | none => exact herr
  | some p => exact hok p.1 p.2 hsplit

theorem wp_selectWindow {id : Nat} (hlive : s.live id = true) {Q : Unit → State → Prop}
    {E : WindowSignal → State → Prop} (hok : Q () { s with selectedWindow := id }) : wp (selectWindow id) Q E s := by
  unfold selectWindow
  rw [wp_bind, wp_gets, if_pos hlive]
  exact hok

theorem wp_makeWindow (hside : o.rightSide = true)
    (hwin : bufferExistP s = true → windowExistP s s.srSpeedbarWindow = false) :
    wp (makeWindow o em)
      (fun _ s' => ∃ width left right, WidthToOpen o s width ∧
        em.split (currentWindowTakeWidth s) (currentWindowTakeWidth s - width) = some (left, right) ∧
        s' = s.splitFor left right width)
      (fun e s' => e = .tooSmall ∧ ∃ width, WidthToOpen o s width ∧ s' = { s with srSpeedbarWidth := width }) s := by
  unfold makeWindow State.splitFor State.withBuffer
  rw [wp_bind, wp_gets]
  by_cases hbuf : bufferExistP s = true
  · rw [if_pos hbuf, if_pos hbuf, wp_bind, wp_gets, hwin hbuf, Bool.not_false, wp_when_true]
    apply wp_getWindow hside
    · intro left right hsplit
      exact ⟨_, left, right, Or.inl rfl, hsplit, rfl⟩
    · exact ⟨rfl, _, Or.inl rfl, rfl⟩
  · rw [if_neg hbuf, if_neg hbuf, wp_bind, wp_gets, wp_bind]
    have hmade : ∀ width, WidthToOpen o s width →
        wp (getWindow o em >>= fun _ => makeBuffer)
          (fun _ s' => ∃ width left right, WidthToOpen o s width ∧
            em.split (currentWindowTakeWidth s) (currentWindowTakeWidth s - width) = some (left, right) ∧
            s' = { s.made with
              windows := (s.splitSelected left right).windows
              nextId := s.nextId + 1
              srSpeedbarWindow := some s.nextId
              srSpeedbarWidth := width })
          (fun e s' => e = .tooSmall ∧ ∃ width, WidthToOpen o s width ∧ s' = { s with srSpeedbarWidth := width })
          { s with srSpeedbarWidth := width } := by
      intro width hwidth
      rw [wp_bind]
      apply wp_getWindow hside
      · intro left right hsplit
        exact ⟨width, left, right, hwidth, hsplit, rfl⟩
      · exact ⟨rfl, width, hwidth, rfl⟩
    apply wp_when
    · intro _
      exact hmade o.defaultWidth (Or.inr ⟨Bool.eq_false_iff.2 hbuf, rfl⟩)
    · intro _
      exact hmade s.srSpeedbarWidth (Or.inl rfl)

theorem wp_showSpeedbar {id n : Nat} {p : Bool} {right : Nat} {ws : List Window} (hn : ∀ w ∈ ws, w.id ≠ n)
    (hws : s.windows = insertAfter id ⟨n, p, false, right⟩ ws) (hwin : s.srSpeedbarWindow = some n)
    (hid : ∃ w ∈ ws, w.id = id) {Q : Unit → State → Prop} {E : WindowSignal → State → Prop}
    (hok : Q () { s with windows := insertAfter id ⟨n, true, true, right⟩ ws, srSpeedbarWindow := some n }) :
    wp showSpeedbar Q E s := by
  have hnone : (s.windows.any fun w => some w.id = s.srSpeedbarWindow && w.dedicated && !w.speedbar) = false := by
    rw [List.any_eq_false]
    intro w hw
    rw [hws, (insertAfter_perm hid).mem_iff] at hw
    rcases List.mem_cons.1 hw with rfl | hw
    · simp
    · simp [hwin, hn w hw]
  unfold showSpeedbar
  rw [wp_bind, wp_gets, hnone, wp_bind, wp_when_false, wp_update, hws, hwin, showIn_insertAfter hn]
  exact hok

theorem wp_srSpeedbarOpen (hside : o.rightSide = true) (hs : Framed s) (hex : existP s = false) :
    wp (srSpeedbarOpen o em)
      (fun _ s' => ∃ s₁ left right, Cleared o s s₁ ∧ Opened o em s s₁ s' left right)
      (fun e s' => e = .tooSmall ∧ ∃ s₁, Cleared o s s₁ ∧ Refused o s s₁ s') s := by
  unfold srSpeedbarOpen
  rw [wp_bind, wp_gets, if_neg (by rw [hex]; exact Bool.false_ne_true), wp_bind, wp_gets, wp_bind]
  apply wp_mono (wp_clear hs) _ fun _ _ h => h.elim
  intro _ s₁ hcl
  have hs₁ := hs.of_narrows hcl.narrows
  obtain ⟨ws, sel, k, rfl⟩ :
      ∃ ws sel k, s₁ = { s with windows := ws, selectedWindow := sel, srSpeedbarWidth := k } :=
    ⟨_, _, _, hcl.narrows.state⟩
  obtain rfl : sel = s.selectedWindow := hcl.selectedWindow
  have hwin : bufferExistP s = true → windowExistP { s with windows := ws } s.srSpeedbarWindow = false := by
    intro hbuf
    rw [existP, hbuf, Bool.true_and] at hex
    rw [Bool.eq_false_iff] at hex ⊢
    intro h
    apply hex
    obtain ⟨id, hid, hlive⟩ := windowExistP_iff.1 h
    exact windowExistP_iff.2 ⟨id, hid, live_of_sublist hcl.narrows.windows hlive⟩
  rw [wp_bind, handleOtherWindowAdvice, wp_update, wp_bind]
  apply wp_mono
    (wp_makeWindow (s := { s with windows := ws, srSpeedbarWidth := k, otherWindowAdvice := o.skipOtherWindow })
      hside hwin)
  · rintro _ s₃ ⟨width, left, right, hwidth, hsplit, rfl⟩
    rw [wp_bind]
    have hfresh : ∀ w ∈ ws.map fun w => if w.id = s.selectedWindow then { w with width := left } else w,
        w.id ≠ s.nextId := by
      intro w hw
      obtain ⟨v, hv, rfl⟩ := List.mem_map.1 hw
      have hlt : v.id < s.nextId := hs₁.lt v.plain (List.mem_map_of_mem hv)
      split
      · exact Nat.ne_of_lt hlt
      · exact Nat.ne_of_lt hlt
    have hcurrent : ∃ w ∈ ws.map fun w => if w.id = s.selectedWindow then { w with width := left } else w,
        w.id = s.selectedWindow := by
      obtain ⟨_, hw, hid⟩ := live_iff.1 hs₁.selected
      obtain ⟨v, hv, rfl⟩ := List.mem_map.1 hw
      refine ⟨_, List.mem_map_of_mem hv, ?_⟩
      split
      · exact hid
      · exact hid
    apply wp_showSpeedbar hfresh rfl rfl hcurrent
    apply wp_selectWindow
    · obtain ⟨w, hw, hid⟩ := hcurrent
      exact List.any_eq_true.2
        ⟨w, (insertAfter_perm ⟨w, hw, hid⟩).mem_iff.2 (List.mem_cons_of_mem _ hw), decide_eq_true hid⟩
    · refine ⟨_, left, right, hcl, hsplit, hwidth, rfl, ?_⟩
      unfold State.splitFor State.withBuffer bufferExistP State.made
      dsimp only
      split <;> rfl
  · rintro e s₃ ⟨rfl, width, hwidth, rfl⟩
    exact ⟨rfl, _, hcl, hwidth, rfl⟩

theorem Opened.plain {s₁ s' : State} {left right : Nat} (hcl : Cleared o s s₁) (h : Opened o em s s₁ s' left right) :
    s'.plain = insertAfter s.selectedWindow ⟨s.nextId, true, true, 0⟩ (keptToOpen o s) := by
  rw [← hcl.windows]
  unfold State.plain
  rw [h.windows, map_insertAfter plain_id, map_plain_congr]
  · rfl
  · intro w
    split <;> rfl

theorem withBuffer_existP (s : State) : bufferExistP s.withBuffer = true := by
  unfold State.withBuffer
  split
  · assumption
  · rfl

theorem withBuffer_selectedWindow (s : State) : s.withBuffer.selectedWindow = s.selectedWindow := by
  unfold State.withBuffer
  split <;> rfl

theorem Opened.selectedWindow {s₁ s' : State} {left right : Nat} (h : Opened o em s s₁ s' left right) :
    s'.selectedWindow = s.selectedWindow := by
  rw [h.state]
  exact withBuffer_selectedWindow s

theorem Opened.srSpeedbarWindow {s₁ s' : State} {left right : Nat} (h : Opened o em s s₁ s' left right) :
    s'.srSpeedbarWindow = some s.nextId := by
  rw [h.state]

theorem Opened.nextId {s₁ s' : State} {left right : Nat} (h : Opened o em s s₁ s' left right) :
    s'.nextId = s.nextId + 1 := by
  rw [h.state]

theorem Opened.framed {s₁ s' : State} {left right : Nat} (hs : Framed s) (hcl : Cleared o s s₁)
    (h : Opened o em s s₁ s' left right) : Framed s' := by
  apply (hs.of_narrows hcl.narrows).insertAfter ⟨s.nextId, true, true, 0⟩
  · exact hcl.narrows.nextId.symm
  · rw [h.plain hcl, hcl.windows, hcl.selectedWindow]
  · rw [h.selectedWindow, hcl.selectedWindow]
  · rw [h.nextId, hcl.narrows.nextId]

theorem Cleared.live {s₁ : State} (hs : Framed s) (hcl : Cleared o s s₁) :
    ∃ w ∈ keptToOpen o s, w.id = s.selectedWindow := by
  rw [← hcl.windows, ← hcl.selectedWindow]
  exact live_iff.1 (hcl.narrows.selected hs.selected)

/-- The window of the speedbar is there, and shows it. -/
theorem Opened.mem {s₁ s' : State} {left right : Nat} (hs : Framed s) (hcl : Cleared o s s₁)
    (h : Opened o em s s₁ s' left right) : ⟨s.nextId, true, true, 0⟩ ∈ s'.plain := by
  rw [h.plain hcl, (insertAfter_perm (hcl.live hs)).mem_iff]
  exact List.mem_cons_self

theorem Opened.existP {s₁ s' : State} {left right : Nat} (hs : Framed s) (hcl : Cleared o s s₁)
    (h : Opened o em s s₁ s' left right) : existP s' = true := by
  have hbuf : bufferExistP s' = true := by
    rw [h.state]
    exact withBuffer_existP s
  rw [SrSpeedbar.existP, hbuf, Bool.true_and, h.srSpeedbarWindow]
  exact live_iff.2 ⟨_, h.mem hs hcl, rfl⟩

end Open

/-! ### Closing -/

section Close

variable {o : Options} {em : Emacs} {s : State} {n : Nat}

/-- The speedbar has been closed.  If it was selected, Emacs has selected another window. -/
def State.closed (o : Options) (em : Emacs) (n : Nat) (s : State) : State :=
  let s' := (State.remembered o { s with selectedWindow := n }).deleted em n
  if s.selectedWindow = n then s' else { s' with selectedWindow := s.selectedWindow }

theorem existP_live (hex : existP s = true) (hwin : s.srSpeedbarWindow = some n) : s.live n = true := by
  rw [existP, Bool.and_eq_true, hwin] at hex
  exact hex.2

theorem wp_selectSpeedbar (hex : existP s = true) (hwin : s.srSpeedbarWindow = some n) {Q : Unit → State → Prop}
    {E : WindowSignal → State → Prop} (hok : Q () { s with selectedWindow := n }) :
    wp srSpeedbarSelectWindow Q E s := by
  unfold srSpeedbarSelectWindow
  rw [wp_bind, wp_gets, if_pos hex, wp_bind, wp_gets, hwin]
  exact wp_selectWindow (existP_live hex hwin) hok

theorem wp_deleteSpeedbarWindow (hwin : s.srSpeedbarWindow = some n) {Q : Unit → State → Prop}
    {E : WindowSignal → State → Prop} (hok : wp (deleteWindow o em n) Q E s) :
    wp (deleteSpeedbarWindow o em) Q E s := by
  unfold deleteSpeedbarWindow
  rw [wp_bind, wp_gets, hwin]
  exact hok

theorem srSpeedbarClose_ok (hs : Framed s) (hex : existP s = true) (hwin : s.srSpeedbarWindow = some n)
    (hlen : 1 < s.windows.length) : srSpeedbarClose o em s = some (.ok (), s.closed o em n) := by
  apply eq_of_wp
  unfold srSpeedbarClose
  rw [wp_bind, wp_gets, if_pos hex, wp_bind, wp_gets, wp_bind]
  apply wp_selectSpeedbar hex hwin
  rw [wp_bind, wp_of_eq_ok (rememberWindowWidth_eq o _), wp_bind]
  refine wp_deleteSpeedbarWindow (n := n) (by rw [remembered_srSpeedbarWindow]; exact hwin) ?_
  rw [wp_of_eq_ok (deleteWindow_remembered_ok (s := { s with selectedWindow := n }) (existP_live hex hwin) hlen),
    wp_bind, wp_gets]
  unfold State.closed
  by_cases hcur : s.selectedWindow = n
  · rw [if_pos hcur]
    apply wp_when
    · intro hlive
      obtain ⟨_, hid, hlive⟩ := windowExistP_iff.1 hlive
      obtain ⟨w, hw, hwid⟩ := live_iff.1 hlive
      exact absurd (hwid.trans ((Option.some.inj hid).symm.trans hcur)) (mem_deleted_plain.1 hw).2
    · exact fun _ => rfl
  · rw [if_neg hcur]
    apply wp_when
    · intro hlive
      obtain ⟨_, hid, hlive⟩ := windowExistP_iff.1 hlive
      exact wp_selectWindow (Option.some.inj hid ▸ hlive) rfl
    · intro hdead
      obtain ⟨w, hw, hwid⟩ := live_iff.1 hs.selected
      rw [Bool.eq_false_iff] at hdead
      refine absurd (windowExistP_iff.2 ⟨_, rfl, live_iff.2 ⟨w, mem_deleted_plain.2 ⟨?_, ?_⟩, hwid⟩⟩) hdead
      · rwa [remembered_plain]
      · rwa [hwid]

theorem srSpeedbarClose_sole (hex : existP s = true) (hwin : s.srSpeedbarWindow = some n)
    (hlen : s.windows.length ≤ 1) :
    srSpeedbarClose o em s = some (.error .soleWindow, State.remembered o { s with selectedWindow := n }) := by
  apply eq_of_wp
  unfold srSpeedbarClose
  rw [wp_bind, wp_gets, if_pos hex, wp_bind, wp_gets, wp_bind]
  apply wp_selectSpeedbar hex hwin
  rw [wp_bind, wp_of_eq_ok (rememberWindowWidth_eq o _), wp_bind]
  refine wp_deleteSpeedbarWindow (n := n) (by rw [remembered_srSpeedbarWindow]; exact hwin) ?_
  rw [wp_of_eq_error (deleteWindow_remembered_sole (s := { s with selectedWindow := n }) (existP_live hex hwin) hlen)]

theorem closed_plain : (s.closed o em n).plain = s.plain.filter fun w => w.id ≠ n := by
  have hdeleted : ((State.remembered o { s with selectedWindow := n }).deleted em n).plain =
      s.plain.filter fun w => w.id ≠ n := by
    rw [deleted_plain, remembered_plain]
    rfl
  unfold State.closed
  split
  · exact hdeleted
  · exact hdeleted

end Close

end SrSpeedbar

end EmacsDir
