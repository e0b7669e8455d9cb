import EmacsDir.Speedbar

/-!
# What the speedbar does

The assumptions on the operations of the speedbar (`SpeedbarLaws`), and from them what the parts of a tick do to the
lines that carry the highlight: `unmarkLast` takes it from the last file's line, `markCurrent` gives it to the current
file's line if this is listed, and nothing else changes.
-/

namespace EmacsDir

open Command

variable {W : Type}

/-- The name of a file stands in the listing, and some character of it has the highlight. -/
def Carries (nameSpan : W → List Char → Option (Nat × Nat)) (bar : Bar W) (file : List Char) : Prop :=
  ∃ a b, nameSpan bar.world file = some (a, b) ∧
    ∃ i g, a ≤ i ∧ i < b ∧ bar.shown[i]? = some g ∧ g.face = .currentBuffer

/-- An operation has left the lines of the files and their highlights as they were. -/
structure Kept (nameSpan : W → List Char → Option (Nat × Nat)) (bufferName : List Char) (bar bar' : Bar W) : Prop where
  listed : ∀ f, (nameSpan bar'.world f).isSome = (nameSpan bar.world f).isSome
  carries : ∀ f, Carries nameSpan bar' f ↔ Carries nameSpan bar f
  currentBuffer : bar'.currentBuffer = bar.currentBuffer ∨ bar'.currentBuffer = bufferName

/-- What is assumed of the speedbar.  `nameSpan` says where the name of a listed file stands, `files` which files the
listing of a directory shows. -/
structure SpeedbarLaws (sb : Speedbar W) where
  nameSpan : W → List Char → Option (Nat × Nat)
  files : List Char → List Char → Prop
  /-- The name of the speedbar's own buffer. -/
  bufferName : List Char
  bufferName_file : ∀ d, ¬ files d bufferName
  span_lt : ∀ {w f a b}, nameSpan w f = some (a, b) → a < b
  span_disjoint : ∀ {w f f' a b a' b'}, nameSpan w f = some (a, b) → nameSpan w f' = some (a', b') → f ≠ f' →
    b ≤ a' ∨ b' ≤ a
  /-- The redrawn listing shows the files of the directory, with whatever faces. -/
  refresh : ∀ {d bar bar'}, sb.refresh d bar = some (.ok (), bar') →
    (∀ f, (nameSpan bar'.world f).isSome = true ↔ files d f) ∧
      (bar'.currentBuffer = bar.currentBuffer ∨ bar'.currentBuffer = bufferName)
  /-- The lookup succeeds exactly for a listed file, and then group 1 is its name; else it leaves the match data. -/
  find : ∀ f bar, ∃ bar', sb.findSelectedFile f bar = some (.ok (nameSpan bar.world f).isSome, bar') ∧
    bar'.shown = bar.shown ∧ nameSpan bar'.world = nameSpan bar.world ∧
    bar'.matchData = (nameSpan bar.world f).or bar.matchData ∧
    (bar'.currentBuffer = bar.currentBuffer ∨ bar'.currentBuffer = bufferName)
  /-- Contracting and expanding come to an end, whatever they search, and no operation gives the highlight to a
  character. -/
  contract : ∀ bar, ∃ bar', sb.contractLine bar = some (.ok (), bar') ∧ Kept nameSpan bufferName bar bar' ∧
    ∀ g ∈ bar'.shown, g.face = .currentBuffer → g ∈ bar.shown
  expand : ∀ bar, ∃ bar', sb.expandLine bar = some (.ok (), bar') ∧ Kept nameSpan bufferName bar bar' ∧
    ∀ g, g.face = .currentBuffer → (g ∈ bar'.shown ↔ g ∈ bar.shown)
  scroll : ∀ {window num bar bar'}, sb.scrollUp window num bar = some (.ok (), bar') →
    Kept nameSpan bufferName bar bar' ∧ ∀ g, g.face = .currentBuffer → (g ∈ bar'.shown ↔ g ∈ bar.shown)

theorem or_eq_trans {α : Type} {x y z n : α} (h : y = x ∨ y = n) (h' : z = y ∨ z = n) : z = x ∨ z = n := by
  rcases h' with h' | h'
  · rw [h']
    exact h
  · exact Or.inr h'

theorem Kept.refl {nameSpan : W → List Char → Option (Nat × Nat)} {bufferName : List Char} {bar bar' : Bar W}
    (hs : bar'.shown = bar.shown) (hw : nameSpan bar'.world = nameSpan bar.world)
    (hc : bar'.currentBuffer = bar.currentBuffer ∨ bar'.currentBuffer = bufferName) :
    Kept nameSpan bufferName bar bar' where
  listed f := by rw [hw]
  carries f := by unfold Carries; rw [hs, hw]
  currentBuffer := hc

theorem Kept.trans {nameSpan : W → List Char → Option (Nat × Nat)} {bufferName : List Char} {bar₁ bar₂ bar₃ : Bar W}
    (h : Kept nameSpan bufferName bar₁ bar₂) (h' : Kept nameSpan bufferName bar₂ bar₃) :
    Kept nameSpan bufferName bar₁ bar₃ where
  listed f := (h'.listed f).trans (h.listed f)
  carries f := (h'.carries f).trans (h.carries f)
  currentBuffer := or_eq_trans h.currentBuffer h'.currentBuffer

theorem getElem?_setFace (a b : Nat) (face : Face) (shown : List Glyph) (i : Nat) :
    (setFace a b face shown)[i]? = shown[i]?.map fun g => if a ≤ i ∧ i < b then { g with face := face } else g := by
  unfold setFace
  rw [List.getElem?_mapIdx]

/-- `put-text-property` succeeds exactly for a group 1 inside the listing. -/
theorem putFace_eq_ok {face : Face} {bar bar' : Bar W} :
    putFace face bar = some (.ok (), bar') ↔ ∃ a b, bar.matchData = some (a, b) ∧ a ≤ b ∧ b ≤ bar.shown.length ∧
      bar' = { bar with shown := setFace a b face bar.shown } := by
  unfold putFace
  rcases hm : bar.matchData with _ | ⟨a, b⟩
  · simp
  · by_cases h : a ≤ b ∧ b ≤ bar.shown.length
    · simp only [h, and_self, ite_true]
      constructor
      · intro he
        obtain rfl := (Prod.mk.inj (Option.some.inj he)).2
        exact ⟨a, b, rfl, h.1, h.2, rfl⟩
      · rintro ⟨a', b', he, -, -, rfl⟩
        obtain ⟨rfl, rfl⟩ := Prod.mk.inj (Option.some.inj he)
        rfl
    · simp only [h, ite_false]
      constructor
      · rintro ⟨⟩
      · rintro ⟨a', b', he, hab, hb, -⟩
        cases he
        exact absurd ⟨hab, hb⟩ h

section Laws

variable {sb : Speedbar W} (laws : SpeedbarLaws sb)

/-- A face put on the name of a file concerns its line only. -/
theorem carries_setFace {bar : Bar W} {f : List Char} {a b : Nat} {face : Face}
    (hf : laws.nameSpan bar.world f = some (a, b)) (hb : b ≤ bar.shown.length) (f' : List Char) :
    Carries laws.nameSpan { bar with shown := setFace a b face bar.shown } f' ↔
      if f' = f then face = .currentBuffer else Carries laws.nameSpan bar f' := by
  have hab := laws.span_lt hf
  split
  · rename_i h
    subst h
    constructor
    · rintro ⟨a', b', hspan, i, g, hi, hi', hg, hface⟩
      have hspan' : some (a, b) = some (a', b') := hf.symm.trans hspan
      cases hspan'
      rw [getElem?_setFace] at hg
      obtain ⟨g', -, rfl⟩ := Option.map_eq_some_iff.1 hg
      simpa [hi, hi'] using hface
    · rintro rfl
      obtain ⟨g, hg⟩ : ∃ g, bar.shown[a]? = some g := ⟨_, List.getElem?_eq_getElem (by omega)⟩
      refine ⟨a, b, hf, a, { g with face := .currentBuffer }, Nat.le_refl a, hab, ?_, rfl⟩
      rw [getElem?_setFace, hg]
      simp [hab]
  · rename_i hne
    -- the other name lies outside the span
    have hsame : ∀ {a' b' i : Nat}, laws.nameSpan bar.world f' = some (a', b') → a' ≤ i → i < b' →
        (setFace a b face bar.shown)[i]? = bar.shown[i]? := by
      intro a' b' i hspan hi hi'
      have hout : ¬ (a ≤ i ∧ i < b) := by
        rcases laws.span_disjoint hspan hf hne with h | h <;> omega
      rw [getElem?_setFace]
      simp [hout]
    constructor
    · rintro ⟨a', b', hspan, i, g, hi, hi', hg, hface⟩
      have hg' : bar.shown[i]? = some g := (hsame hspan hi hi').symm.trans hg
      exact ⟨a', b', hspan, i, g, hi, hi', hg', hface⟩
    · rintro ⟨a', b', hspan, i, g, hi, hi', hg, hface⟩
      exact ⟨a', b', hspan, i, g, hi, hi', (hsame hspan hi hi').trans hg, hface⟩

theorem Carries.listed {nameSpan : W → List Char → Option (Nat × Nat)} {bar : Bar W} {f : List Char}
    (h : Carries nameSpan bar f) : (nameSpan bar.world f).isSome = true := by
  obtain ⟨a, b, hspan, -⟩ := h
  rw [hspan]
  rfl

/-- A last file that is not listed is looked up in vain. -/
theorem unmarkLast_unlisted {bar bar₁ : Bar W} {last : List Char}
    (hfind : sb.findSelectedFile last bar = some (.ok false, bar₁)) :
    unmarkLast sb last bar = some (.ok (), bar₁) := by
  unfold unmarkLast
  rw [bind_ok hfind]
  rfl

/-- A last file that is listed loses its highlight, and then its line is contracted. -/
theorem unmarkLast_listed {bar bar₁ : Bar W} {last : List Char} {a b : Nat}
    (hspan : laws.nameSpan bar.world last = some (a, b))
    (hfind : sb.findSelectedFile last bar = some (.ok true, bar₁)) (hshown : bar₁.shown = bar.shown)
    (hmatch : bar₁.matchData = some (a, b)) (bar₂ : Bar W) :
    unmarkLast sb last bar = some (.ok (), bar₂) ↔ b ≤ bar.shown.length ∧
      sb.contractLine { bar₁ with shown := setFace a b .file bar₁.shown } = some (.ok (), bar₂) := by
  unfold unmarkLast
  rw [bind_ok hfind, if_pos rfl, bind_eq_ok_iff]
  constructor
  · rintro ⟨_, bar', hput, hcontract⟩
    obtain ⟨a', b', hab, -, hlen, rfl⟩ := putFace_eq_ok.1 hput
    obtain ⟨rfl, rfl⟩ := Prod.mk.inj (Option.some.inj (hmatch.symm.trans hab))
    exact ⟨hshown ▸ hlen, hcontract⟩
  · rintro ⟨hlen, hcontract⟩
    have hle : a ≤ b := Nat.le_of_lt (laws.span_lt hspan)
    exact ⟨(), _, putFace_eq_ok.2 ⟨a, b, hmatch, hle, hshown ▸ hlen, rfl⟩, hcontract⟩

/-- Unmarking the last file returns in two ways: this is not listed, or its line is contracted. -/
theorem unmarkLast_cases {bar bar' : Bar W} {last : List Char} (h : unmarkLast sb last bar = some (.ok (), bar')) :
    ∃ bar₁, sb.findSelectedFile last bar = some (.ok (laws.nameSpan bar.world last).isSome, bar₁) ∧
      bar₁.shown = bar.shown ∧ Kept laws.nameSpan laws.bufferName bar bar₁ ∧
      ((laws.nameSpan bar.world last = none ∧ bar' = bar₁) ∨
        ∃ a b, laws.nameSpan bar₁.world last = some (a, b) ∧ b ≤ bar₁.shown.length ∧
          sb.contractLine { bar₁ with shown := setFace a b .file bar₁.shown } = some (.ok (), bar')) := by
  obtain ⟨bar₁, hfind, hs, hw, hm, hc⟩ := laws.find last bar
  refine ⟨bar₁, hfind, hs, Kept.refl hs hw hc, ?_⟩
  cases hspan : laws.nameSpan bar.world last with
  | none =>
    rw [hspan] at hfind
    exact Or.inl ⟨rfl, state_unique h (unmarkLast_unlisted hfind)⟩
  | some span =>
    obtain ⟨a, b⟩ := span
    rw [hspan] at hfind hm
    obtain ⟨hb, hcontract⟩ := (unmarkLast_listed laws hspan hfind hs hm bar').1 h
    exact Or.inr ⟨a, b, by rw [hw, hspan], hs ▸ hb, hcontract⟩

/-- The last file's line is no longer highlighted, and no other line has changed. -/
theorem unmarkLast_carries {bar bar' : Bar W} {last : List Char} (h : unmarkLast sb last bar = some (.ok (), bar')) :
    (∀ f, (laws.nameSpan bar'.world f).isSome = (laws.nameSpan bar.world f).isSome) ∧
      (∀ f, Carries laws.nameSpan bar' f ↔ Carries laws.nameSpan bar f ∧ f ≠ last) ∧
      (bar'.currentBuffer = bar.currentBuffer ∨ bar'.currentBuffer = laws.bufferName) := by
  obtain ⟨bar₁, -, -, hfound, ⟨hspan, rfl⟩ | ⟨a, b, hspan, hb, hcontract⟩⟩ := unmarkLast_cases laws h
  · refine ⟨hfound.listed, ?_, hfound.currentBuffer⟩
    intro f
    rw [hfound.carries]
    constructor
    · intro hf
      refine ⟨hf, ?_⟩
      rintro rfl
      have hlisted := hf.listed
      rw [hspan] at hlisted
      cases hlisted
    · exact And.left
  · obtain ⟨bar₂, hcontract₂, hkept, -⟩ := laws.contract { bar₁ with shown := setFace a b .file bar₁.shown }
    obtain rfl := state_unique hcontract₂ hcontract
    refine ⟨?_, ?_, or_eq_trans hfound.currentBuffer hkept.currentBuffer⟩
    · intro f
      rw [hkept.listed, ← hfound.listed]
    · intro f
      rw [hkept.carries, carries_setFace laws hspan hb, ← hfound.carries]
      split
      · simp [*]
      · simp [*]

/-- The current file's line is highlighted, if it is listed, and no other line has changed. -/
theorem markCurrent_carries {bar bar' : Bar W} {current : List Char}
    (hlisted : (laws.nameSpan bar.world current).isSome = true)
    (h : markCurrent sb current bar = some (.ok (), bar')) :
    (∀ f, (laws.nameSpan bar'.world f).isSome = (laws.nameSpan bar.world f).isSome) ∧
      ∀ f, Carries laws.nameSpan bar' f ↔ Carries laws.nameSpan bar f ∨ f = current := by
  obtain ⟨bar₁, hfind, hs, hw, hm, hc⟩ := laws.find current bar
  have hfound : Kept laws.nameSpan laws.bufferName bar bar₁ := Kept.refl hs hw hc
  obtain ⟨⟨a, b⟩, hspan⟩ := Option.isSome_iff_exists.1 hlisted
  unfold markCurrent at h
  rw [bind_ok hfind] at h
  obtain ⟨a', b', hm', hle, hb, rfl⟩ := putFace_eq_ok.1 h
  rw [hspan] at hm
  have hab : some (a, b) = some (a', b') := by rw [← hm', hm]; rfl
  cases hab
  have hspan₁ : laws.nameSpan bar₁.world current = some (a, b) := by rw [hw, hspan]
  refine ⟨hfound.listed, ?_⟩
  intro f
  rw [carries_setFace laws hspan₁ hb, ← hfound.carries]
  split
  · simp [*]
  · simp [*]

end Laws

section Showing

variable {sb : Speedbar W} {table : CaseTable} {current : List Char} {bar bar' : Bar W}

theorem saveCurrentBuffer_eq_ok_iff {c : Command Signal (Bar W) Unit} :
    saveCurrentBuffer c bar = some (.ok (), bar') ↔
      ∃ bar₁, c bar = some (.ok (), bar₁) ∧ bar' = { bar₁ with currentBuffer := bar.currentBuffer } := by
  unfold saveCurrentBuffer
  constructor
  · intro h
    split at h
    · cases h
    · rename_i r bar₁ hc
      obtain ⟨rfl, rfl⟩ := Prod.mk.inj (Option.some.inj h)
      exact ⟨bar₁, hc, rfl⟩
  · rintro ⟨bar₁, hc, rfl⟩
    rw [hc]

/-- Scrolling needs a window that shows the speedbar. -/
theorem scrollSpeedbarBufferUp_eq_ok_iff {num : Nat} :
    scrollSpeedbarBufferUp sb num bar = some (.ok (), bar') ↔
      ∃ window bar₁, sb.getBufferWindow bar.world = some window ∧ sb.scrollUp window num bar = some (.ok (), bar₁) ∧
        bar' = { bar₁ with currentBuffer := bar.currentBuffer } := by
  unfold scrollSpeedbarBufferUp
  rw [saveCurrentBuffer_eq_ok_iff]
  cases hw : sb.getBufferWindow bar.world with
  | none =>
    have hgets : (gets fun bar => sb.getBufferWindow bar.world : Command Signal (Bar W) (Option Nat)) bar =
        some (.ok none, bar) := by rw [← hw]; rfl
    rw [bind_ok hgets]
    constructor
    · rintro ⟨bar₁, hsignal, -⟩
      cases hsignal
    · rintro ⟨window, bar₁, hwindow, -⟩
      cases hwindow
  | some window =>
    have hgets : (gets fun bar => sb.getBufferWindow bar.world : Command Signal (Bar W) (Option Nat)) bar =
        some (.ok (some window), bar) := by rw [← hw]; rfl
    rw [bind_ok hgets]
    constructor
    · rintro ⟨bar₁, hscroll, rfl⟩
      exact ⟨window, bar₁, rfl, hscroll, rfl⟩
    · rintro ⟨window', bar₁, hwindow, hscroll, rfl⟩
      cases hwindow
      exact ⟨bar₁, hscroll, rfl⟩

/-- Up to line 20 nothing is scrolled. -/
theorem scrollIntoView_eq (l1 : Nat) :
    (if l1 < 20 then scrollSpeedbarBufferUp sb 0 else scrollSpeedbarBufferUp sb (l1 - 20)) =
      scrollSpeedbarBufferUp sb (l1 - 20) := by
  split
  · rename_i h
    rw [Nat.sub_eq_zero_of_le (Nat.le_of_lt h)]
  · rfl

/-- One of the five strings occurs in the path. -/
def ContainsSuffix (table : CaseTable) (path : List Char) : Prop :=
  (Regexp.search (expandedRegexp table.canon) path).isSome = true

/-- A source file is expanded and scrolled into view from the line where it was found. -/
theorem showCurrent_of_suffix (h : ContainsSuffix table current) :
    showCurrent sb table current bar =
      (sb.expandLine >>= fun _ => scrollSpeedbarBufferUp sb (sb.lineNumberAtPos bar - 20))
        { bar with matchData := none } := by
  have hm : stringMatch (expandedRegexp table.canon) current bar =
      some (.ok true, { bar with matchData := none }) := if_pos h
  unfold showCurrent
  rw [bind_ok (c := gets sb.lineNumberAtPos) rfl, bind_ok hm, if_pos rfl, scrollIntoView_eq]

theorem showCurrent_of_not_suffix (h : ¬ ContainsSuffix table current) :
    showCurrent sb table current bar = scrollSpeedbarBufferUp sb (sb.lineNumberAtPos bar - 20) bar := by
  have hm : stringMatch (expandedRegexp table.canon) current bar = some (.ok false, bar) := if_neg h
  unfold showCurrent
  rw [bind_ok (c := gets sb.lineNumberAtPos) rfl, bind_ok hm, if_neg Bool.false_ne_true, scrollIntoView_eq]

/-- What scrolling leaves: the lines of the files, their highlights and the current buffer. -/
theorem scrollSpeedbarBufferUp_kept (laws : SpeedbarLaws sb) {num : Nat}
    (h : scrollSpeedbarBufferUp sb num bar = some (.ok (), bar')) :
    Kept laws.nameSpan laws.bufferName bar bar' ∧
      ∀ g, g.face = .currentBuffer → (g ∈ bar'.shown ↔ g ∈ bar.shown) := by
  obtain ⟨window, bar₁, -, hscroll, rfl⟩ := scrollSpeedbarBufferUp_eq_ok_iff.1 h
  obtain ⟨hkept, hfaces⟩ := laws.scroll hscroll
  exact ⟨⟨hkept.listed, hkept.carries, Or.inl rfl⟩, hfaces⟩

/-- Showing the current file touches no highlight. -/
theorem showCurrent_kept (laws : SpeedbarLaws sb) (h : showCurrent sb table current bar = some (.ok (), bar')) :
    Kept laws.nameSpan laws.bufferName bar bar' ∧
      ∀ g, g.face = .currentBuffer → (g ∈ bar'.shown ↔ g ∈ bar.shown) := by
  by_cases hc : ContainsSuffix table current
  · rw [showCurrent_of_suffix hc] at h
    obtain ⟨_, bar₁, hexpand, hscroll⟩ := bind_eq_ok_iff.1 h
    obtain ⟨bar₂, hexpand₂, hkept₁, hfaces₁⟩ := laws.expand { bar with matchData := none }
    obtain rfl := state_unique hexpand₂ hexpand
    obtain ⟨hkept₂, hfaces₂⟩ := scrollSpeedbarBufferUp_kept laws hscroll
    have hsame : Kept laws.nameSpan laws.bufferName bar { bar with matchData := none } :=
      Kept.refl rfl rfl (Or.inl rfl)
    exact ⟨(hsame.trans hkept₁).trans hkept₂, fun g hg => (hfaces₂ g hg).trans (hfaces₁ g hg)⟩
  · rw [showCurrent_of_not_suffix hc] at h
    exact scrollSpeedbarBufferUp_kept laws h

end Showing

end EmacsDir
