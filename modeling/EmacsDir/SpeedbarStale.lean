import EmacsDir.SavedListings

/-!
# A file that is not listed

A tick whose file the listing does not show puts the highlight on whatever group 1 the match data have from an earlier
search.  Contracting the line of the remembered file leaves no group 1, so if this file is listed the tick signals;
otherwise the highlight goes to what was matched before the tick or in redrawing the listing.
-/

namespace EmacsDir

open Command

/-- Group 1 of the match data lies in the listing, and its characters have the highlight there. -/
def Covered {W : Type} (bar : Bar W) : Prop :=
  ∃ a b, bar.matchData = some (a, b) ∧ a ≤ b ∧ b ≤ bar.shown.length ∧
    ∀ i g, a ≤ i → i < b → bar.shown[i]? = some g → { g with face := .currentBuffer } ∈ bar.shown

section Laws

variable {W : Type} {sb : Speedbar W} (laws : SpeedbarLaws sb)

/-- The tick leaves its file alone, or it can show it, the remembered file is not listed, and group 1 is covered. -/
def MarksNothing (t : Tick) (s : SrState W) (current : List Char) (bar : Bar W) : Prop :=
  t.Marks s current → t.CanShow sb s bar ∧
    (∀ last, s.lastBufferFilename = some last → laws.nameSpan bar.world last = none) ∧ Covered bar

theorem mem_setFace {a b : Nat} {face : Face} {shown : List Glyph} {g : Glyph} :
    g ∈ setFace a b face shown ↔
      ∃ i h, shown[i]? = some h ∧ g = if a ≤ i ∧ i < b then { h with face := face } else h := by
  rw [List.mem_iff_getElem?]
  constructor
  · rintro ⟨i, hi⟩
    rw [getElem?_setFace] at hi
    obtain ⟨h, hh, rfl⟩ := Option.map_eq_some_iff.1 hi
    exact ⟨i, h, hh, rfl⟩
  · rintro ⟨i, h, hh, rfl⟩
    exact ⟨i, by rw [getElem?_setFace, hh]; rfl⟩

variable {laws} (view : ViewLaws laws)

include view in
/-- A file that is not listed is marked without new highlights exactly if a window shows the speedbar and group 1 is
covered. -/
theorem markAndShow_unlisted_iff (table : CaseTable) {bar : Bar W} {current : List Char}
    (hcurrent : laws.nameSpan bar.world current = none) :
    (∃ bar', markAndShow sb table current bar = some (.ok (), bar') ∧
        ∀ g ∈ bar'.shown, g.face = .currentBuffer → g ∈ bar.shown) ↔ Visible sb bar.world ∧ Covered bar := by
  obtain ⟨bar₁, hfind, hshown, -, hmatch, -⟩ := laws.find current bar
  rw [hcurrent] at hfind hmatch
  have hmark : markCurrent sb current bar = putFace .currentBuffer bar₁ := bind_ok hfind
  constructor
  · rintro ⟨bar', h, hnew⟩
    obtain ⟨bar₂, hput, hshow⟩ := markAndShow_eq_ok_iff.1 h
    rw [hmark] at hput
    obtain ⟨a, b, hab, hle, hlen, rfl⟩ := putFace_eq_ok.1 hput
    obtain ⟨-, hsame⟩ := showCurrent_kept laws hshow
    refine ⟨(showCurrent_found_iff view hfind _).1 ⟨bar', hshow⟩, a, b, hmatch.symm.trans hab, hle, hshown ▸ hlen, ?_⟩
    intro i g hai hib hg
    have hmem : { g with face := .currentBuffer } ∈ setFace a b .currentBuffer bar₁.shown :=
      mem_setFace.2 ⟨i, g, hshown ▸ hg, by rw [if_pos ⟨hai, hib⟩]⟩
    exact hnew _ ((hsame _ rfl).2 hmem) rfl
  · rintro ⟨hvisible, a, b, hab, hle, hlen, hcov⟩
    have hput : putFace .currentBuffer bar₁ =
        some (.ok (), { bar₁ with shown := setFace a b .currentBuffer bar₁.shown }) :=
      putFace_eq_ok.2 ⟨a, b, hmatch.trans hab, hle, hshown ▸ hlen, rfl⟩
    obtain ⟨bar₃, hshow⟩ : ∃ bar₃, showCurrent sb table current
        { bar₁ with shown := setFace a b .currentBuffer bar₁.shown } = some (.ok (), bar₃) :=
      (showCurrent_found_iff view hfind _).2 hvisible
    obtain ⟨-, hsame⟩ := showCurrent_kept laws hshow
    refine ⟨bar₃, markAndShow_eq_ok_iff.2 ⟨_, hmark.trans hput, hshow⟩, ?_⟩
    intro g hg hface
    -- a highlighted character was marked now or was highlighted before
    obtain ⟨i, h, hh, rfl⟩ := mem_setFace.1 ((hsame g hface).1 hg)
    rw [hshown] at hh
    split
    · rename_i hin
      exact hcov i h hin.1 hin.2 hh
    · exact List.mem_of_getElem? hh

/-- Unmarking the remembered file lists no other file. -/
theorem unmarkRemembered_nameSpan {bar bar' : Bar W} {last : Option (List Char)} {current : List Char}
    (h : unmarkRemembered sb last bar = some (.ok (), bar')) (hcurrent : laws.nameSpan bar.world current = none) :
    laws.nameSpan bar'.world current = none := by
  have hlisted := (unmarkRemembered_carries laws h).1 current
  rw [hcurrent] at hlisted
  simpa using hlisted

/-- A remembered file that is not listed is only looked up. -/
theorem unmarkRemembered_unlisted {bar : Bar W} {last : Option (List Char)}
    (hlast : ∀ file, last = some file → laws.nameSpan bar.world file = none) :
    ∃ bar', unmarkRemembered sb last bar = some (.ok (), bar') ∧ bar'.shown = bar.shown ∧
      bar'.matchData = bar.matchData := by
  cases last with
  | none => exact ⟨bar, rfl, rfl, rfl⟩
  | some last =>
    obtain ⟨bar₁, hfind, hshown, -, hmatch, -⟩ := laws.find last bar
    rw [hlast last rfl] at hfind hmatch
    exact ⟨bar₁, unmarkLast_unlisted hfind, hshown, hmatch⟩

include view in
/-- Behind a remembered file that is not listed, the other one is marked on the match data from before. -/
theorem markAndShow_unlisted_twice (table : CaseTable) {bar bar₂ : Bar W} {last : Option (List Char)}
    {current : List Char} (hlast : ∀ file, last = some file → laws.nameSpan bar.world file = none)
    (hcurrent : laws.nameSpan bar.world current = none)
    (hunmark : unmarkRemembered sb last bar = some (.ok (), bar₂)) :
    (∃ bar₃, markAndShow sb table current bar₂ = some (.ok (), bar₃) ∧
        ∀ g ∈ bar₃.shown, g.face = .currentBuffer → g ∈ bar.shown) ↔ Visible sb bar.world ∧ Covered bar := by
  obtain ⟨bar₁, hunmark₁, hshown, hmatch⟩ := unmarkRemembered_unlisted hlast
  obtain rfl := state_unique hunmark₁ hunmark
  have hiff := markAndShow_unlisted_iff view table (unmarkRemembered_nameSpan hunmark hcurrent)
  have hcovered : Covered bar₁ ↔ Covered bar := by
    unfold Covered
    rw [hshown, hmatch]
  rwa [hshown, hcovered, unmarkRemembered_window view hunmark] at hiff

include view in
/-- If a file that is not listed can be marked, the line of the remembered file has not been contracted before. -/
theorem remembered_unlisted {table : CaseTable} {bar bar₂ bar₃ : Bar W} {last current : List Char}
    (hunmark : unmarkRemembered sb (some last) bar = some (.ok (), bar₂))
    (hcurrent : laws.nameSpan bar₂.world current = none) (h : markAndShow sb table current bar₂ = some (.ok (), bar₃)) :
    laws.nameSpan bar.world last = none := by
  obtain ⟨bar₁, hfind, -, hkept, ⟨hspan, -⟩ | ⟨a, b, hspan, -, hcontract⟩⟩ := unmarkLast_cases laws hunmark
  · exact hspan
  · have hlisted : (laws.nameSpan bar.world last).isSome = true := by
      rw [← hkept.listed, hspan]
      rfl
    rw [hlisted] at hfind
    have hnone : bar₂.matchData = none := view.contract_matchData hfind hcontract
    obtain ⟨bar₄, hfind₂, -, -, hmatch, -⟩ := laws.find current bar₂
    rw [hcurrent, hnone] at hmatch
    obtain ⟨bar₅, hmark, -⟩ := markAndShow_eq_ok_iff.1 h
    unfold markCurrent at hmark
    rw [bind_ok hfind₂] at hmark
    obtain ⟨a', b', hab, -⟩ := putFace_eq_ok.1 hmark
    rw [hmatch] at hab
    cases hab

include view in
/-- A tick whose file is not listed returns normally and gives the highlight to no character exactly if it leaves its
file alone, or a window shows the speedbar, the remembered file is not listed either, and group 1 is covered. -/
theorem srSpeedbarRefresh_unlisted_iff (table : CaseTable) {t : Tick} {s : SrState W} {bar : Bar W}
    {current : List Char} (hfile : t.bufferFileName = some current) (hr : Redrawn sb t s bar)
    (hcurrent : laws.nameSpan bar.world current = none) :
    (∃ s', tick sb table t s = some (.ok (), s') ∧
        ∀ g ∈ s'.bar.shown, g.face = .currentBuffer → g ∈ bar.shown) ↔
      MarksNothing laws t s current bar := by
  unfold MarksNothing
  by_cases hm : t.Marks s current
  · constructor
    · rintro ⟨s', htick, hnew⟩ -
      obtain ⟨hpath, bar₁, bar₂, bar₃, hr₁, hunmark, hshow, rfl⟩ := (tick_marks_eq_ok_iff hm).1 htick
      obtain rfl := hr.unique hr₁
      have hlast : ∀ last, s.lastBufferFilename = some last → laws.nameSpan bar.world last = none := by
        intro last hl
        have hcurrent₂ := unmarkRemembered_nameSpan hunmark hcurrent
        rw [hl] at hunmark
        exact remembered_unlisted view hunmark hcurrent₂ hshow
      obtain ⟨hvisible, hcov⟩ := (markAndShow_unlisted_twice view table hlast hcurrent hunmark).1 ⟨bar₃, hshow, hnew⟩
      exact ⟨⟨hpath, hvisible⟩, hlast, hcov⟩
    · intro h
      obtain ⟨⟨hpath, hvisible⟩, hlast, hcov⟩ := h hm
      obtain ⟨bar₂, hunmark, -⟩ := unmarkRemembered_unlisted hlast
      obtain ⟨bar₃, hshow, hnew⟩ := (markAndShow_unlisted_twice view table hlast hcurrent hunmark).2 ⟨hvisible, hcov⟩
      exact ⟨_, (tick_marks_eq_ok_iff hm).2 ⟨hpath, bar, bar₂, bar₃, hr, hunmark, hshow, rfl⟩, hnew⟩
  · have hrest := (tick_of_not_marks table hfile hm hr).2
    exact ⟨fun _ h => absurd h hm, fun _ => ⟨_, hrest, fun g hg _ => hg⟩⟩

end Laws

/-- After a tick in the first file of `/a/`, but with the name of a buffer without a file remembered. -/
def afterScratch : SrState Listings := { afterFirst with lastBufferFilename := some ['*', 's', '*'] }

/-- Group 1 is on the first file's line, which has the highlight. -/
theorem srSpeedbarRefresh_unlisted_covered : ∃ s',
    tick twoSpeedbar asciiTable (fileTick ['/', 'a', '/'] ['/', 'a', '/', 'q']) afterScratch = some (.ok (), s') ∧
    ∀ g ∈ s'.bar.shown, g.face = .currentBuffer → g ∈ afterScratch.bar.shown := by
  have hd : ¬ (fileTick ['/', 'a', '/'] ['/', 'a', '/', 'q']).ChangesDirectory afterScratch := by decide
  have hr : Redrawn twoSpeedbar (fileTick ['/', 'a', '/'] ['/', 'a', '/', 'q']) afterScratch
      { afterScratch.bar with currentBuffer := ['/', 'a', '/', 'q'] } :=
    (redrawn_of_same hd).2 rfl
  apply (srSpeedbarRefresh_unlisted_iff twoView asciiTable rfl hr rfl).2
  intro _
  refine ⟨⟨Or.inr rfl, rfl⟩, ?_, 0, 1, rfl, by decide, by decide, ?_⟩
  · intro last hlast
    cases hlast
    rfl
  · intro i g hi hi' hg
    obtain rfl : i = 0 := by omega
    obtain rfl := Option.some.inj hg
    decide

/-- From the first file of `/a/` to a file that is not listed: no group 1 is left after the contraction. -/
theorem srSpeedbarRefresh_unlisted_signals :
    twoLaws.nameSpan afterFirst.bar.world ['/', 'a', '/', 'q'] = none ∧
    ¬ ∃ s', tick twoSpeedbar asciiTable (fileTick ['/', 'a', '/'] ['/', 'a', '/', 'q']) afterFirst =
        some (.ok (), s') ∧
      ∀ g ∈ s'.bar.shown, g.face = .currentBuffer → g ∈ afterFirst.bar.shown := by
  refine ⟨rfl, ?_⟩
  rintro ⟨s', htick, -⟩
  cases htick

end EmacsDir
