import EmacsDir.PathAgree

/-!
# Existing files

Before it asks whether a file exists, `xah-open-file-at-cursor` takes the text apart: a colon at the end goes, the
letters `file:///` go, a URL goes to the browser, and `p:n` is a path with a line number.  A text that none of the
four stages takes for something else is the name that is looked up, and if there is such a file the command visits it,
or the TypeScript file that stands for it.
-/

namespace EmacsDir

open Command Regexp

/-- What comes of a text that is selected as the region and makes up the buffer, apart from lookups. -/
def regionOutcome (files : List (List Char)) (s : List Char) : Option (List Event) :=
  (xahOpenFileAtCursor (someFiles files) (some 1) ⟨⟨s, []⟩, []⟩).map fun r => outcome r.2.log

/-- An existing file whose name the stages leave alone is visited, and nothing else happens. -/
theorem xahOpenFileAtCursor_existing (e : Surroundings) (mark : Option Nat) (b : Buffer) (log : List Event)
    (s : List Char) (hinput : inputStr mark b = s) (hnl : '\n' ∉ s) (hplain : IsPlain e.caseTable s)
    (hexists : e.fileExists s = true) :
    ∃ s', xahOpenFileAtCursor e mark ⟨b, log⟩ = some (.ok (), s') ∧ outcome s'.log = outcome log ++
      [.visit (if HasSibling e s then fileNameSansExtension e.alnum s ++ ['.', 't', 's'] else s)] := by
  obtain ⟨s', hrun, hout⟩ := openPlain_outcome (e := e) (s := ⟨b, log⟩) s
  refine ⟨s', ?_, ?_⟩
  · rw [xahOpenFileAtCursor_apply, hinput, openPath_plain hplain hnl, hrun]
  · rw [hout, plainOutcome, if_pos hexists]

/-- A region with a clock time in it. -/
theorem xahOpenFileAtCursor_existing_time :
    ∃ s', xahOpenFileAtCursor (someFiles [['1', ':', '2', 'a']]) (some 1) ⟨⟨['1', ':', '2', 'a'], []⟩, []⟩ =
        some (.ok (), s') ∧ outcome s'.log = outcome [] ++
      [.visit (if HasSibling (someFiles [['1', ':', '2', 'a']]) ['1', ':', '2', 'a'] then
        fileNameSansExtension Char.isAlphanum ['1', ':', '2', 'a'] ++ ['.', 't', 's'] else ['1', ':', '2', 'a'])] := by
  refine xahOpenFileAtCursor_existing (someFiles [['1', ':', '2', 'a']]) (some 1) ⟨['1', ':', '2', 'a'], []⟩ []
    ['1', ':', '2', 'a'] rfl (by decide) ⟨by decide, ?_, by unfold IsUrl; decide, by decide⟩ rfl
  rintro ⟨p, d, hsplit, -, -, hdd⟩
  have hcolon : ':' ∉ d := fun h => by simpa using hdd _ h
  obtain ⟨-, rfl⟩ := split_last_unique (p := ['1']) (d := ['2', 'a']) (by decide) hcolon hsplit
  exact absurd (hdd 'a' (by decide)) (by decide)

/-- The file `a:1` is not visited: the text is line 1 of `a`.  Nor are files visited whose names end with a colon or
begin with a scheme in capitals, and a TypeScript file stands for a backup file too. -/
theorem xahOpenFileAtCursor_existing_mistaken :
    ((someFiles [['a', ':', '1'], ['a']]).fileExists ['a', ':', '1'] = true ∧ ¬ httpWord <+: ['a', ':', '1'] ∧
      ¬ httpsWord <+: ['a', ':', '1'] ∧ ¬ fileWord <+: ['a', ':', '1'] ∧
      ¬ ∃ s', xahOpenFileAtCursor (someFiles [['a', ':', '1'], ['a']]) (some 1) ⟨⟨['a', ':', '1'], []⟩, []⟩ =
        some (.ok (), s') ∧ outcome s'.log = [.visit ['a', ':', '1']]) ∧
    regionOutcome [['a', ':'], ['a']] ['a', ':'] = some [.visit ['a']] ∧
    regionOutcome [['H', 'T', 'T', 'P', ':', '/', '/', 'a']] ['H', 'T', 'T', 'P', ':', '/', '/', 'a'] =
      some [.browse ['H', 'T', 'T', 'P', ':', '/', '/', 'a']] ∧
    regionOutcome [['F', 'i', 'l', 'e', ':', '/', '/', '/', 'a'], ['/', 'a']]
      ['F', 'i', 'l', 'e', ':', '/', '/', '/', 'a'] = some [.visit ['/', 'a']] ∧
    regionOutcome [['a', '.', 'j', 's', '~'], ['a', '.', 't', 's']] ['a', '.', 'j', 's', '~'] =
      some [.visit ['a', '.', 't', 's']] := by
  refine ⟨⟨by decide, by decide, by decide, by decide, ?_⟩, rfl, rfl, rfl, rfl⟩
  have hrun : xahOpenFileAtCursor (someFiles [['a', ':', '1'], ['a']]) (some 1) ⟨⟨['a', ':', '1'], []⟩, []⟩ =
      some (.ok (), ⟨⟨[], []⟩, [.lookup ['a'], .visit ['a']]⟩) := by rfl
  rw [hrun]
  rintro ⟨s', he, hl⟩
  cases he
  revert hl
  decide

end EmacsDir
