import EmacsDir.PathLine

/-!
# The two lookups

The lookup of a file is written twice, for a path with a line number and for a plain path, and only the second copy
knows about `f.ts` for `f.js` and about the elisp file `p.el` for `p`.  `xahOpenFileAtCursor_agree_iff` says when the
two copies end in the same way all the same.
-/

namespace EmacsDir

open Command Regexp

/-! ### Extensions -/

theorem matches_extension {c d : Cursor Char} :
    Matches extensionRegexp c d ↔
      ∃ y, c.after = '.' :: y ∧ '.' ∉ y ∧ d = ⟨c.before ++ '.' :: y, [], c.groups⟩ := by
  constructor
  · rintro ⟨_, ⟨a, v, hc, ha, rfl⟩, _, ⟨y, w, hv, hy, rfl⟩, hw, rfl⟩
    obtain rfl : a = '.' := by simpa using ha
    obtain rfl : w = [] := hw
    obtain rfl : v = y := by simpa using hv
    exact ⟨v, hc, fun h => by simpa using hy _ h, by simp⟩
  · rintro ⟨y, hc, hy, rfl⟩
    have hall : ∀ a ∈ y, (a != '.') = true := by
      intro a ha
      rw [bne_iff_ne]
      rintro rfl
      exact hy ha
    refine ⟨_, ⟨'.', y, hc, by simp, rfl⟩, _, ⟨y, [], by simp, hall, rfl⟩, rfl, ?_⟩
    simp

/-- A version suffix ends with a tilde. -/
theorem last_of_matches_version {alnum : Char → Bool} {c d : Cursor Char}
    (h : Matches (fileNameVersionRegexp alnum) c d) : c.after.getLast? = some '~' := by
  obtain ⟨e, hm, he, rfl⟩ := h
  have htilde : ∀ {c e : Cursor Char}, Matches (char (· == '~')) c e → e.after = [] → c.after.getLast? = some '~' := by
    rintro c e ⟨a, v, hc, ha, rfl⟩ hv
    obtain rfl : a = '~' := by simpa using ha
    rw [hc, show v = [] from hv]
    rfl
  have hextend : ∀ {r : Regexp Char} {c e : Cursor Char}, Matches r c e → e.after.getLast? = some '~' →
      c.after.getLast? = some '~' := by
    intro r c e hr hlast
    obtain ⟨u, -, hc⟩ := hr.text
    rw [hc, List.getLast?_append, hlast]
    rfl
  rcases hm with hm | ⟨_, h₁, _, h₂, _, h₃, _, h₄, h₅⟩
  · exact htilde hm he
  · exact hextend h₁ (hextend h₂ (hextend h₃ (hextend h₄ (htilde h₅ he))))

/-- The extension of a name that ends in `.ts` is `ts` or nothing. -/
theorem extension_ts (alnum : Char → Bool) (q : List Char) :
    fileNameExtension alnum (q ++ ['.', 't', 's']) ≠ some ['j', 's'] := by
  have hname : fileNameNondirectory (q ++ ['.', 't', 's']) = fileNameNondirectory q ++ ['.', 't', 's'] := by
    simp [fileNameNondirectory]
  have hversion : search (fileNameVersionRegexp alnum) (fileNameNondirectory q ++ ['.', 't', 's']) = none := by
    rw [search_eq_none]
    rintro u v d he hm
    have hlast := last_of_matches_version hm
    have hs := congrArg List.getLast? he
    rw [List.getLast?_append, List.getLast?_append, show v.getLast? = some '~' from hlast] at hs
    simp at hs
  unfold fileNameExtension fileNameSansVersions
  rw [hname, hversion]
  cases hm : search extensionRegexp (fileNameNondirectory q ++ ['.', 't', 's']) with
  | none => simp
  | some m =>
    obtain ⟨htext, hmatch⟩ := matches_of_search hm
    obtain ⟨y, hafter, hy, he⟩ := matches_extension.1 hmatch
    have hbefore : m.before ++ m.text = m.before ++ '.' :: y := (Cursor.mk.inj he).1
    have hdot : m.text = '.' :: y := List.append_cancel_left hbefore
    have hend : m.after = [] := (Cursor.mk.inj he).2.1
    rw [hend, List.append_nil, hdot] at htext
    obtain ⟨-, rfl⟩ := split_last_unique (by decide) hy htext
    simp only [hdot]
    split <;> simp

/-! ### Outcomes -/

section Agree

variable {e : Surroundings} {s : Session}

/-- What has happened apart from lookups. -/
def outcome (log : List Event) : List Event :=
  log.filter fun
    | .lookup _ => false
    | _ => true

/-- The question whether to create a file. -/
def createOutcome (e : Surroundings) (p : List Char) : List Event :=
  .ask (createPrompt p) :: if e.answer (createPrompt p) then [.visit p] else []

/-- The path has a TypeScript sibling that is opened in its place. -/
def HasSibling (e : Surroundings) (p : List Char) : Prop :=
  fileNameExtension e.alnum p = some ['j', 's'] ∧
    e.fileExists (fileNameSansExtension e.alnum p ++ ['.', 't', 's']) = true

instance (e : Surroundings) (p : List Char) : Decidable (HasSibling e p) := inferInstanceAs (Decidable (_ ∧ _))

theorem openLine_outcome (p : List Char) (n : Nat) :
    ∃ s', openLine e p n s = some (.ok (), s') ∧
      outcome s'.log = outcome s.log ++ if e.fileExists p then [.visit p] else createOutcome e p := by
  rw [openLine_apply]
  refine ⟨_, rfl, ?_⟩
  unfold createOutcome
  split
  · simp [outcome]
  · split <;> simp [outcome]

theorem openExisting_outcome (p : List Char) :
    ∃ s', openExisting e p s = some (.ok (), s') ∧ outcome s'.log = outcome s.log ++
      [.visit (if HasSibling e p then fileNameSansExtension e.alnum p ++ ['.', 't', 's'] else p)] := by
  unfold openExisting HasSibling
  by_cases hj : fileNameExtension e.alnum p = some ['j', 's']
  · by_cases ht : e.fileExists (fileNameSansExtension e.alnum p ++ ['.', 't', 's']) = true
    · exact ⟨_, by simp [bind_apply, hj, ht]; rfl, by simp [hj, ht, outcome]⟩
    · exact ⟨_, by simp [bind_apply, hj, ht]; rfl, by simp [hj, ht, outcome]⟩
  · exact ⟨_, by simp [bind_apply, pure_apply, hj]; rfl, by simp [hj, outcome]⟩

/-- What comes of a plain path. -/
def plainOutcome (e : Surroundings) (p : List Char) : List Event :=
  if e.fileExists p then
    [.visit (if HasSibling e p then fileNameSansExtension e.alnum p ++ ['.', 't', 's'] else p)]
  else if e.fileExists (p ++ ['.', 'e', 'l']) then [.visit (p ++ ['.', 'e', 'l'])]
  else createOutcome e p

theorem openPlain_outcome (p : List Char) :
    ∃ s', openPlain e p s = some (.ok (), s') ∧ outcome s'.log = outcome s.log ++ plainOutcome e p := by
  unfold openPlain plainOutcome
  rw [bind_ok (fileExistsP_apply e p s)]
  cases he : e.fileExists p with
  | true =>
    obtain ⟨s', hrun, hout⟩ := openExisting_outcome (e := e) (s := ⟨s.buffer, s.log ++ [.lookup p]⟩) p
    refine ⟨s', hrun, ?_⟩
    rw [hout]
    simp [outcome]
  | false =>
    simp only [Bool.false_eq_true, ite_false]
    rw [bind_ok (fileExistsP_apply e _ _)]
    cases hel : e.fileExists (p ++ ['.', 'e', 'l']) with
    | true => exact ⟨_, rfl, by simp [outcome]⟩
    | false =>
      unfold createOutcome
      cases ha : e.answer (createPrompt p) <;>
        exact ⟨_, by simp [bind_apply, pure_apply, ha]; rfl, by simp [outcome]⟩

/-- The two copies agree on a path exactly when it has no TypeScript sibling, if it exists, and no elisp file,
if it does not. -/
theorem plainOutcome_eq_iff (p : List Char) :
    (if e.fileExists p then [.visit p] else createOutcome e p) = plainOutcome e p ↔
      (e.fileExists p = true → ¬ HasSibling e p) ∧
        (e.fileExists p = false → e.fileExists (p ++ ['.', 'e', 'l']) = false) := by
  unfold plainOutcome
  cases he : e.fileExists p with
  | true =>
    by_cases hs : HasSibling e p
    · -- a file with the extension js is not its own sibling
      have hne : p ≠ fileNameSansExtension e.alnum p ++ ['.', 't', 's'] := by
        intro h
        apply extension_ts e.alnum (fileNameSansExtension e.alnum p)
        rw [← h]
        exact hs.1
      simpa [hs] using hne
    · simp [hs]
  | false =>
    cases hel : e.fileExists (p ++ ['.', 'e', 'l']) with
    | true => simp [createOutcome]
    | false => simp

theorem not_begins_of_colon (table : CaseTable) {x y p : List Char} (h : ':' ∉ p) :
    ¬ Begins table.canon (x ++ ':' :: y) p := by
  rw [begins_iff]
  rintro ⟨u, t, rfl, hu⟩
  have hm : table.canon ':' ∈ u.map table.canon := by simp [hu]
  obtain ⟨c, hc, he⟩ := List.mem_map.1 hm
  obtain rfl := (canon_colon table).1 he
  exact h (by simp [hc])

/-- Without a colon there is no URL. -/
theorem not_url_of_colon (table : CaseTable) {p : List Char} (h : ':' ∉ p) :
    ¬ Begins table.canon fileWord p ∧ ¬ IsUrl table.canon p := by
  refine ⟨?_, not_or.2 ⟨?_, ?_⟩⟩
  · exact not_begins_of_colon table (x := ['f', 'i', 'l', 'e']) (y := ['/', '/', '/']) h
  · exact not_begins_of_colon table (x := ['h', 't', 't', 'p']) (y := ['/', '/']) h
  · exact not_begins_of_colon table (x := ['h', 't', 't', 'p', 's']) (y := ['/', '/']) h

/-- A text that the stages leave alone and that is neither a URL nor a path with a line number. -/
structure IsPlain (table : CaseTable) (s : List Char) : Prop where
  no_colon : s.getLast? ≠ some ':'
  no_line : ¬ HasLine s
  not_url : ¬ IsUrl table.canon s
  not_file : ¬ Begins table.canon fileWord s

theorem isPlain_of_colon (table : CaseTable) {p : List Char} (h : ':' ∉ p) : IsPlain table p := by
  obtain ⟨hfile, hurl⟩ := not_url_of_colon table h
  refine ⟨fun hlast => h (List.mem_of_getLast? hlast), ?_, hurl, hfile⟩
  rintro ⟨u, d, rfl, -⟩
  exact h (by simp)

theorem openPath_plain {p : List Char} (hp : IsPlain e.caseTable p) (hnl : '\n' ∉ p) :
    openPath e (decodePath e.caseTable.canon p) = openPlain e p := by
  have hpath : decodePath e.caseTable.canon p = p := by
    unfold decodePath
    rw [stripColon_self _ hp.no_colon, rewriteFileUrl_self hp.not_file hnl]
  have hurl : ¬ (search (urlRegexp e.caseTable.canon) p).isSome = true := by
    rw [search_url]
    exact hp.not_url
  unfold openPath
  rw [hpath, if_neg hurl, search_line_none e.caseTable hp.no_line]

/-- Given `p:n`, the command visits the same file, or asks the same question, as when it is given `p`, exactly when
`p` has no TypeScript sibling, if it exists, and there is no elisp file for it, if it does not exist. -/
theorem xahOpenFileAtCursor_agree_iff (e : Surroundings) (m₁ m₂ : Option Nat) (b₁ b₂ : Buffer) (p : List Char) (n : Nat)
    (hp : p ≠ []) (hcolon : ':' ∉ p) (hnl : '\n' ∉ p) (h₁ : inputStr m₁ b₁ = p ++ ':' :: Nat.toDigits 10 n)
    (h₂ : inputStr m₂ b₂ = p) :
    (∃ s₁ s₂, xahOpenFileAtCursor e m₁ ⟨b₁, []⟩ = some (.ok (), s₁) ∧
      xahOpenFileAtCursor e m₂ ⟨b₂, []⟩ = some (.ok (), s₂) ∧ outcome s₁.log = outcome s₂.log) ↔
      (e.fileExists p = true → ¬ HasSibling e p) ∧
        (e.fileExists p = false → e.fileExists (p ++ ['.', 'e', 'l']) = false) := by
  obtain ⟨hfile, hurl⟩ := not_url_of_colon e.caseTable hcolon
  have hpath : decodePath e.caseTable.canon (p ++ ':' :: Nat.toDigits 10 n) = p ++ ':' :: Nat.toDigits 10 n := by
    simpa using decodePath_line e.caseTable [] [] hp hnl Nat.toDigits_ne_nil (isDigit_toDigits n) hfile
      (Or.inl rfl) (Or.inl rfl)
  obtain ⟨s₁, hrun₁, hout₁⟩ := openLine_outcome (e := e) (s := ⟨b₁, []⟩) p n
  obtain ⟨s₂, hrun₂, hout₂⟩ := openPlain_outcome (e := e) (s := ⟨b₂, []⟩) p
  rw [xahOpenFileAtCursor_apply, xahOpenFileAtCursor_apply, h₁, h₂, hpath, openPath_line hp hnl hurl,
    openPath_plain (isPlain_of_colon _ hcolon) hnl, hrun₁, hrun₂, ← plainOutcome_eq_iff]
  constructor
  · rintro ⟨_, _, he₁, he₂, heq⟩
    cases he₁
    cases he₂
    rw [hout₁, hout₂] at heq
    simpa [outcome] using heq
  · intro heq
    refine ⟨s₁, s₂, rfl, rfl, ?_⟩
    rw [hout₁, hout₂, heq]

/-- An existing file without an extension. -/
theorem xahOpenFileAtCursor_agree_existing :
    ∃ s₁ s₂, xahOpenFileAtCursor (someFiles [['a']]) none ⟨⟨[], ['a', ':', '7']⟩, []⟩ = some (.ok (), s₁) ∧
      xahOpenFileAtCursor (someFiles [['a']]) none ⟨⟨[], ['a']⟩, []⟩ = some (.ok (), s₂) ∧
      outcome s₁.log = outcome s₂.log :=
  (xahOpenFileAtCursor_agree_iff (someFiles [['a']]) none none ⟨[], ['a', ':', '7']⟩ ⟨[], ['a']⟩ ['a'] 7 (by decide)
    (by decide) (by decide) rfl rfl).2 ⟨fun _ h => absurd h.1 (by decide), fun h => absurd h (by decide)⟩

/-- For `f.js:1` the command visits `f.js`, and for `f.js` it visits `f.ts`. -/
theorem xahOpenFileAtCursor_agree_sibling :
    ¬ ∃ s₁ s₂, xahOpenFileAtCursor (someFiles [['f', '.', 'j', 's'], ['f', '.', 't', 's']]) none
        ⟨⟨[], ['f', '.', 'j', 's', ':', '1']⟩, []⟩ = some (.ok (), s₁) ∧
      xahOpenFileAtCursor (someFiles [['f', '.', 'j', 's'], ['f', '.', 't', 's']]) none
        ⟨⟨[], ['f', '.', 'j', 's']⟩, []⟩ = some (.ok (), s₂) ∧ outcome s₁.log = outcome s₂.log := by
  have hrun₁ : xahOpenFileAtCursor (someFiles [['f', '.', 'j', 's'], ['f', '.', 't', 's']]) none
      ⟨⟨[], ['f', '.', 'j', 's', ':', '1']⟩, []⟩ =
        some (.ok (), ⟨⟨[], []⟩, [.lookup ['f', '.', 'j', 's'], .visit ['f', '.', 'j', 's']]⟩) := by rfl
  have hrun₂ : xahOpenFileAtCursor (someFiles [['f', '.', 'j', 's'], ['f', '.', 't', 's']]) none
      ⟨⟨[], ['f', '.', 'j', 's']⟩, []⟩ = some (.ok (), ⟨⟨[], []⟩,
        [.lookup ['f', '.', 'j', 's'], .lookup ['f', '.', 't', 's'], .visit ['f', '.', 't', 's']]⟩) := by rfl
  rw [hrun₁, hrun₂]
  rintro ⟨_, _, h₁, h₂, h⟩
  cases h₁
  cases h₂
  revert h
  decide

end Agree

end EmacsDir
