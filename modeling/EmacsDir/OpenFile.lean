import EmacsDir.Buffer
import EmacsDir.CaseTable
import EmacsDir.FileName

/-!
# `xah-open-file-at-cursor`

The command of `init.el`: it cuts a token around point (or takes the active region), rewrites it in two steps and then
tries it as a URL, as a path with a line number and as a plain path.  What it asks of its surroundings is logged, so
that the lookups, the file it visits and the question it asks can be told apart.
-/

namespace EmacsDir

open Command Regexp

/-- What the command meets: the case table of the search, the letters and digits, the existing files, the buffer that
`find-file` shows for a file, the answers of the user, and `xahsite-url-to-filepath` if it is bound. -/
structure Surroundings where
  caseTable : CaseTable
  alnum : Char → Bool
  fileExists : List Char → Bool
  fileBuffer : List Char → Buffer
  answer : List Char → Bool
  urlToFilepath : Option (List Char → List Char)

inductive Event
  | lookup (file : List Char)
  | visit (file : List Char)
  | browse (url : List Char)
  | message (text : List Char)
  | ask (prompt : List Char)
  deriving DecidableEq, Repr

/-- The current buffer and what has happened so far. -/
structure Session where
  buffer : Buffer
  log : List Event

/-- The characters of `$pathStops`, written by their codes where they are quotes or brackets.  The backslash that ends
the string quotes nothing and stops nothing. -/
def pathStops : List Char :=
  [' ', '\t', '\n', '\x22', '\x60', '\x27', '‘', '’', '“', '”', '|', '[', ']', '\x7b', '\x7d', '「', '」', '<', '>', '〔',
    '〕', '〈', '〉', '《', '》', '【', '】', '〖', '〗', '«', '»', '‹', '›', '❮', '❯', '❬', '❭', '〘', '〙', '·', '。']

def isPathStop (c : Char) : Bool := pathStops.contains c

/-- The token around point. -/
def tokenAtPoint (b : Buffer) : List Char :=
  let p0 := b.point
  let b1 := b.skipCharsBackward (fun c => !isPathStop c)
  let p1 := b1.point
  let b2 := (b1.gotoChar p0).skipCharsForward (fun c => !isPathStop c)
  let p2 := b2.point
  (b2.gotoChar p0).substring p1 p2

/-- `$inputStr`; `mark` is the mark of an active region, which an empty region does not count as. -/
def inputStr (mark : Option Nat) (b : Buffer) : List Char :=
  match mark with
  | some m => if m = b.point then tokenAtPoint b else b.substring (min m b.point) (max m b.point)
  | none => tokenAtPoint b

/-- `:\'` -/
def colonEndRegexp (canon : Char → Char) : Regexp Char := seq (word canon [':']) stringEnd

/-- `^file:///` -/
def fileUrlRegexp (canon : Char → Char) : Regexp Char :=
  seq (behind (· == '\n')) (word canon ['f', 'i', 'l', 'e', ':', '/', '/', '/'])

/-- `` \`https?:// `` -/
def urlRegexp (canon : Char → Char) : Regexp Char :=
  seq stringStart (seq (word canon ['h', 't', 't', 'p'])
    (seq (opt (word canon ['s'])) (word canon [':', '/', '/'])))

/-- `^http` -/
def httpRegexp (canon : Char → Char) : Regexp Char :=
  seq (behind (· == '\n')) (word canon ['h', 't', 't', 'p'])

/-- `` ^\`\(.+?\):\([0-9]+\)\' `` -/
def lineRegexp (canon : Char → Char) : Regexp Char :=
  seq (behind (· == '\n')) (seq stringStart (seq (group 1 (plus false (· != '\n')))
    (seq (word canon [':']) (seq (group 2 (plus true Char.isDigit)) stringEnd))))

/-- `$path` -/
def decodePath (canon : Char → Char) (input : List Char) : List Char :=
  replaceAll (fileUrlRegexp canon) ['/'] (replaceAll (colonEndRegexp canon) [] input)

/-- `string-to-number`, on digits. -/
def stringToNumber (digits : List Char) : Nat := Nat.ofDigitChars 10 digits 0

def createPrompt (file : List Char) : List Char := "file no exist: 「".toList ++ file ++ "」. Create?".toList

def logEvent (ev : Event) : Command Signal Session Unit := update fun s => { s with log := s.log ++ [ev] }

def fileExistsP (e : Surroundings) (file : List Char) : Command Signal Session Bool := do
  logEvent (.lookup file)
  pure (e.fileExists file)

def findFile (e : Surroundings) (file : List Char) : Command Signal Session Unit := do
  logEvent (.visit file)
  update fun s => { s with buffer := e.fileBuffer file }

def yOrNP (e : Surroundings) (prompt : List Char) : Command Signal Session Bool := do
  logEvent (.ask prompt)
  pure (e.answer prompt)

@[simp] theorem fileExistsP_apply (e : Surroundings) (file : List Char) (s : Session) :
    fileExistsP e file s = some (.ok (e.fileExists file), ⟨s.buffer, s.log ++ [.lookup file]⟩) := rfl

@[simp] theorem findFile_apply (e : Surroundings) (file : List Char) (s : Session) :
    findFile e file s = some (.ok (), ⟨e.fileBuffer file, s.log ++ [.visit file]⟩) := rfl

@[simp] theorem yOrNP_apply (e : Surroundings) (prompt : List Char) (s : Session) :
    yOrNP e prompt s = some (.ok (e.answer prompt), ⟨s.buffer, s.log ++ [.ask prompt]⟩) := rfl

/-- A URL goes to the browser, or to the file that it stands for on this site. -/
def openUrl (e : Surroundings) (path : List Char) : Command Signal Session Unit :=
  match e.urlToFilepath with
  | some toFilepath => do
    let x := toFilepath path
    if (search (httpRegexp e.caseTable.canon) x).isSome then
      logEvent (.browse x)
    else
      logEvent (.message "not url, so find-file".toList)
      findFile e x
  | none => logEvent (.browse path)

/-- A path with a line number.  The count of `forward-line` is -1 for the number 0, which keeps point at the beginning
of the buffer as 0 does. -/
def openLine (e : Surroundings) (fpath : List Char) (lineNum : Nat) : Command Signal Session Unit := do
  if ← fileExistsP e fpath then
    findFile e fpath
    update fun s => { s with buffer := s.buffer.gotoChar 1 }
    update fun s => { s with buffer := s.buffer.forwardLines (lineNum - 1) }
  else if ← yOrNP e (createPrompt fpath) then
    findFile e fpath

/-- The file itself, or `f.ts` for `f.js`. -/
def openExisting (e : Surroundings) (path : List Char) : Command Signal Session Unit := do
  let ext := fileNameExtension e.alnum path
  let fnamecore := fileNameSansExtension e.alnum path
  if ← (if ext = some ['j', 's'] then fileExistsP e (fnamecore ++ ['.', 't', 's']) else pure false) then
    findFile e (fnamecore ++ ['.', 't', 's'])
  else
    findFile e path

/-- A plain path. -/
def openPlain (e : Surroundings) (path : List Char) : Command Signal Session Unit := do
  if ← fileExistsP e path then
    openExisting e path
  else if ← fileExistsP e (path ++ ['.', 'e', 'l']) then
    findFile e (path ++ ['.', 'e', 'l'])
  else if ← yOrNP e (createPrompt path) then
    findFile e path

def openPath (e : Surroundings) (path : List Char) : Command Signal Session Unit :=
  if (search (urlRegexp e.caseTable.canon) path).isSome then
    openUrl e path
  else
    match search (lineRegexp e.caseTable.canon) path with
    | some m => openLine e ((m.group 1).getD []) (stringToNumber ((m.group 2).getD []))
    | none => openPlain e path

def xahOpenFileAtCursor (e : Surroundings) (mark : Option Nat) : Command Signal Session Unit := do
  let input ← gets fun s => inputStr mark s.buffer
  openPath e (decodePath e.caseTable.canon input)

end EmacsDir
