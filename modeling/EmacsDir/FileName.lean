import EmacsDir.Regexp

/-!
# File names

The functions on file names that `xah-open-file-at-cursor` calls, as the editor's library defines them: the directory
ends with the last slash, a version or backup suffix does not count, and the extension begins with the last dot unless
this is the first character.
-/

namespace EmacsDir

open Regexp

/-- `\(?:~\|\.~[-[:alnum:]:#@^._]+\(?:~[[:digit:]]+\)?~\)\'` -/
def fileNameVersionRegexp (alnum : Char → Bool) : Regexp Char :=
  let mark : Char → Bool := fun c => alnum c || ['-', ':', '#', '@', '^', '.', '_'].contains c
  seq (alt (char (· == '~'))
      (seq (char (· == '.')) (seq (char (· == '~')) (seq (plus true mark)
        (seq (opt (seq (char (· == '~')) (plus true Char.isDigit))) (char (· == '~')))))))
    stringEnd

/-- `\.[^.]*\'` -/
def extensionRegexp : Regexp Char := seq (char (· == '.')) (seq (star true (· != '.')) stringEnd)

/-- `file-name-nondirectory` -/
def fileNameNondirectory (name : List Char) : List Char := (name.reverse.takeWhile (· != '/')).reverse

/-- `file-name-directory`, with the empty name for nil. -/
def fileNameDirectory (name : List Char) : List Char := (name.reverse.dropWhile (· != '/')).reverse

/-- `file-name-sans-versions` -/
def fileNameSansVersions (alnum : Char → Bool) (name : List Char) : List Char :=
  match search (fileNameVersionRegexp alnum) name with
  | some m => m.before
  | none => name

/-- `file-name-extension` -/
def fileNameExtension (alnum : Char → Bool) (name : List Char) : Option (List Char) :=
  match search extensionRegexp (fileNameSansVersions alnum (fileNameNondirectory name)) with
  | some m => if m.before.isEmpty then none else some (m.text.drop 1)
  | none => none

/-- `file-name-sans-extension` -/
def fileNameSansExtension (alnum : Char → Bool) (name : List Char) : List Char :=
  match search extensionRegexp (fileNameSansVersions alnum (fileNameNondirectory name)) with
  | some m => if m.before.isEmpty then name else fileNameDirectory name ++ m.before
  | none => name

end EmacsDir
