import ReactiveForm.Text.Hexadecimal

namespace ReactiveForm.Toml

/-! Texts in quotes. Double quotes allow escapes, single quotes do not; three
quotes enclose a text of several lines. Every reader starts after the opening
quotes. The lines of the file end in a line feed and nothing else. -/

abbrev Rest := List Char

def isPlain (letter : Char) : Bool :=
  letter == '\t' || (0x20 ≤ letter.val && letter.val != 0x7F)

def isSpace (letter : Char) : Bool :=
  letter == ' ' || letter == '\t'

def escaped? : Char → Option Char
  | 'b' => some '\x08'
  | 't' => some '\t'
  | 'n' => some '\n'
  | 'f' => some '\x0c'
  | 'r' => some '\r'
  | '"' => some '"'
  | '\\' => some '\\'
  | _ => none

def character? (written : List Char) : Option Char := do
  let digits ← written.mapM Text.hexadecimalValue?
  let code := digits.foldl (16 * · + ·) 0
  if code.isValidChar then some (Char.ofNat code) else none

def escape? : List Char → Option (Char × Nat)
  | 'u' :: rest => (character? (rest.take 4)).map (·, 5)
  | 'U' :: rest => (character? (rest.take 8)).map (·, 9)
  | letter :: _ => (escaped? letter).map (·, 1)
  | [] => none

/-- A text of one line up to its closing quote. Only between double quotes are
there escapes. After an escape, `skip` characters have been dealt with. -/
def readLine? (quote : Char) : (skip : Nat) → List Char → Option (List Char × Rest)
  | _, [] => none
  | skip + 1, _ :: rest => readLine? quote skip rest
  | 0, letter :: rest =>
      if letter = quote then some ([], rest)
      else if letter = '\\' ∧ quote = '"' then do
        let (character, length) ← escape? rest
        let (content, rest) ← readLine? quote length rest
        return (character :: content, rest)
      else if isPlain letter then do
        let (content, rest) ← readLine? quote 0 rest
        return (letter :: content, rest)
      else none

inductive Progress
  /-- Within the text. So many characters have been dealt with already. -/
  | inText (skip : Nat)
  /-- After a backslash at the end of a line. -/
  | endsLine
  /-- After such a line: white space is passed over up to the next text. -/
  | joinsLines

/-- A text of several lines up to its three closing quotes. One or two more
quotes before these belong to the text. -/
def readLines? (quote : Char) : Progress → List Char → Option (List Char × Rest)
  | _, [] => none
  | .inText (skip + 1), _ :: rest => readLines? quote (.inText skip) rest
  | .endsLine, letter :: rest =>
      if letter = '\n' then readLines? quote .joinsLines rest
      else if isSpace letter then readLines? quote .endsLine rest
      else none
  | .joinsLines, ' ' :: rest => readLines? quote .joinsLines rest
  | .joinsLines, '\t' :: rest => readLines? quote .joinsLines rest
  | .joinsLines, '\n' :: rest => readLines? quote .joinsLines rest
  | _, letter :: rest =>
      let quotes := ((letter :: rest).takeWhile (· == quote)).length
      if 3 ≤ quotes then
        if quotes ≤ 5 then
          some (List.replicate (quotes - 3) quote, (letter :: rest).drop quotes)
        else none
      else if letter = '\\' ∧ quote = '"' then
        match escape? rest with
        | none => readLines? quote .endsLine rest
        | some (character, length) => do
            let (content, rest) ← readLines? quote (.inText length) rest
            return (character :: content, rest)
      else if letter = '\n' ∨ isPlain letter then do
        let (content, rest) ← readLines? quote (.inText 0) rest
        return (letter :: content, rest)
      else none

def readQuoted? (quote : Char) (letters : List Char) : Option (String × Rest) := do
  let (content, rest) ←
    if [quote, quote].isPrefixOf letters then
      let body := letters.drop 2
      readLines? quote (.inText (if body.head? = some '\n' then 1 else 0)) body
    else readLine? quote 0 letters
  return (String.ofList content, rest)

example : readQuoted? '"' "a\\u00e9\"x".toList = some ("aé", ['x']) ∧
    readQuoted? '\'' "''\na\\'''''!".toList = some ("a\\''", ['!']) ∧
    readQuoted? '"' "\"\"a\\ \n\n  b\"\"\"".toList = some ("ab", []) := by
  decide

end ReactiveForm.Toml
