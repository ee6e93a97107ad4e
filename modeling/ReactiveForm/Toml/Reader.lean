import ReactiveForm.Toml.Scalar
import ReactiveForm.Toml.Table

namespace ReactiveForm.Toml

/-! Reading a file. -/

def skipSpaces (letters : List Char) : Rest :=
  letters.dropWhile isSpace

def skipGaps : (inComment : Bool) → List Char → Rest
  | _, [] => []
  | true, letter :: rest =>
      if letter = '\n' then skipGaps false rest
      else if isPlain letter then skipGaps true rest
      else letter :: rest
  | false, letter :: rest =>
      if letter = '#' then skipGaps true rest
      else if letter = '\n' ∨ isSpace letter then skipGaps false rest
      else letter :: rest

def nextLine? (letters : List Char) : Option Rest :=
  let rest :=
    match skipSpaces letters with
    | '#' :: comment => comment.dropWhile isPlain
    | rest => rest
  match rest with
  | [] => some []
  | letter :: rest => if letter = '\n' then some rest else none

/-! Keys. -/

def isBare (letter : Char) : Bool :=
  letter.isAlphanum || letter == '-' || letter == '_'

def takeBarePart? (letters : List Char) : Option (String × Rest) :=
  let part := letters.takeWhile isBare
  if part.isEmpty then none
  else some (String.ofList part, letters.dropWhile isBare)

def takePart? : List Char → Option (String × Rest)
  | quote :: rest =>
      if quote = '"' ∨ quote = '\'' then
        (readLine? quote 0 rest).map fun (part, rest) => (String.ofList part, rest)
      else takeBarePart? (quote :: rest)
  | [] => none

def takeParts? : (most : Nat) → List Char → Option (Key × Rest)
  | 0, _ => none
  | most + 1, letters => do
      let (part, rest) ← takePart? (skipSpaces letters)
      match skipSpaces rest with
      | '.' :: rest => do
          let (key, rest) ← takeParts? most rest
          return (⟨part :: key.above, key.last⟩, rest)
      | rest => some (⟨[], part⟩, rest)

/-- A key has at most this many parts, and containers may lie this deep inside
one another. -/
def greatestDepth : Nat := 79

def takeKey? (letters : List Char) : Option (Key × Rest) :=
  takeParts? greatestDepth letters

/-! Values. `fuel` is at least twice the number of characters left, and `depth`
more containers may be opened. -/

mutual

def readValue? : (fuel depth : Nat) → List Char → Option (Toml × Rest)
  | fuel + 1, depth + 1, '[' :: rest =>
      (readItems? fuel depth rest).map fun (items, rest) => (.array items, rest)
  | fuel + 1, depth + 1, '{' :: rest =>
      match skipSpaces rest with
      | '}' :: rest => some (.table .braces [], rest)
      | rest => do
          let (pairs, rest) ← readPairs? fuel depth rest
          let entries ← addPairs? [] pairs
          return (.table .braces entries, rest)
  | _, _, letters => takeScalar? letters

def readItems? : (fuel depth : Nat) → List Char → Option (List Toml × Rest)
  | 0, _, _ => none
  | fuel + 1, depth, letters =>
      match skipGaps false letters with
      | ']' :: rest => some ([], rest)
      | letters => do
          let (item, rest) ← readValue? fuel depth letters
          match skipGaps false rest with
          | ',' :: rest => do
              let (items, rest) ← readItems? fuel depth rest
              return (item :: items, rest)
          | ']' :: rest => some ([item], rest)
          | _ => none

def readPairs? : (fuel depth : Nat) → List Char → Option (Pairs × Rest)
  | 0, _, _ => none
  | fuel + 1, depth, letters => do
      let (key, rest) ← takeKey? letters
      let rest ← takeMark? '=' rest
      let (value, rest) ← readValue? fuel depth (skipSpaces rest)
      match skipSpaces rest with
      | ',' :: rest => do
          let (pairs, rest) ← readPairs? fuel depth rest
          return ((key, value) :: pairs, rest)
      | '}' :: rest => some ([(key, value)], rest)
      | _ => none

end

def readPair? (letters : List Char) : Option ((Key × Toml) × Rest) := do
  let (key, rest) ← takeKey? letters
  let rest ← takeMark? '=' rest
  let (value, rest) ← readValue? (2 * rest.length + 1) greatestDepth (skipSpaces rest)
  return ((key, value), rest)

/-! Blocks. -/

/-- The lines of a block up to the next header. `fuel` is greater than the number
of characters left. -/
def readBody? : (fuel : Nat) → List Char → Option (Pairs × Rest)
  | 0, _ => none
  | fuel + 1, letters =>
      match skipGaps false letters with
      | [] => some ([], [])
      | '[' :: rest => some ([], '[' :: rest)
      | letters => do
          let (pair, rest) ← readPair? letters
          let rest ← nextLine? rest
          let (pairs, rest) ← readBody? fuel rest
          return (pair :: pairs, rest)

def takeHeader? : List Char → Option (Header × Rest)
  | '[' :: '[' :: rest => do
      let (key, rest) ← takeKey? rest
      let rest ← takeMark? ']' rest
      let rest ← takeMark? ']' rest
      return (.series key, rest)
  | '[' :: rest => do
      let (key, rest) ← takeKey? rest
      let rest ← takeMark? ']' rest
      return (.table key, rest)
  | _ => none

def readBlocks? : (fuel : Nat) → Header → List Char → Option (List Block)
  | 0, _, _ => none
  | fuel + 1, header, letters => do
      let (pairs, rest) ← readBody? (letters.length + 1) letters
      match rest with
      | [] => return [⟨header, pairs⟩]
      | rest => do
          let (following, rest) ← takeHeader? rest
          let rest ← nextLine? rest
          let blocks ← readBlocks? fuel following rest
          return ⟨header, pairs⟩ :: blocks

def unifyLineEnds? : List Char → Option (List Char)
  | '\r' :: '\n' :: rest => (unifyLineEnds? rest).map ('\n' :: ·)
  | letter :: rest =>
      if letter = '\r' then none else (unifyLineEnds? rest).map (letter :: ·)
  | [] => some []

def dropOrderMark : List Char → List Char
  | '\ufeff' :: rest => rest
  | letters => letters

def read? (document : String) : Option Entries := do
  let letters ← unifyLineEnds? (dropOrderMark document.toList)
  let blocks ← readBlocks? (letters.length + 1) .top letters
  ofBlocks? blocks

end ReactiveForm.Toml
