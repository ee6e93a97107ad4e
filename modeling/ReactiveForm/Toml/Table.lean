import ReactiveForm.Toml.Basic

namespace ReactiveForm.Toml

/-! Putting a file together from its blocks. A table is written in one place:
under one header, by dotted keys of one block, or between braces. Headers may
add tables to those that are there. -/

structure Key where
  above : List String
  last : String
  deriving DecidableEq, Repr

abbrev Pairs := List (Key × Toml)

inductive Header
  /-- None: the block is the first one. -/
  | top
  | table (key : Key)
  /-- One more table of a series. -/
  | series (key : Key)

structure Block where
  header : Header
  pairs : Pairs

/-- Change the table at the end of a path, which is said how it came to be.
Tables that are missing on the way come to be as `origin` says. Dotted keys do
not lead through the table of a header, and nothing leads through braces. -/
def descend? (origin : TableOrigin)
    (change : TableOrigin → Entries → Option Entries) :
    (path : List String) → TableOrigin → Entries → Option Entries
  | [], found, entries => change found entries
  | key :: path, _, entries => do
      let content ←
        match entries.lookup key with
        | none => (descend? origin change path origin []).map (.table origin)
        | some (.table found inner) =>
            if found = .braces ∨ (origin = .dottedKey ∧ found = .header) then none
            else (descend? origin change path found inner).map (.table found)
        | some (.tables (.table found latest :: earlier)) =>
            (descend? origin change path found latest).map fun latest =>
              .tables (.table found latest :: earlier)
        | some _ => none
      return put key content entries

/-- Enter a value under a key that is not there yet. A dotted key ends in a table
that dotted keys have made, or in the one where it begins. -/
def addPair? (entries : Entries) (pair : Key × Toml) : Option Entries :=
  let (key, value) := pair
  descend? .dottedKey
    (fun found entries =>
      if found ≠ .dottedKey ∨ (entries.lookup key.last).isSome then none
      else some (entries ++ [(key.last, value)]))
    key.above .dottedKey entries

def addPairs? (entries : Entries) (pairs : Pairs) : Option Entries :=
  pairs.foldlM addPair? entries

def addBlock? (entries : Entries) (block : Block) : Option Entries :=
  match block.header with
  | .top => addPairs? entries block.pairs
  | .table key =>
      descend? .passage
        (fun _ entries => do
          let before ←
            match entries.lookup key.last with
            | none => some []
            | some (.table .passage before) => some before
            | some _ => none
          let inner ← addPairs? before block.pairs
          return put key.last (.table .header inner) entries)
        key.above .header entries
  | .series key =>
      descend? .passage
        (fun _ entries => do
          let earlier ←
            match entries.lookup key.last with
            | none => some []
            | some (.tables earlier) => some earlier
            | some _ => none
          let latest ← addPairs? [] block.pairs
          return put key.last (.tables (.table .header latest :: earlier)) entries)
        key.above .header entries

def ofBlocks? (blocks : List Block) : Option Entries :=
  blocks.foldlM addBlock? []

end ReactiveForm.Toml
