/-!
# The declared name most like a mistyped one

A name that is not declared may be a slip, and then the message proposes a
declared name.  A candidate has to contain the letters of the name in order,
upper and lower case alike; the one with the highest score wins, the first of
several.

## The score

Each letter of the query is worth more if it is found at the start of a word or
directly behind the letter before it, and skipped letters cost a little.  The
score is the maximum over all ways of finding the letters, computed row by row: a
row for each letter of the query, a column for each position in the candidate,
and in every cell the best sum with the letter found there, the best sum with the
letter found before, and the bonus of the run of letters that ends there.

Only two rows are kept, and they are kept from one candidate to the next.  A row
starts where the letter can first be found, so a cell to the left of it can still
hold what an earlier row or an earlier candidate left there, and the first cell
of a row does look at it.  Scores depend on this, so the cells are passed along
from candidate to candidate.
-/

namespace WireSchema
namespace Suggestion

/-- What is known about a position of the candidate. -/
structure Cell where
  /-- The best sum with the letter found here. -/
  found : Int
  /-- The best sum with the letter found earlier. -/
  passed : Int
  /-- The bonus of the run that ends here. -/
  run : Int

/-- A sum that no way of finding letters reaches. -/
def hopeless : Int := -32768

/-- A cell about which nothing is known. -/
def Cell.fresh : Cell := ⟨hopeless, hopeless, 0⟩

instance : Inhabited Cell := ⟨Cell.fresh⟩

/-- Whether two letters are equal but for the case of an ASCII letter. -/
def sameLetter (a b : Char) : Bool :=
  a.toLower == b.toLower

/-- Characters that words are divided by. -/
def isStrongDivider (c : Char) : Bool :=
  [' ', '/', '\\', '|', '(', ')', '[', ']', '\x7b', '\x7d'].contains c

/-- Other punctuation. -/
def isWeakDivider (c : Char) : Bool :=
  ['!', '\x22', '#', '$', '%', '&', '\x27', '*', '+', ',', '-', '.', ':', ';', '<', '=', '>', '?',
    '@', '^', '_', '\x60', '~'].contains c

/-- The bonus of a position, from the character before it, if there is one, and
the character there. -/
def placeBonus (before : Option Char) (here : Char) : Int :=
  match before with
  | none => 8
  | some c =>
    if c = '\x00' ∨ isStrongDivider c then 8
    else if isWeakDivider c then 7
    else if here.isUpper ∧ ¬c.isUpper then 6
    else 0

/-- The bonuses of all positions; at the start of the candidate it counts
twice. -/
def placeBonuses (candidate : List Char) : List Int :=
  let before := none :: candidate.map some
  match List.zipWith placeBonus before candidate with
  | [] => []
  | first :: rest => 2 * first :: rest

/-- The first positions, from `start` on, at which the letters of the query can
be found in order. -/
def firstPositions : (start : Nat) → (candidate query : List Char) → Option (List Nat)
  | _, _, [] => some []
  | _, [], _ :: _ => none
  | start, c :: candidate, q :: query =>
    if sameLetter c q then (firstPositions (start + 1) candidate query).map (start :: ·)
    else firstPositions (start + 1) candidate (q :: query)

/-- The cells as a candidate of `columns - 1` letters finds them: cut off, or
filled up with fresh ones. -/
def resize (cells : Array Cell) (columns : Nat) : Array Cell :=
  if 2 * columns ≤ cells.size then cells.extract 0 (2 * columns)
  else cells ++ Array.replicate (2 * columns - cells.size) Cell.fresh

/-- The cells before the first letter: the upper row stands for nothing found
yet. -/
def prepare (cells : Array Cell) (columns first : Nat) : Array Cell :=
  let cells := (resize cells columns).setIfInBounds (columns + first) Cell.fresh
  (List.range columns).foldl (fun cells j => cells.setIfInBounds j ⟨hopeless, -1, 0⟩) cells

/-- One cell of the row of a letter, at column `j`, behind the candidate's
character `c` with the bonus `place`.  `row` and `above` are where the row and
the row of the letter before begin. -/
def step (letter c : Char) (place : Int) (row above j : Nat) (cells : Array Cell) : Array Cell :=
  let left := cells[row + j - 1]!
  let here := cells[row + j]!
  let previous := cells[above + j - 1]!
  let (left, here) :=
    if sameLetter c letter then
      let run := max left.run (max place 4)
      let worth := if c = letter then 16 else 14
      ({ left with run },
        { here with found := max (previous.found + run) (previous.passed + place) + worth })
    else (left, { here with found := hopeless, run := 0 })
  let here := { here with passed := max (left.found - 4) (left.passed - 1) }
  (cells.setIfInBounds (row + j - 1) left).setIfInBounds (row + j) here

/-- The row of a letter, from column `j` on. -/
def sweep (letter : Char) (row above : Nat) :
    (j : Nat) → List (Char × Int) → Array Cell → Array Cell
  | _, [], cells => cells
  | j, (c, place) :: rest, cells =>
    sweep letter row above (j + 1) rest (step letter c place row above j cells)

/-- The rows of the letters of a query, with the position at which each can first
be found.  Rows alternate between the two that are kept. -/
def sweepAll (columns : Nat) (places : List (Char × Int)) :
    (i : Nat) → List (Char × Nat) → Array Cell → Array Cell
  | _, [], cells => cells
  | i, (letter, first) :: rest, cells =>
    let row := (i + 1) % 2 * columns
    let above := i % 2 * columns
    sweepAll columns places (i + 1) rest
      (sweep letter row above (first + 1) (places.drop first) cells)

/-- The largest of some sums, or `hopeless`. -/
def best (sums : List Int) : Int :=
  sums.foldl max hopeless

/-- The score of a candidate, if it has one, and the cells after it. -/
def score (cells : Array Cell) (candidate query : List Char) : Option Int × Array Cell :=
  match query, firstPositions 0 candidate query with
  | [], _ => (some 0, cells)
  | _, none => (none, cells)
  | _, some firsts =>
    let columns := candidate.length + 1
    let places := candidate.zip (placeBonuses candidate)
    let cells := prepare cells columns (firsts.headD 0)
    let cells := sweepAll columns places 0 (query.zip firsts) cells
    let row := query.length % 2 * columns
    let last := firsts.getLastD 0
    let sums := (List.range (columns - last)).map fun k => (cells[row + last + k]!).found
    (some (best sums), cells)

/-- The best of some candidates, given the best so far. -/
def choose (query : List Char) : Option (Int × String) → Array Cell → List String → Option String
  | top, _, [] => top.map Prod.snd
  | top, cells, candidate :: rest =>
    let (result, cells) := score cells candidate.toList query
    let improves :=
      match result, top with
      | some s, some (t, _) => decide (t < s)
      | some _, none => true
      | none, _ => false
    choose query (if improves then result.map (·, candidate) else top) cells rest

/-- The candidate most like a name, if any is. -/
def suggest (name : String) (candidates : List String) : Option String :=
  choose name.toList none #[] candidates

end Suggestion
end WireSchema
