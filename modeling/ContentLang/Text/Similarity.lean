/-!
# Similar names

Which of a list of names a misspelt one was probably meant to be. Names are compared
by their Damerau–Levenshtein distance: the least number of insertions, deletions,
replacements and swaps of neighbours that turn one into the other, where a swapped
pair may be edited again. The similarity is one minus the distance as a share of the
longer length.

The distance is the usual table, filled row by row. Beside the table, row `i` knows
for every character the last earlier row that holds it, and the cell in column `j`
the last earlier column that matches row `i`: the two ends of a swap.
-/

namespace ContentLang

namespace Similarity

/-- The rows of the table filled so far; row `0` is the distance from the empty text. -/
abbrev Table := Array (Array Nat)

/-- The entry in the given row and column. -/
def Table.entry (t : Table) (i j : Nat) : Nat := (t.getD i #[]).getD j 0

/-- The last of the first `n` positions at which `c` stands, counted from one, or zero. -/
def lastSeen (a : Array Char) (c : Char) : Nat → Nat
  | 0 => 0
  | n + 1 => if a[n]? = some c then n + 1 else lastSeen a c n

/-- A row under construction: its entries, and the last column that held the row's
character. -/
structure Row where
  cells : Array Nat
  matched : Nat

/-- The next cell of row `i`, which stands for the character `c`: the cheapest of a
replacement, an insertion, a deletion and a swap with the last matching pair. -/
def Row.extend (t : Table) (a : Array Char) (i : Nat) (c : Char) (row : Row) (d : Char) : Row :=
  let j := row.cells.size
  let k := lastSeen a d (i - 1)
  let cost := if c = d then 0 else 1
  let edit := min (t.entry (i - 1) (j - 1) + cost)
    (min (row.cells.getD (j - 1) 0 + 1) (t.entry (i - 1) j + 1))
  let best :=
    if 0 < k ∧ 0 < row.matched then
      min edit (t.entry (k - 1) (row.matched - 1) + (i - k - 1) + 1 + (j - row.matched - 1))
    else edit
  ⟨row.cells.push best, if c = d then j else row.matched⟩

/-- The distance between two texts. -/
def distance (a b : Array Char) : Nat :=
  let first : Table := #[Array.range (b.size + 1)]
  let table := a.toList.foldl (fun t c =>
    let i := t.size
    t.push (b.toList.foldl (Row.extend t a i c) ⟨#[i], 0⟩).cells) first
  table.entry a.size b.size

end Similarity

/-- How similar two texts are: one for equal texts, zero for texts that share nothing. -/
def similarity (s t : String) : Float :=
  let a := s.toList.toArray
  let b := t.toList.toArray
  if a.isEmpty && b.isEmpty then 1.0
  else 1.0 - (Similarity.distance a b).toFloat / (max a.size b.size).toFloat

/-- The name closest to `wanted`, if any is more than four tenths similar. Of equally
close names the first wins. -/
def closestName (wanted : String) (names : List String) : Option String :=
  let best := names.foldl (fun (best : Float × Option String) name =>
    let s := similarity name wanted
    if s > best.1 then (s, some name) else best) (0.0, none)
  if best.1 > 0.4 then best.2 else none

end ContentLang
