import ChipPascal.Text.Blank
import ChipPascal.Text.Split

/-!
# Lines of a source text

The text is cut at its newlines, and every line remembers the byte at which it starts. A byte
offset is then shown as a line and a column, both counted from one.
-/

namespace ChipPascal

/-- The number of bytes that `cs` takes in UTF-8. -/
def byteLength : List Char → Nat
  | [] => 0
  | c :: cs => c.utf8Size + byteLength cs

@[simp] theorem byteLength_nil : byteLength [] = 0 := rfl

@[simp] theorem byteLength_cons (c : Char) (cs : List Char) :
    byteLength (c :: cs) = c.utf8Size + byteLength cs := rfl

@[simp] theorem byteLength_append (xs ys : List Char) :
    byteLength (xs ++ ys) = byteLength xs + byteLength ys := by
  induction xs with
  | nil => simp
  | cons c xs ih => simp [ih, Nat.add_assoc]

/-- The place of a number in an ascending list: the index at which it stands, or the one at which it
would be put in to keep the order. -/
inductive SearchResult where
  | found (i : Nat)
  | missing (i : Nat)
deriving DecidableEq, Repr

namespace SearchResult

def succ : SearchResult → SearchResult
  | found i => found (i + 1)
  | missing i => missing (i + 1)

end SearchResult

def search (x : Nat) : List Nat → SearchResult
  | [] => .missing 0
  | y :: ys => if x = y then .found 0 else if x < y then .missing 0 else (search x ys).succ

/-- What is found stands there. -/
theorem getElem?_of_search {x i : Nat} {xs : List Nat} (h : search x xs = .found i) :
    xs[i]? = some x := by
  induction xs generalizing i with
  | nil => cases h
  | cons y ys ih =>
    rw [search] at h
    split at h
    · next hEq =>
      cases h
      rw [hEq, List.getElem?_cons_zero]
    · split at h
      · cases h
      · generalize hRest : search x ys = rest at h
        cases rest with
        | found j =>
          cases h
          exact ih hRest
        | missing j => cases h

/-- What is not found belongs between the lesser and the greater numbers. -/
theorem lt_of_search {x i : Nat} {xs : List Nat} (hAscending : xs.Pairwise (· < ·))
    (h : search x xs = .missing i) :
    i ≤ xs.length ∧ (∀ y ∈ xs.take i, y < x) ∧ ∀ y ∈ xs.drop i, x < y := by
  induction xs generalizing i with
  | nil =>
    cases h
    simp
  | cons y ys ih =>
    obtain ⟨hFirst, hRest⟩ := List.pairwise_cons.mp hAscending
    rw [search] at h
    split at h
    · cases h
    · next hNe =>
      split at h
      · next hLess =>
        cases h
        refine ⟨Nat.zero_le _, by simp, ?_⟩
        rw [List.drop_zero, List.forall_mem_cons]
        exact ⟨hLess, fun z hz => Nat.lt_trans hLess (hFirst z hz)⟩
      · next hNotLess =>
        generalize hSearch : search x ys = rest at h
        cases rest with
        | found j => cases h
        | missing j =>
          cases h
          obtain ⟨hLength, hBelow, hAbove⟩ := ih hRest hSearch
          refine ⟨Nat.succ_le_succ hLength, ?_, by simpa using hAbove⟩
          rw [List.take_succ_cons, List.forall_mem_cons]
          exact ⟨by omega, hBelow⟩

/-- A line with the offset of its first byte. -/
structure SourceLine where
  start : Nat
  chars : List Char

namespace SourceLine

/-- The line as an excerpt shows it, without carriage returns at its end. -/
def shown (line : SourceLine) : String :=
  String.ofList (dropEndWhile (· = '\r') line.chars)

end SourceLine

/-- Places lines one after the other from `start` on, one newline byte between them. -/
def placeLines : Nat → List (List Char) → List SourceLine
  | _, [] => []
  | start, line :: lines => ⟨start, line⟩ :: placeLines (start + byteLength line + 1) lines

/-- The lines of a text in order, and its size in bytes. -/
structure LineIndex where
  lines : List SourceLine
  size : Nat

/-- A line and a column, counted from one; columns count bytes. -/
structure Position where
  line : Nat
  column : Nat
deriving DecidableEq, Repr

namespace LineIndex

def ofString (source : String) : LineIndex :=
  ⟨placeLines 0 (splitLines source.toList), byteLength source.toList⟩

def starts (index : LineIndex) : List Nat := index.lines.map (·.start)

/-- The line that starts at `offset`, or else the one before the next that starts; past the end, the
end counts. -/
def position (index : LineIndex) (offset : Nat) : Position :=
  let offset := min offset index.size
  let line := match search offset index.starts with
    | .found i => i
    | .missing i => i - 1
  ⟨line + 1, offset - index.starts.getD line 0 + 1⟩

def line? (index : LineIndex) (n : Nat) : Option SourceLine :=
  if n = 0 then none else index.lines[n - 1]?

def lineText? (index : LineIndex) (n : Nat) : Option String :=
  (index.line? n).map (·.shown)

end LineIndex

/-- The number of lines, where a final newline opens none. -/
def lineCount (source : String) : Nat :=
  let lines := splitLines source.toList
  if lines.getLast? = some [] then lines.length - 1 else lines.length

end ChipPascal
