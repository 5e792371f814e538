import ChipPascal.Diagnostic
import ChipPascal.Source.LineIndex

/-!
# Reports

A report is a list of diagnostics in the order in which they came up. It is shown as text with
excerpts from the source, and summed up in one line.
-/

namespace ChipPascal

structure Report where
  items : List Diagnostic
deriving DecidableEq, Repr

namespace Report

def empty : Report := ⟨[]⟩

def addErrors (r : Report) (errors : List Error) : Report := ⟨r.items ++ errors.map .error⟩

def addWarnings (r : Report) (warnings : List Warning) : Report :=
  ⟨r.items ++ warnings.map .warning⟩

def errors (r : Report) : List Error := r.items.filterMap (·.error?)

def warnings (r : Report) : List Warning := r.items.filterMap (·.warning?)

def errorCount (r : Report) : Nat := r.errors.length

def warningCount (r : Report) : Nat := r.warnings.length

def hasErrors (r : Report) : Bool := r.items.any (·.isError)

@[simp] theorem errors_addErrors (r : Report) (es : List Error) :
    (r.addErrors es).errors = r.errors ++ es := by
  have h : (es.map Diagnostic.error).filterMap (·.error?) = es := by
    rw [List.filterMap_map]
    exact List.filterMap_some
  simp [errors, addErrors, List.filterMap_append, h]

/-- Warnings do not count as errors. -/
theorem hasErrors_eq (r : Report) : r.hasErrors = !r.errors.isEmpty := by
  obtain ⟨items⟩ := r
  induction items with
  | nil => rfl
  | cons d ds ih => cases d <;> simp_all [hasErrors, errors, Diagnostic.isError, Diagnostic.error?]

def summary? (r : Report) : Option String :=
  match r.warningCount, r.errorCount with
  | 0, 0 => none
  | 0, e => some s!"Generated {e} errors."
  | w, 0 => some s!"Generated {w} warnings."
  | w, e => some s!"Generated {w} warnings and {e} errors."

def repeated (c : Char) (n : Nat) : String := String.ofList (List.replicate n c)

/-- The number of carets under an excerpt: as long as the span, but no longer than the rest of
the line, and at least one. -/
def caretCount (length textBytes column : Nat) : Nat :=
  min (max length 1) (max (textBytes - (column - 1)) 1)

/-- The most blanks that can stand before the carets. -/
def maxMargin : Nat := 65535

/-- The place of a span and the line that it starts in, with carets below; nothing if the ends of
the span are out of order, or if it starts too far to the right. -/
def excerpt? (index : LineIndex) (file : String) (span : Span) : Option String := do
  let position := index.position span.start
  let text ← index.lineText? position.line
  let length ← span.length?
  guard (position.column - 1 ≤ maxMargin)
  let line := toString position.line
  let margin := repeated ' ' line.length
  let pad := repeated ' ' (position.column - 1)
  let carets := repeated '^' (caretCount length (byteLength text.toList) position.column)
  return margin ++ "--> " ++ file ++ s!":{line}:{position.column}\n"
    ++ line ++ " | " ++ text ++ "\n"
    ++ margin ++ " | " ++ pad ++ carets ++ "\n"

def renderItem? (index : LineIndex) (file : String) (d : Diagnostic) : Option String := do
  let label := if d.isError then "error" else "warning"
  let place ← match d.span? with
    | some span => excerpt? index file span
    | none => some ""
  let note ← match d.note? with
    | some (span, text) => (excerpt? index file span).map ("note: " ++ text ++ "\n" ++ ·)
    | none => some ""
  return label ++ "[" ++ d.code ++ "]: " ++ d.message ++ "\n" ++ place ++ note

/-- The report as text, if there is an excerpt for every span in it. -/
def render? (r : Report) (file source : String) : Option String :=
  let index := LineIndex.ofString source
  (r.items.mapM (renderItem? index file)).map String.join

end Report

end ChipPascal
