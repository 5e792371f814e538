import ChipPascal.Diagnostic.Report
import ChipPascal.Text.Json

/-!
# Feedback

A report as a record that other programs can read.
-/

namespace ChipPascal

structure Location where
  file : String
  position : Position
deriving DecidableEq, Repr

structure Related where
  message : String
  location : Location
deriving DecidableEq, Repr

structure FeedbackItem where
  code : String
  isError : Bool
  message : String
  location : Option Location
  related : List Related
deriving DecidableEq, Repr

structure Feedback where
  success : Bool
  file : String
  items : List FeedbackItem
  errorCount : Nat
  warningCount : Nat
  lineCount : Nat
deriving DecidableEq, Repr

def Diagnostic.feedback (d : Diagnostic) (index : LineIndex) (file : String) : FeedbackItem :=
  let locate (span : Span) : Location := ⟨file, index.position span.start⟩
  { code := d.code
    isError := d.isError
    message := d.message
    location := d.span?.map locate
    related := (d.note?.map fun (span, text) => ⟨text, locate span⟩).toList }

def Report.feedback (r : Report) (file source : String) : Feedback :=
  let index := LineIndex.ofString source
  { success := !r.hasErrors
    file := file
    items := r.items.map (·.feedback index file)
    errorCount := r.errorCount
    warningCount := r.warningCount
    lineCount := lineCount source }

def Location.toJson (l : Location) : Json :=
  .record [("file", .string l.file), ("line", .nat l.position.line),
    ("column", .nat l.position.column)]

def Related.toJson (r : Related) : Json :=
  .record [("message", .string r.message), ("location", r.location.toJson)]

def FeedbackItem.toJson (i : FeedbackItem) : Json :=
  .record [("code", .string i.code),
    ("severity", .string (if i.isError then "Error" else "Warning")),
    ("message", .string i.message),
    ("location", (i.location.map (·.toJson)).getD .null),
    ("related", .list (i.related.map (·.toJson)))]

def Feedback.toJson (f : Feedback) : Json :=
  .record [("success", .bool f.success), ("source_file", .string f.file),
    ("diagnostics", .list (f.items.map (·.toJson))),
    ("stats", .record [("error_count", .nat f.errorCount), ("warning_count", .nat f.warningCount),
      ("loc", .nat f.lineCount)])]

end ChipPascal
