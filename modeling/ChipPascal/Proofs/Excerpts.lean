import ChipPascal.Diagnostic.Feedback
import ChipPascal.Proofs.ReportSpans

/-!
# Excerpts

An offset into the text is shown as the number of its line and the bytes before it there, both
counted from one. Under the line stand carets: at least one, and none behind the end of the line if
the first of them is not.

A margin has its limits, so a line can be too long for an excerpt. That is the only reason why a
report of a compilation is not shown.
-/

namespace ChipPascal

/-! ### Lines -/

inductive Lines : List Char → List (List Char) → Prop
  | last {line : List Char} : '\n' ∉ line → Lines line [line]
  | more {line rest : List Char} {lines : List (List Char)} :
      '\n' ∉ line → Lines rest lines → Lines (line ++ '\n' :: rest) (line :: lines)

theorem Lines.cons {c : Char} {text line : List Char} {lines : List (List Char)} (hc : c ≠ '\n')
    (h : Lines text (line :: lines)) : Lines (c :: text) ((c :: line) :: lines) := by
  have hCons : ∀ {cs : List Char}, '\n' ∉ cs → '\n' ∉ c :: cs := fun hcs hMem =>
    (List.mem_cons.mp hMem).elim (fun hEq => hc hEq.symm) hcs
  cases h with
  | last hLine => exact .last (hCons hLine)
  | more hLine hRest => exact .more (hCons hLine) hRest

theorem lines_splitLines (text : List Char) : Lines text (splitLines text) := by
  unfold splitLines
  induction text with
  | nil => exact .last List.not_mem_nil
  | cons c cs ih =>
    rw [splitAtChar]
    split
    · next hc =>
      rw [hc]
      exact .more List.not_mem_nil ih
    · next hc =>
      split
      · next hNone =>
        rw [hNone] at ih
        cases ih
      · next piece pieces hPieces =>
        rw [hPieces] at ih
        exact ih.cons hc

/-- `line` is a line of the text, between `before` and `rest`. -/
structure IsLine (text before line rest : List Char) : Prop where
  text : text = before ++ (line ++ rest)
  whole : '\n' ∉ line
  opens : ∀ c ∈ before.getLast?, c = '\n'
  ends : ∀ c ∈ rest.head?, c = '\n'

/-- A line of a text is one of any text that has another line in front. -/
theorem IsLine.prepend {text before line rest first : List Char}
    (h : IsLine text before line rest) :
    IsLine (first ++ '\n' :: text) (first ++ '\n' :: before) line rest := by
  refine ⟨by simp [h.text], h.whole, ?_, h.ends⟩
  cases before with
  | nil => simp
  | cons c before => simpa using h.opens

/-! ### The search for a line

A line is searched for among the starts of all lines. What is found is the last of the lines that
begin no later than the offset. -/

theorem length_takeWhile_of_split {xs : List Nat} {x n : Nat} (hn : n ≤ xs.length)
    (hBelow : ∀ y ∈ xs.take n, y ≤ x) (hAbove : ∀ y ∈ xs.drop n, x < y) :
    (xs.takeWhile (· ≤ x)).length = n := by
  have hTake : ∀ y ∈ xs.take n, decide (y ≤ x) = true := fun y hy => decide_eq_true (hBelow y hy)
  have hDrop : (xs.drop n).takeWhile (· ≤ x) = [] := by
    cases hRest : xs.drop n with
    | nil => rfl
    | cons y ys =>
      have hLess : x < y := hAbove y (hRest ▸ List.mem_cons_self)
      rw [List.takeWhile_cons_of_neg (by simpa using hLess)]
  rw [← List.take_append_drop n xs, List.takeWhile_append_of_pos hTake, hDrop, List.append_nil,
    List.length_take, Nat.min_eq_left hn]

theorem length_takeWhile_of_found {xs : List Nat} {x i : Nat} (hAscending : xs.Pairwise (· < ·))
    (h : search x xs = .found i) : (xs.takeWhile (· ≤ x)).length = i + 1 := by
  obtain ⟨hi, rfl⟩ := List.getElem?_eq_some_iff.mp (getElem?_of_search h)
  have hLess := List.pairwise_iff_getElem.mp hAscending
  refine length_takeWhile_of_split hi ?_ ?_
  · intro y hy
    obtain ⟨j, hj, rfl⟩ := List.mem_take_iff_getElem.mp hy
    rcases Nat.lt_or_eq_of_le (Nat.le_of_lt_succ (Nat.lt_of_lt_of_le hj (Nat.min_le_left _ _)))
      with hBefore | rfl
    · exact Nat.le_of_lt (hLess j i _ hi hBefore)
    · exact Nat.le_refl _
  · intro y hy
    obtain ⟨j, hj, rfl⟩ := List.mem_drop_iff_getElem.mp hy
    exact hLess i (i + 1 + j) hi (by omega) (by omega)

theorem length_takeWhile_of_missing {xs : List Nat} {x i : Nat} (hAscending : xs.Pairwise (· < ·))
    (h : search x xs = .missing i) : (xs.takeWhile (· ≤ x)).length = i := by
  obtain ⟨hi, hBelow, hAbove⟩ := lt_of_search hAscending h
  exact length_takeWhile_of_split hi (fun y hy => Nat.le_of_lt (hBelow y hy)) hAbove

namespace LineIndex

/-- The line of an offset is the last that starts no later. -/
theorem position_eq_takeWhile {index : LineIndex} (hAscending : index.starts.Pairwise (· < ·))
    (hFirst : index.starts.head? = some 0) {offset : Nat} (hInside : offset ≤ index.size) :
    index.position offset = ⟨(index.lines.takeWhile (·.start ≤ offset)).length,
      offset - ((index.lines.takeWhile (·.start ≤ offset)).getLast?.map (·.start)).getD 0 + 1⟩ := by
  have hMap : (index.lines.takeWhile (·.start ≤ offset)).map (·.start) =
      index.starts.takeWhile (· ≤ offset) := by
    rw [starts, List.takeWhile_map]
    rfl
  have hLength := congrArg List.length hMap
  rw [List.length_map] at hLength
  -- the first line starts no later, so the search never ends before it
  obtain ⟨line, hLine⟩ : ∃ line, (index.starts.takeWhile (· ≤ offset)).length = line + 1 := by
    obtain ⟨rest, hStarts⟩ := List.head?_eq_some_iff.mp hFirst
    rw [hStarts, List.takeWhile_cons_of_pos (by simp)]
    exact ⟨_, rfl⟩
  have hLast : (index.lines.takeWhile (·.start ≤ offset)).getLast?.map (·.start) =
      index.starts[line]? := by
    rw [← List.getLast?_map, hMap, List.getLast?_eq_getElem?, hLine, Nat.add_sub_cancel]
    obtain ⟨later, hStarts⟩ := List.takeWhile_prefix (l := index.starts) (· ≤ offset)
    rw [← hStarts, List.getElem?_append_left (by omega), hStarts]
  rw [hLength, hLine, hLast, ← List.getD_eq_getElem?_getD, position, Nat.min_eq_left hInside]
  cases hSearch : search offset index.starts with
  | found i =>
    have hFound := length_takeWhile_of_found hAscending hSearch
    obtain rfl : i = line := by omega
    rfl
  | missing i =>
    have hMissing := length_takeWhile_of_missing hAscending hSearch
    obtain rfl : i = line + 1 := by omega
    rfl

end LineIndex

/-! ### The line of an offset -/

theorem starts_placeLines (start : Nat) (lines : List (List Char)) :
    ((placeLines start lines).map (·.start)).Pairwise (· < ·) ∧
      ∀ s ∈ (placeLines start lines).map (·.start), start ≤ s := by
  induction lines generalizing start with
  | nil => exact ⟨.nil, by simp [placeLines]⟩
  | cons line lines ih =>
    obtain ⟨hAscending, hFrom⟩ := ih (start + byteLength line + 1)
    simp only [placeLines, List.map_cons, List.pairwise_cons, List.forall_mem_cons]
    refine ⟨⟨fun s hs => ?_, hAscending⟩, Nat.le_refl _, fun s hs => ?_⟩
    · have := hFrom s hs
      omega
    · have := hFrom s hs
      omega

theorem Lines.head?_starts {text : List Char} {lines : List (List Char)} (h : Lines text lines)
    (start : Nat) : ((placeLines start lines).map (·.start)).head? = some start := by
  cases h <;> rfl

theorem takeWhile_placeLines_of_lt {start offset : Nat} (h : offset < start)
    (lines : List (List Char)) : (placeLines start lines).takeWhile (·.start ≤ offset) = [] := by
  cases lines with
  | nil => rfl
  | cons line lines => simp [placeLines, h]

/-- The last of the lines that begin no later than `offset` is the one in which it stands. -/
theorem Lines.exists_line {text : List Char} {lines : List (List Char)} (h : Lines text lines)
    {start offset : Nat} (hStart : start ≤ offset) (hStop : offset ≤ start + byteLength text) :
    ∃ before line rest, IsLine text before line rest ∧ start + byteLength before ≤ offset ∧
      offset ≤ start + byteLength before + byteLength line ∧
      ((placeLines start lines).takeWhile (·.start ≤ offset)).length = before.count '\n' + 1 ∧
      ((placeLines start lines).takeWhile (·.start ≤ offset)).getLast? =
        some ⟨start + byteLength before, line⟩ := by
  induction h generalizing start with
  | @last line hLine =>
    have hOne : (placeLines start [line]).takeWhile (·.start ≤ offset) = [⟨start, line⟩] := by
      simp [placeLines, hStart]
    rw [hOne]
    have hIsLine : IsLine line [] line [] := ⟨by simp, hLine, by simp, by simp⟩
    exact ⟨[], line, [], hIsLine, by simpa, by simpa using hStop, rfl, rfl⟩
  | @more line rest lines hLine hRest ih =>
    have hNewline : '\n'.utf8Size = 1 := rfl
    simp only [byteLength_append, byteLength_cons, hNewline] at hStop
    have hFirst : (placeLines start (line :: lines)).takeWhile (·.start ≤ offset) =
        ⟨start, line⟩ ::
          (placeLines (start + byteLength line + 1) lines).takeWhile (·.start ≤ offset) := by
      simp [placeLines, hStart]
    rw [hFirst]
    rcases Nat.lt_or_ge offset (start + byteLength line + 1) with hHere | hLater
    · rw [takeWhile_placeLines_of_lt hHere]
      refine ⟨[], line, '\n' :: rest, ⟨rfl, hLine, by simp, by simp⟩, by simpa, ?_, rfl, rfl⟩
      rw [byteLength_nil]
      omega
    · obtain ⟨before, inner, rest', hIsLine, hBegins, hEnds, hLength, hLast⟩ :=
        ih hLater (by omega)
      have hBefore : byteLength (line ++ '\n' :: before) =
          byteLength line + 1 + byteLength before := by
        rw [byteLength_append, byteLength_cons, hNewline, Nat.add_assoc]
      have hCount : (line ++ '\n' :: before).count '\n' = before.count '\n' + 1 := by
        rw [List.count_append, List.count_eq_zero.mpr hLine, List.count_cons_self, Nat.zero_add]
      refine ⟨line ++ '\n' :: before, inner, rest', hIsLine.prepend, by omega, by omega, ?_, ?_⟩
      · rw [List.length_cons, hLength, hCount]
      · rw [List.getLast?_cons, hLast, hBefore, Option.getD_some]
        simp only [Nat.add_assoc]

/-- Line and column of an offset, and the line that has this number. -/
theorem LineIndex.exists_position {source : String} {offset : Nat}
    (h : offset ≤ source.utf8ByteSize) :
    ∃ before line rest, IsLine source.toList before line rest ∧ byteLength before ≤ offset ∧
      offset ≤ byteLength before + byteLength line ∧
      (ofString source).position offset =
        ⟨before.count '\n' + 1, offset - byteLength before + 1⟩ ∧
      (ofString source).line? (before.count '\n' + 1) = some ⟨byteLength before, line⟩ := by
  rw [← byteLength_toList] at h
  obtain ⟨before, line, rest, hIsLine, hBegins, hEnds, hLength, hLast⟩ :=
    (lines_splitLines source.toList).exists_line (Nat.zero_le offset) (by rwa [Nat.zero_add])
  rw [Nat.zero_add] at hBegins hEnds hLast
  obtain ⟨later, hLines⟩ :
      (placeLines 0 (splitLines source.toList)).takeWhile (·.start ≤ offset) <+:
        placeLines 0 (splitLines source.toList) := List.takeWhile_prefix _
  refine ⟨before, line, rest, hIsLine, hBegins, hEnds, ?_, ?_⟩
  · have hAscending : (ofString source).starts.Pairwise (· < ·) := (starts_placeLines 0 _).1
    have hFirst : (ofString source).starts.head? = some 0 :=
      (lines_splitLines source.toList).head?_starts 0
    rw [position_eq_takeWhile hAscending hFirst h]
    simp only [ofString, hLength, hLast, Option.map_some, Option.getD_some]
  · have hElem := List.getLast?_eq_getElem? ▸ hLast
    rw [hLength, Nat.add_sub_cancel] at hElem
    simp only [line?, Nat.add_one_ne_zero, if_false, Nat.add_sub_cancel, ofString]
    rw [← hLines, List.getElem?_append_left (by rw [hLength]; exact Nat.lt_succ_self _)]
    exact hElem

/-! ### Excerpts -/

/-- A line of the text with carets below it. -/
structure Excerpt where
  /-- The line, and the column of the first caret. -/
  position : Position
  /-- The line as it is shown. -/
  text : String
  carets : Nat

namespace Excerpt

open Report

def Fits (e : Excerpt) : Prop := e.position.column - 1 ≤ maxMargin

instance (e : Excerpt) : Decidable e.Fits := inferInstanceAs (Decidable (_ ≤ _))

def format (file : String) (e : Excerpt) : String :=
  repeated ' ' (toString e.position.line).length ++ "--> " ++ file
    ++ s!":{toString e.position.line}:{e.position.column}\n"
    ++ toString e.position.line ++ " | " ++ e.text ++ "\n"
    ++ repeated ' ' (toString e.position.line).length ++ " | "
    ++ repeated ' ' (e.position.column - 1) ++ repeated '^' e.carets ++ "\n"

/-- The excerpt shows the line in which the span begins, without carriage returns at its end. There
is a caret, there are not more carets than bytes in a span that is not empty, and if the span begins
inside of what is shown, the carets end there. -/
structure Shows (source : String) (span : Span) (e : Excerpt) : Prop where
  line : ∃ before line rest, IsLine source.toList before line rest ∧
    byteLength before ≤ span.start ∧ span.start ≤ byteLength before + byteLength line ∧
    e.position = ⟨before.count '\n' + 1, span.start - byteLength before + 1⟩ ∧
    e.text.toList = dropEndWhile (· = '\r') line
  carets_pos : 0 < e.carets
  carets_le : e.carets ≤ max (span.stop - span.start) 1
  inside : e.position.column - 1 < byteLength e.text.toList →
    e.position.column - 1 + e.carets ≤ byteLength e.text.toList

end Excerpt

theorem Report.caretCount_pos (length textBytes column : Nat) :
    0 < caretCount length textBytes column := by
  unfold caretCount
  omega

theorem Report.caretCount_le (length textBytes column : Nat) :
    caretCount length textBytes column ≤ max length 1 :=
  Nat.min_le_left _ _

/-- Carets that begin under the line end under it. -/
theorem Report.caretCount_inside {length textBytes column : Nat} (h : column - 1 < textBytes) :
    column - 1 + caretCount length textBytes column ≤ textBytes := by
  unfold caretCount
  omega

namespace Report

/-- A place in the text has an excerpt, which is shown if the margin has room for it. -/
theorem exists_excerpt {source : String} {span : Span} (h : span.WellFormed source) :
    ∃ e : Excerpt, e.Shows source span ∧
      (LineIndex.ofString source).position span.start = e.position ∧
      ∀ file, excerpt? (LineIndex.ofString source) file span =
        if e.Fits then some (e.format file) else none := by
  obtain ⟨before, line, rest, hIsLine, hBegins, hEnds, hPosition, hLine⟩ :=
    LineIndex.exists_position (Nat.le_trans h.ordered h.inside)
  have hText : (LineIndex.ofString source).lineText? (before.count '\n' + 1) =
      some (String.ofList (dropEndWhile (· = '\r') line)) := by
    rw [LineIndex.lineText?, hLine]
    rfl
  refine ⟨⟨⟨before.count '\n' + 1, span.start - byteLength before + 1⟩,
    String.ofList (dropEndWhile (· = '\r') line), caretCount (span.stop - span.start)
      (byteLength (String.ofList (dropEndWhile (· = '\r') line)).toList)
      (span.start - byteLength before + 1)⟩, ?_, hPosition, fun file => ?_⟩
  · exact ⟨⟨before, line, rest, hIsLine, hBegins, hEnds, rfl, String.toList_ofList⟩,
      caretCount_pos _ _ _, caretCount_le _ _ _, caretCount_inside⟩
  · rw [excerpt?, hPosition, hText, Option.bind_eq_bind, Option.bind_some, Option.bind_eq_bind,
      Span.length?_eq_some h.ordered, Option.bind_some]
    by_cases hFits : span.start - byteLength before + 1 - 1 ≤ maxMargin
    · rw [guard, if_pos hFits]
      exact (if_pos hFits).symm
    · rw [guard, if_neg hFits]
      exact (if_neg hFits).symm

theorem isSome_mapM {α β : Type} {f : α → Option β} {xs : List α} :
    (xs.mapM f).isSome ↔ ∀ x ∈ xs, (f x).isSome := by
  induction xs with
  | nil => simp
  | cons x xs ih =>
    rw [List.mapM_cons, List.forall_mem_cons, ← ih]
    cases f x <;> cases xs.mapM f <;> simp

theorem isSome_renderItem? {index : LineIndex} {file : String} {d : Diagnostic} :
    (renderItem? index file d).isSome ↔ ∀ span ∈ d.spans, (excerpt? index file span).isSome := by
  unfold renderItem? Diagnostic.spans
  cases d.span? with
  | none =>
    cases d.note? with
    | none => simp
    | some note => cases hNote : excerpt? index file note.1 <;> simp [hNote]
  | some span =>
    cases hPlace : excerpt? index file span with
    | none => simp [hPlace]
    | some place =>
      cases d.note? with
      | none => simp [hPlace]
      | some note => cases hNote : excerpt? index file note.1 <;> simp [hPlace, hNote]

/-- A report is shown if there is an excerpt for each of its places. -/
theorem isSome_render? {r : Report} {file source : String} :
    (r.render? file source).isSome ↔
      ∀ d ∈ r.items, ∀ span ∈ d.spans,
        (excerpt? (LineIndex.ofString source) file span).isSome := by
  rw [render?, Option.isSome_map, isSome_mapM]
  exact forall₂_congr fun d _ => isSome_renderItem?

end Report

/-! ### Reports of a compilation -/

def FeedbackItem.locations (item : FeedbackItem) : List Location :=
  item.location.toList ++ item.related.map (·.location)

theorem Diagnostic.locations_feedback (d : Diagnostic) (index : LineIndex) (file : String) :
    (d.feedback index file).locations =
      d.spans.map fun span => ⟨file, index.position span.start⟩ := by
  unfold Diagnostic.feedback FeedbackItem.locations Diagnostic.spans
  cases d.span? <;> cases d.note? <;> rfl

/-- How a report about a text is shown. -/
structure Report.Shown (source : String) (r : Report) : Prop where
  wellFormed : ∀ d ∈ r.items, ∀ span ∈ d.spans, span.WellFormed source
  /-- Every place has an excerpt, which is left out only if the margin has no room for it. -/
  excerpts : ∀ d ∈ r.items, ∀ span ∈ d.spans, ∃ e : Excerpt, e.Shows source span ∧
    (LineIndex.ofString source).position span.start = e.position ∧
    ∀ file, excerpt? (LineIndex.ofString source) file span =
      if e.Fits then some (e.format file) else none
  /-- Nothing but the margin stands against showing the report. -/
  rendered : ∀ file, (r.render? file source).isSome ↔ ∀ d ∈ r.items, ∀ span ∈ d.spans,
    ((LineIndex.ofString source).position span.start).column - 1 ≤ maxMargin
  /-- Feedback names all places, whatever their columns. -/
  located : ∀ file, (r.feedback file source).items.map (·.locations) = r.items.map fun d =>
    d.spans.map fun span => ⟨file, (LineIndex.ofString source).position span.start⟩

/-- Places inside the text are all that a report needs to be shown. -/
theorem Report.shown_of_wellFormed {source : String} {r : Report}
    (h : ∀ d ∈ r.items, ∀ span ∈ d.spans, span.WellFormed source) : r.Shown source := by
  have hExcerpt := fun d hd span hSpan => exists_excerpt (h d hd span hSpan)
  refine ⟨h, hExcerpt, fun file => ?_, fun file => ?_⟩
  · rw [isSome_render?]
    refine forall₂_congr fun d hd => forall₂_congr fun span hSpan => ?_
    obtain ⟨e, -, hPosition, hShown⟩ := hExcerpt d hd span hSpan
    rw [hShown file, hPosition]
    split
    · next hFits => exact ⟨fun _ => hFits, fun _ => rfl⟩
    · next hFits => exact ⟨nofun, fun hColumn => absurd hColumn hFits⟩
  · rw [Report.feedback, List.map_map]
    exact List.map_congr_left fun d _ => d.locations_feedback _ file

theorem Program.TrueTo.nodup_leaves {source : String} {p : Program}
    (h : p.TrueTo source (tokenize source).list) : p.leaves.Nodup := by
  refine ((pairwise_tokenize source).sublist h.leaves).imp fun hLess hEq => ?_
  rw [hEq] at hLess
  exact Nat.lt_irrefl _ hLess

/-- The tree that is read from a text keeps to it, and no token is used twice. All places in the
report of a compilation are well formed, they are located in feedback, and the report is shown
unless one of them lies too far to the right. -/
theorem places_keep_to_text (source : String) (options : CompileOptions) :
    (parse source).1.TrueTo source (tokenize source).list ∧ (parse source).1.leaves.Nodup ∧
      ∃ c, compile source options = .ok c ∧ c.report.Shown source := by
  obtain ⟨c, hCompile, hEnds⟩ := compile_ends source options
  have hKeeps := trueTo_parse source
  exact ⟨hKeeps, hKeeps.nodup_leaves, c, hCompile,
    Report.shown_of_wellFormed (wellFormed_of_ends hEnds)⟩

/-! ### A line that is too long -/

/-- `n` blanks, a character that begins nothing, and a program. -/
def farRight (n : Nat) : String := String.ofList (List.replicate n ' ' ++ "#begin end.".toList)

theorem byteLength_replicate_blank (n : Nat) : byteLength (List.replicate n ' ') = n := by
  induction n with
  | zero => rfl
  | succ n ih =>
    rw [List.replicate_succ, byteLength_cons, ih]
    exact Nat.add_comm 1 n

open Lexer in
theorem mem_errors_farRight {n : Nat} (hn : 0 < n) :
    .illegalCharacter '#' ⟨n, n + 1⟩ ∈ (tokenize (farRight n)).errors := by
  have hBlanks : Fits .blank (List.replicate n ' ') "#begin end.".toList := by
    refine ⟨List.ne_nil_of_length_pos (by simpa using hn), ?_, ?_⟩
    · exact List.all_eq_true.mpr fun c hc => by rw [List.eq_of_mem_replicate hc]; decide
    · rintro _ ⟨rfl⟩
      decide
  have hIllegal : Fits .illegal ['#'] "begin end.".toList :=
    ⟨'#', rfl, by decide, by decide, by decide⟩
  have hText : "#begin end.".toList = ['#'] ++ "begin end.".toList := rfl
  have hLexemes : lexemes (farRight n).toList = ⟨.blank, List.replicate n ' '⟩ ::
      ⟨.illegal, ['#']⟩ :: lexemes "begin end.".toList := by
    rw [farRight, String.toList_ofList, lexemes_of_fits hBlanks, hText, lexemes_of_fits hIllegal]
  rw [tokenize, hLexemes]
  simp only [Lexer.place, byteLength_replicate_blank, Nat.zero_add]
  exact List.mem_cons_self

/-- There is one line only. -/
theorem column_farRight (n : Nat) :
    ((LineIndex.ofString (farRight n)).position n).column = n + 1 := by
  have hInside : n ≤ (farRight n).utf8ByteSize := by
    rw [← byteLength_toList, farRight, String.toList_ofList, byteLength_append,
      byteLength_replicate_blank]
    exact Nat.le_add_right _ _
  obtain ⟨before, line, rest, hIsLine, -, -, hPosition, -⟩ := LineIndex.exists_position hInside
  have hBefore : before = [] := by
    refine List.getLast?_eq_none_iff.mp (Option.eq_none_iff_forall_ne_some.mpr fun c hc => ?_)
    have hMem : '\n' ∈ (farRight n).toList := by
      rw [hIsLine.text, ← hIsLine.opens c hc]
      exact List.mem_append_left _ (List.mem_of_getLast? hc)
    rw [farRight, String.toList_ofList] at hMem
    rcases List.mem_append.mp hMem with hBlank | hText
    · exact absurd (List.eq_of_mem_replicate hBlank) (by decide)
    · exact absurd hText (by decide)
  rw [hPosition, hBefore]
  rfl

/-- Where the margin has no room for the blanks of its line, a report is not shown. -/
theorem render_farRight {n : Nat} (hn : Report.maxMargin < n) (file : String)
    (options : CompileOptions) :
    ∃ c, compile (farRight n) options = .ok c ∧ c.report.render? file (farRight n) = none := by
  obtain ⟨c, hCompile, hEnds⟩ := compile_ends (farRight n) options
  have hShown := Report.shown_of_wellFormed (wellFormed_of_ends hEnds)
  have hError : .illegalCharacter '#' ⟨n, n + 1⟩ ∈ (parse (farRight n)).2 :=
    List.mem_append_left _ (mem_errors_farRight (Nat.zero_lt_of_lt hn))
  have hMem : .error (.illegalCharacter '#' ⟨n, n + 1⟩) ∈ c.report.items := by
    cases hEnds with
    | unread hRead => exact List.mem_map_of_mem hError
    | _ => simp_all
  refine ⟨c, hCompile, Option.not_isSome_iff_eq_none.mp fun hSome => ?_⟩
  have hColumn := (hShown.rendered file).mp hSome _ hMem ⟨n, n + 1⟩ List.mem_cons_self
  rw [column_farRight, Nat.add_sub_cancel] at hColumn
  exact Nat.not_le_of_lt hn hColumn

/-- A mistake past column 65535 has no rendering. -/
theorem farRight_not_shown : ∃ c, compile (farRight 65536) .default = .ok c ∧
    c.report.render? "t.pas" (farRight 65536) = none :=
  render_farRight (by decide) "t.pas" .default

end ChipPascal
