import ChipPascal.Proofs.LexicalGrammar

/-!
# Tokens tile the text

A text is a row of pieces that the lexical grammar allows, with no gap between them and no overlap.
The tokens and the errors of a text are those of its pieces, in order. So a character that belongs
to no token is a blank, belongs to a comment, or is reported, once and alone.
-/

namespace ChipPascal

theorem byteLength_toList (s : String) : byteLength s.toList = s.utf8ByteSize := by
  have h : ∀ cs, byteLength cs = (String.ofList cs).utf8ByteSize := by
    intro cs
    induction cs with
    | nil => rfl
    | cons c cs ih =>
      rw [byteLength_cons, ih, ← List.singleton_append, String.ofList_append,
        String.utf8ByteSize_append]
      simp
  rw [h, String.ofList_toList]

namespace Span

def Holds (s : Span) (offset : Nat) : Prop := s.start ≤ offset ∧ offset < s.stop

instance (s : Span) (offset : Nat) : Decidable (s.Holds offset) :=
  inferInstanceAs (Decidable (_ ∧ _))

end Span

def StandsAt (source : List Char) (span : Span) (text rest : List Char) : Prop :=
  ∃ before, source = before ++ (text ++ rest) ∧
    span = ⟨byteLength before, byteLength before + byteLength text⟩

namespace Lexer

theorem byteLength_pos {text : List Char} (h : text ≠ []) : 0 < byteLength text := by
  cases text with
  | nil => exact absurd rfl h
  | cons c cs =>
    have := c.utf8Size_pos
    rw [byteLength_cons]
    omega

/-- The pieces make up the text, which begins at the byte `start`. -/
inductive Tiles : Nat → List Char → List (Lexeme × Span) → Prop
  | none {start : Nat} : Tiles start [] []
  | piece {start : Nat} {kind : LexemeKind} {text rest : List Char}
      {pieces : List (Lexeme × Span)} :
      Fits kind text rest → Tiles (start + byteLength text) rest pieces →
      Tiles start (text ++ rest) ((⟨kind, text⟩, ⟨start, start + byteLength text⟩) :: pieces)

/-- The lexemes of a text are its tiles. -/
theorem tiles_place (start : Nat) (text : List Char) :
    Tiles start text (place start (lexemes text)) := by
  fun_induction lexemes text generalizing start with
  | case1 => exact .none
  | case2 c cs _ ih =>
    have hText : c :: cs = (c :: (scan c cs).2.1) ++ (scan c cs).2.2 := by
      rw [List.cons_append, scan_append]
    have hTiles : Tiles start _ _ := .piece (fits_scan c cs) (ih _)
    rwa [← hText] at hTiles

variable {start : Nat} {text : List Char} {pieces : List (Lexeme × Span)}

theorem Tiles.start_le (h : Tiles start text pieces) {placed : Lexeme × Span}
    (hMem : placed ∈ pieces) : start ≤ placed.2.start := by
  induction h with
  | none => cases hMem
  | piece _ _ ih =>
    rcases List.mem_cons.mp hMem with rfl | hRest
    · exact Nat.le_refl _
    · exact Nat.le_trans (Nat.le_add_right _ _) (ih hRest)

/-- Tiles do not overlap. -/
theorem Tiles.pairwise (h : Tiles start text pieces) :
    pieces.Pairwise fun a b => a.2.stop ≤ b.2.start := by
  induction h with
  | none => exact .nil
  | piece _ hRest ih => exact .cons (fun _ hMem => hRest.start_le hMem) ih

/-- A piece stands in the text where its span says. -/
theorem Tiles.stands (h : Tiles start text pieces) {l : Lexeme} {span : Span}
    (hMem : (l, span) ∈ pieces) :
    ∃ before rest, text = before ++ (l.text ++ rest) ∧ Fits l.kind l.text rest ∧
      span = ⟨start + byteLength before, start + byteLength before + byteLength l.text⟩ := by
  induction h with
  | none => cases hMem
  | @piece start kind text rest pieces hFits _ ih =>
    rcases List.mem_cons.mp hMem with hEq | hRest
    · cases hEq
      exact ⟨[], rest, rfl, hFits, rfl⟩
    · obtain ⟨before, rest', rfl, hFits', rfl⟩ := ih hRest
      refine ⟨text ++ before, rest', by rw [List.append_assoc], hFits', ?_⟩
      rw [byteLength_append, Nat.add_assoc]

/-- Every character belongs to a piece. -/
theorem Tiles.exists_piece (h : Tiles start text pieces) {before after : List Char} {c : Char}
    (hText : text = before ++ c :: after) :
    ∃ l span inner more, (l, span) ∈ pieces ∧ l.text = inner ++ c :: more ∧
      span.start + byteLength inner = start + byteLength before := by
  induction h generalizing before with
  | none => simp at hText
  | @piece start kind text rest pieces _ _ ih =>
    rcases List.append_eq_append_iff.mp hText with ⟨behind, rfl, hRest⟩ | ⟨inner, hPiece, hAfter⟩
    · obtain ⟨l, span, inner, more, hMem, hInner, hStart⟩ := ih hRest
      refine ⟨l, span, inner, more, List.mem_cons_of_mem _ hMem, hInner, ?_⟩
      rw [hStart, byteLength_append, Nat.add_assoc]
    · cases inner with
      | nil =>
        obtain ⟨l, span, inner, more, hMem, hInner, hStart⟩ := @ih [] hAfter.symm
        refine ⟨l, span, inner, more, List.mem_cons_of_mem _ hMem, hInner, ?_⟩
        simp [hStart, hPiece]
      | cons d inner =>
        obtain ⟨rfl, -⟩ := List.cons.inj hAfter
        exact ⟨_, _, before, inner, List.mem_cons_self, hPiece, rfl⟩

theorem mem_of_mem_place {start : Nat} {ls : List Lexeme} {l : Lexeme} {span : Span}
    (h : (l, span) ∈ place start ls) : l ∈ ls := by
  induction ls generalizing start with
  | nil => simp [place] at h
  | cons first ls ih =>
    rcases List.mem_cons.mp h with hEq | hMem
    · cases hEq
      exact List.mem_cons_self
    · exact List.mem_cons_of_mem _ (ih hMem)

theorem span_of_token? {placed : Lexeme × Span} {t : Token} (h : token? placed = some t) :
    placed = (⟨.token t.kind, t.text.toList⟩, t.span) := by
  obtain ⟨⟨kind, text⟩, span⟩ := placed
  cases kind with
  | token kind =>
    cases h
    simp
  | blank | comment | illegal => cases h

theorem span_of_error? {placed : Lexeme × Span} {e : Error} (h : error? placed = some e) :
    ∃ c cs, placed.1 = ⟨.illegal, c :: cs⟩ ∧ e = .illegalCharacter c placed.2 := by
  obtain ⟨⟨kind, text⟩, span⟩ := placed
  cases kind with
  | illegal =>
    cases text with
    | nil => cases h
    | cons c cs =>
      cases h
      exact ⟨c, cs, rfl, rfl⟩
  | token | blank | comment => cases h

end Lexer

def Tokens.errorsAt (ts : Tokens) (offset : Nat) : List Error :=
  ts.errors.filter fun e => e.span?.any fun span => span.Holds offset

/-- What lexing finds in a text, and the pieces into which it cuts the text. -/
structure Tiling (source : String) (ts : Tokens) (pieces : List (Lexeme × Span)) : Prop where
  /-- The pieces make up the text. -/
  tiles : Lexer.Tiles 0 source.toList pieces
  tokens : ts.list = pieces.filterMap Lexer.token?
  errors : ts.errors = pieces.filterMap Lexer.error?
  /-- The end mark comes last, behind the last byte, and nowhere else. -/
  all : ts.all = ts.list ++ [.endOfFile source.utf8ByteSize] ∧ ∀ t ∈ ts.list, t.kind ≠ .eof
  /-- A token ends before the next one begins. -/
  ordered : ts.list.Pairwise fun t t' => t.span.stop ≤ t'.span.start
  /-- A token is what stands in the text at its span, and it goes as far as it can. -/
  stands : ∀ t ∈ ts.list, t.span.start < t.span.stop ∧ t.kind.Spells t.text ∧
    ∃ rest, StandsAt source.toList t.span t.text.toList rest ∧ Lexer.EndsBefore t.kind.goesOn rest
  /-- Every error is about one character, and errors are in the order of the text. -/
  reported : (∀ e ∈ ts.errors, ∃ c span rest, e = .illegalCharacter c span ∧
      StandsAt source.toList span [c] rest ∧ Lexer.IsIllegal c) ∧
    ts.errors.Pairwise fun e e' => ∀ a ∈ e.span?, ∀ b ∈ e'.span?, a.stop ≤ b.start
  /-- A character outside the tokens is a blank, or it belongs to a comment, or it is reported. -/
  outside : ∀ c span rest, StandsAt source.toList span [c] rest →
    (∀ t ∈ ts.list, ¬ t.span.Holds span.start) →
      Lexer.isBlank c = true ∨
      (∃ comment, comment ∈ pieces ∧ comment.1.kind = .comment ∧ comment.2.Holds span.start) ∨
      ts.errorsAt span.start = [.illegalCharacter c span]

namespace Lexer

variable {text : List Char} {pieces : List (Lexeme × Span)}

/-- Only the piece to which a byte belongs can report it. -/
theorem Tiles.errors_at {start : Nat} (h : Tiles start text pieces) {l : Lexeme} {span : Span}
    (hMem : (l, span) ∈ pieces) {offset : Nat} (hHolds : span.Holds offset) :
    (pieces.filterMap error?).filter (fun e => e.span?.any fun span => span.Holds offset) =
      (error? (l, span)).toList := by
  obtain ⟨before, after, rfl⟩ := List.append_of_mem hMem
  obtain ⟨-, hAfter, hBefore⟩ := List.pairwise_append.mp h.pairwise
  have hNone (others : List (Lexeme × Span))
      (hOthers : ∀ placed ∈ others, ¬ placed.2.Holds offset) :
      (others.filterMap error?).filter (fun e => e.span?.any fun span => span.Holds offset) =
        [] := by
    refine List.filter_eq_nil_iff.mpr fun e he => ?_
    obtain ⟨placed, hPlaced, hError⟩ := List.mem_filterMap.mp he
    obtain ⟨c, cs, -, rfl⟩ := span_of_error? hError
    simpa [Error.span?] using hOthers placed hPlaced
  have hLeft := hNone before fun placed hPlaced hOther => by
    have : placed.2.stop ≤ span.start := hBefore placed hPlaced _ List.mem_cons_self
    have := hHolds.1
    have := hOther.2
    omega
  have hRight := hNone after fun placed hPlaced hOther => by
    have : span.stop ≤ placed.2.start := (List.pairwise_cons.mp hAfter).1 placed hPlaced
    have := hHolds.2
    have := hOther.1
    omega
  rw [List.filterMap_append, List.filter_append, hLeft, List.nil_append]
  cases hError : error? (l, span) with
  | none => rw [List.filterMap_cons_none hError, hRight]; rfl
  | some e =>
    obtain ⟨c, cs, -, rfl⟩ := span_of_error? hError
    rw [List.filterMap_cons_some hError,
      List.filter_cons_of_pos (by simpa [Error.span?] using hHolds), hRight]
    rfl

end Lexer

/-! ### The tokens and the errors of a text -/

section Source

variable (source : String)

theorem tiles_tokenize :
    Lexer.Tiles 0 source.toList (Lexer.place 0 (Lexer.lexemes source.toList)) :=
  Lexer.tiles_place 0 source.toList

variable {source}

/-- A token stands in the text where its span says. -/
theorem stands_of_mem_tokenize {t : Token} (h : t ∈ (tokenize source).list) :
    t.kind.Spells t.text ∧ ∃ rest, StandsAt source.toList t.span t.text.toList rest ∧
      Lexer.EndsBefore t.kind.goesOn rest := by
  obtain ⟨placed, hPlaced, hToken⟩ := List.mem_filterMap.mp h
  obtain rfl := Lexer.span_of_token? hToken
  obtain ⟨before, rest, hText, ⟨hSpells, hEnds⟩, hSpan⟩ := (tiles_tokenize source).stands hPlaced
  refine ⟨by simpa using hSpells, rest, ⟨before, hText, ?_⟩, hEnds⟩
  simpa using hSpan

theorem start_lt_of_mem_tokenize {t : Token} (h : t ∈ (tokenize source).list) :
    t.span.start < t.span.stop := by
  obtain ⟨hSpells, rest, ⟨before, -, hSpan⟩, -⟩ := stands_of_mem_tokenize h
  have := Lexer.byteLength_pos (Lexer.spells_ne_nil hSpells)
  simp only [hSpan]
  omega

theorem kind_ne_eof_of_mem_tokenize {t : Token} (h : t ∈ (tokenize source).list) :
    t.kind ≠ .eof := by
  intro hEof
  have hSpells := (stands_of_mem_tokenize h).1
  rw [hEof] at hSpells
  cases hSpells

/-- An error of the lexer is about a character that stands where the span says. -/
theorem stands_of_mem_errors {e : Error} (h : e ∈ (tokenize source).errors) :
    ∃ c span rest, e = .illegalCharacter c span ∧ StandsAt source.toList span [c] rest ∧
      Lexer.IsIllegal c := by
  obtain ⟨⟨l, span⟩, hPlaced, hError⟩ := List.mem_filterMap.mp h
  obtain ⟨c, cs, rfl, rfl⟩ := Lexer.span_of_error? hError
  obtain ⟨before, rest, hText, ⟨d, hOne, hIllegal⟩, hSpan⟩ := (tiles_tokenize source).stands hPlaced
  obtain ⟨rfl, rfl⟩ := List.cons.inj hOne
  exact ⟨c, span, rest, rfl, ⟨before, hText, by simpa using hSpan⟩, hIllegal⟩

variable (source)

/-- A token ends before the next one begins. -/
theorem pairwise_spans_tokenize :
    (tokenize source).list.Pairwise fun t t' => t.span.stop ≤ t'.span.start := by
  refine (tiles_tokenize source).pairwise.filterMap _ fun a b hLess t ht t' ht' => ?_
  rw [Lexer.span_of_token? ht, Lexer.span_of_token? ht'] at hLess
  exact hLess

/-- No two tokens start at the same place. -/
theorem pairwise_tokenize :
    (tokenize source).list.Pairwise fun a b => a.span.start < b.span.start := by
  refine (pairwise_spans_tokenize source).imp_of_mem fun ha _ hLess => ?_
  exact Nat.lt_of_lt_of_le (start_lt_of_mem_tokenize ha) hLess

/-- Illegal characters are reported in the order of the text. -/
theorem pairwise_errors_tokenize :
    (tokenize source).errors.Pairwise fun e e' => ∀ a ∈ e.span?, ∀ b ∈ e'.span?,
      a.stop ≤ b.start := by
  refine (tiles_tokenize source).pairwise.filterMap _ fun p q hLess e he e' he' => ?_
  obtain ⟨-, -, -, rfl⟩ := Lexer.span_of_error? he
  obtain ⟨-, -, -, rfl⟩ := Lexer.span_of_error? he'
  rintro _ ⟨rfl⟩ _ ⟨rfl⟩
  exact hLess

open Lexer in
/-- A character outside the tokens is a blank, or it belongs to a comment, or it is reported. -/
theorem outside_tokenize {c : Char} {before rest : List Char}
    (hText : source.toList = before ++ c :: rest)
    (hOutside : ∀ t ∈ (tokenize source).list, ¬ t.span.Holds (byteLength before)) :
    isBlank c = true ∨
      (∃ comment, comment ∈ place 0 (lexemes source.toList) ∧ comment.1.kind = .comment ∧
        comment.2.Holds (byteLength before)) ∨
      (tokenize source).errorsAt (byteLength before) =
        [.illegalCharacter c ⟨byteLength before, byteLength before + c.utf8Size⟩] := by
  have hTiles := tiles_tokenize source
  obtain ⟨⟨kind, text⟩, span, inner, more, hMem, hInner, hStart⟩ := hTiles.exists_piece hText
  obtain ⟨before', rest', -, hFits, hSpan⟩ := hTiles.stands hMem
  have hStop : span.stop = span.start + byteLength text := by rw [hSpan]
  have hHolds : span.Holds (byteLength before) := by
    have hLength := congrArg byteLength hInner
    have := c.utf8Size_pos
    simp only [byteLength_append, byteLength_cons] at hLength
    constructor <;> omega
  cases kind with
  | token kind =>
    have hToken : ⟨kind, String.ofList text, span⟩ ∈ (tokenize source).list :=
      List.mem_filterMap.mpr ⟨_, hMem, rfl⟩
    exact absurd hHolds (hOutside _ hToken)
  | blank =>
    have hBlank : ∀ d ∈ text, isBlank d = true := List.all_eq_true.mp hFits.2.1
    exact .inl (hBlank c (by rw [show text = _ from hInner]; simp))
  | comment => exact .inr (.inl ⟨_, hMem, rfl, hHolds⟩)
  | illegal =>
    obtain ⟨d, rfl, -⟩ := hFits
    obtain ⟨rfl, hRest⟩ | ⟨-, hNil⟩ := List.append_eq_singleton_iff.mp (Eq.symm hInner)
    · obtain ⟨rfl, rfl⟩ := List.cons.inj hRest
      refine .inr (.inr ((hTiles.errors_at hMem hHolds).trans ?_))
      simp only [byteLength_nil, Nat.add_zero, Nat.zero_add, byteLength_cons] at hStart hStop
      rw [← hStart, ← hStop]
      rfl
    · cases hNil

end Source

open Lexer in
/-- The pieces of a text make it up, each as the lexical grammar allows, and they account for all of
it: tokens are one behind the other, and what belongs to no token is blank, comment, or reported. -/
theorem tokenize_tiles_source (source : String) :
    ∃ pieces, Tiling source (tokenize source) pieces := by
  refine ⟨_, tiles_tokenize source, rfl, rfl, ⟨?_, fun t ht => kind_ne_eof_of_mem_tokenize ht⟩,
    pairwise_spans_tokenize source,
    fun t ht => ⟨start_lt_of_mem_tokenize ht, stands_of_mem_tokenize ht⟩,
    ⟨fun e he => stands_of_mem_errors he, pairwise_errors_tokenize source⟩, ?_⟩
  · rw [Tokens.all, ← byteLength_toList]
    rfl
  · rintro c _ rest ⟨before, hText, rfl⟩ hOutside
    exact outside_tokenize source hText hOutside

end ChipPascal
