import ChipPascal.Proofs.Printing

/-!
# Layout does not matter

Words are written one behind the other, each kept apart from the next by a blank and then by any
blanks and comments. Whatever is chosen for the separators, and whatever words they are, the lexer
finds these words again and nothing else.
-/

namespace ChipPascal

namespace Lexer

/-- A blank, or a comment with its end: for one that begins with two slashes, the end of the
line. -/
inductive IsFiller : List Char → Prop
  | blank {c : Char} : isBlank c = true → IsFiller [c]
  | line {body : List Char} : '\n' ∉ body → IsFiller ('/' :: '/' :: (body ++ ['\n']))
  | block {body : List Char} : ¬ ['*', '/'] <:+: body →
      IsFiller ('/' :: '*' :: (body ++ ['*', '/']))
  | brace {body : List Char} : '}' ∉ body → IsFiller ('{' :: (body ++ ['}']))

/-- Blanks and comments in any order. -/
inductive IsLayout : List Char → Prop
  | none : IsLayout []
  | more {filler rest : List Char} : IsFiller filler → IsLayout rest → IsLayout (filler ++ rest)

inductive IsSeparator : List Char → Prop
  | blank {c : Char} {layout : List Char} : isBlank c = true → IsLayout layout →
      IsSeparator (c :: layout)

variable {rest : List Char} {ws : List Word}

theorem Reads.cons_comment {ls : List Lexeme} (h : Reads ls ws) (text : List Char) :
    Reads (⟨.comment, text⟩ :: ls) ws := by
  constructor
  · rw [List.filterMap_cons_none rfl, h.words]
  · exact List.forall_mem_cons.mpr ⟨by simp, h.legal⟩

theorem Reads.tail {ls : List Lexeme} {l : Lexeme} (h : Reads (l :: ls) ws) (hl : word? l = none) :
    Reads ls ws := by
  constructor
  · rw [← h.words, List.filterMap_cons_none hl]
  · exact fun l' hl' => h.legal l' (List.mem_cons_of_mem _ hl')

theorem lexemes_of_isBlank {c : Char} (hc : isBlank c = true) (rest : List Char) :
    lexemes (c :: rest) =
      ⟨.blank, c :: rest.takeWhile isBlank⟩ :: lexemes (rest.dropWhile isBlank) := by
  have hFits : Fits .blank (c :: rest.takeWhile isBlank) (rest.dropWhile isBlank) :=
    ⟨List.cons_ne_nil _ _, by rw [List.all_cons, hc, List.all_takeWhile]; rfl,
      endsBefore_dropWhile _ _⟩
  have hLexemes := lexemes_of_fits hFits
  rwa [List.cons_append, List.takeWhile_append_dropWhile] at hLexemes

/-- A blank before a text joins the blanks with which the text begins. -/
theorem Reads.blank {c : Char} (hc : isBlank c = true) (h : Reads (lexemes rest) ws) :
    Reads (lexemes (c :: rest)) ws := by
  rw [lexemes_of_isBlank hc]
  refine Reads.cons_blank ?_ _
  cases rest with
  | nil => exact h
  | cons d rest =>
    cases hd : isBlank d with
    | true =>
      rw [lexemes_of_isBlank hd] at h
      rw [List.dropWhile_cons_of_pos hd]
      exact h.tail rfl
    | false => rwa [List.dropWhile_cons_of_neg (by simp [hd])]

theorem Reads.comment {text : List Char} (hText : IsComment text rest)
    (h : Reads (lexemes rest) ws) : Reads (lexemes (text ++ rest)) ws := by
  have hFits : Fits .comment text rest := hText
  rw [lexemes_of_fits hFits]
  exact h.cons_comment text

/-- Blanks and comments in front of a text add no word. -/
theorem Reads.filler {filler : List Char} (hFiller : IsFiller filler)
    (h : Reads (lexemes rest) ws) : Reads (lexemes (filler ++ rest)) ws := by
  cases hFiller with
  | blank hc => exact h.blank hc
  | @line body hBody =>
    -- the comment ends before its newline, which is a blank
    have hComment : IsComment ('/' :: '/' :: body) ('\n' :: rest) :=
      .line hBody fun c hc => by cases hc; rfl
    have hReads := Reads.comment hComment (h.blank rfl)
    rwa [List.cons_append, List.cons_append, List.append_cons] at hReads
  | block hBody => exact Reads.comment (.block hBody) h
  | brace hBody => exact Reads.comment (.brace hBody) h

theorem Reads.layout {layout : List Char} (hLayout : IsLayout layout)
    (h : Reads (lexemes rest) ws) : Reads (lexemes (layout ++ rest)) ws := by
  induction hLayout with
  | none => exact h
  | more hFiller _ ih =>
    rw [List.append_assoc]
    exact ih.filler hFiller

theorem Reads.separator {sep : List Char} (hSep : IsSeparator sep) (h : Reads (lexemes rest) ws) :
    Reads (lexemes (sep ++ rest)) ws := by
  cases hSep with
  | blank hc hLayout => exact (h.layout hLayout).blank hc

/-- A word is a lexeme of its own where nothing or a blank comes next. -/
theorem Reads.word {w : Word} (hw : w.kind.Spells w.text)
    (hRest : ∀ c ∈ rest.head?, isBlank c = true) (h : Reads (lexemes rest) ws) :
    Reads (lexemes (w.text.toList ++ rest)) (w :: ws) := by
  have hFits : Fits (.token w.kind) w.text.toList rest :=
    ⟨by rwa [String.ofList_toList], fun c hc => goesOn_of_isBlank (hRest c hc) _⟩
  rw [lexemes_of_fits hFits]
  exact h.cons_word w

end Lexer

abbrev SpacedWords := List (Word × List Char)

namespace SpacedWords

def text (items : SpacedWords) : List Char := items.flatMap fun item => item.1.text.toList ++ item.2

/-- Every word is kept apart from the next. -/
def KeptApart : SpacedWords → Prop
  | [] => True
  | [(_, sep)] => sep = [] ∨ Lexer.IsSeparator sep
  | (_, sep) :: items => Lexer.IsSeparator sep ∧ KeptApart items

open Lexer in
/-- Words are read back whatever stands between them, if they are kept apart. -/
theorem reads_text {items : SpacedWords} (hWords : ∀ item ∈ items, item.1.kind.Spells item.1.text)
    (hApart : KeptApart items) : Reads (lexemes (text items)) (items.map (·.1)) := by
  induction items with
  | nil =>
    have hNone : lexemes [] = [] := by simp [lexemes]
    rw [text, List.flatMap_nil, hNone]
    exact ⟨rfl, by simp⟩
  | cons item items ih =>
    obtain ⟨w, sep⟩ := item
    obtain ⟨hw, hRest⟩ := List.forall_mem_cons.mp hWords
    have hText : text ((w, sep) :: items) = w.text.toList ++ (sep ++ text items) := by
      simp [text, List.append_assoc]
    have hMore : (sep = [] ∧ items = [] ∨ IsSeparator sep) ∧ KeptApart items := by
      cases items with
      | nil => exact ⟨hApart.imp_left fun hNil => ⟨hNil, rfl⟩, trivial⟩
      | cons => exact ⟨.inr hApart.1, hApart.2⟩
    rw [hText, List.map_cons]
    rcases hMore with ⟨⟨rfl, rfl⟩ | hSep, hItems⟩
    · exact (ih hRest hItems).word hw (by simp [text])
    · refine ((ih hRest hItems).separator hSep).word hw ?_
      cases hSep with
      | blank hc _ => simpa using hc

end SpacedWords

/-- Whatever layout stands before words, between them and behind them, the tokens of the text are
these words in order, with the end mark behind them, and there are no errors. -/
theorem tokenize_layout {lead : List Char} {items : SpacedWords} (hLead : Lexer.IsLayout lead)
    (hWords : ∀ item ∈ items, item.1.kind.Spells item.1.text) (hApart : items.KeptApart) :
    (tokenize (String.ofList (lead ++ items.text))).all.map Token.word =
        items.map (·.1) ++ [⟨.eof, ""⟩] ∧
      (tokenize (String.ofList (lead ++ items.text))).errors = [] := by
  have hReads := (SpacedWords.reads_text hWords hApart).layout hLead
  unfold Tokens.all tokenize
  rw [String.toList_ofList, List.map_append, Lexer.map_word_place, hReads.words]
  exact ⟨rfl, Lexer.filterMap_error?_place hReads.legal 0⟩

/-- Words that together would begin comments, with the marks of all comments in each of the
separators. -/
def scattered : SpacedWords :=
  [(⟨.slash, "/"⟩, ' ' :: "//*\x7bé\n".toList),
    (⟨.star, "*"⟩, '\n' :: "/*//\x7b**/".toList),
    (⟨.ident, "begins"⟩, '\t' :: "\x7b/* //\x7d".toList),
    (⟨.number, "007"⟩, [])]

theorem scattered_layout : Lexer.IsLayout "\x7b;\x7d".toList ∧ scattered.KeptApart ∧
    (tokenize (String.ofList ("\x7b;\x7d".toList ++ scattered.text))).all.map Token.word =
      [⟨.slash, "/"⟩, ⟨.star, "*"⟩, ⟨.ident, "begins"⟩, ⟨.number, "007"⟩, ⟨.eof, ""⟩] ∧
    (tokenize (String.ofList ("\x7b;\x7d".toList ++ scattered.text))).errors = [] := by
  have hLead : Lexer.IsLayout "\x7b;\x7d".toList :=
    .more (.brace (by decide : '\x7d' ∉ [';'])) .none
  have hApart : scattered.KeptApart := by
    refine ⟨.blank rfl (.more (.line (by decide : '\n' ∉ "*\x7bé".toList)) .none),
      .blank rfl (.more (.block (by decide : ¬ ['*', '/'] <:+: "//\x7b*".toList)) .none),
      .blank rfl (.more (.brace (by decide : '\x7d' ∉ "/* //".toList)) .none), .inl rfl⟩
  have hWords : ∀ item ∈ scattered, item.1.kind.Spells item.1.text := by
    simp only [scattered, List.forall_mem_cons]
    exact ⟨rfl, rfl, (by decide : IsName "begins"), (by decide : IsNumeral "007"), by simp⟩
  exact ⟨hLead, hApart, tokenize_layout hLead hWords hApart⟩

end ChipPascal
