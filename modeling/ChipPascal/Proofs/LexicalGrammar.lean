import ChipPascal.Token.Lexer
import Mathlib.Data.List.Infix

/-!
# The lexical grammar

What a piece of text has to look like to be a token, a run of blanks, a comment or an illegal
character, and which characters must not follow it: those with which it would be a longer piece, or
another one. Main statement: the lexer cuts a piece of some kind off a text just where the grammar
allows it (`scan_eq_iff`).
-/

namespace ChipPascal

/-- A letter or an underscore, then letters, digits and underscores, and no keyword. -/
def IsName (name : String) : Prop :=
  name.toList.head?.any Lexer.isIdentStart = true ∧ name.toList.all Lexer.isIdentPart = true ∧
    TokenKind.keyword? name = none

instance (name : String) : Decidable (IsName name) := inferInstanceAs (Decidable (_ ∧ _ ∧ _))

def IsNumeral (text : String) : Prop := text.toList ≠ [] ∧ text.toList.all Char.isDigit = true

instance (text : String) : Decidable (IsNumeral text) := inferInstanceAs (Decidable (_ ∧ _))

namespace TokenKind

/-- A token of this kind can be written as `text`. There is no text for the end mark. -/
def Spells (kind : TokenKind) (text : String) : Prop :=
  match kind with
  | ident => IsName text
  | number => IsNumeral text
  | kind => kind.spelling? = some text

/-- Behind a token of this kind `c` would make another piece of it. -/
def goesOn (kind : TokenKind) (c : Char) : Bool :=
  match kind with
  | ident => Lexer.isIdentPart c
  | number => c.isDigit
  | colon => c = '='
  | slash => c = '/' || c = '*'
  | kind => keywords.contains kind && Lexer.isIdentPart c

end TokenKind

namespace Lexer

def EndsBefore (p : Char → Bool) (rest : List Char) : Prop := ∀ c ∈ rest.head?, p c = false

/-- `text` is a comment, where `rest` follows: only an end of the text can end it early. -/
inductive IsComment : List Char → List Char → Prop
  | line {body rest : List Char} : '\n' ∉ body → EndsBefore (· ≠ '\n') rest →
      IsComment ('/' :: '/' :: body) rest
  | block {body rest : List Char} : ¬ ['*', '/'] <:+: body →
      IsComment ('/' :: '*' :: (body ++ ['*', '/'])) rest
  | openBlock {body : List Char} : ¬ ['*', '/'] <:+: body → IsComment ('/' :: '*' :: body) []
  | brace {body rest : List Char} : '}' ∉ body → IsComment ('{' :: (body ++ ['}'])) rest
  | openBrace {body : List Char} : '}' ∉ body → IsComment ('{' :: body) []

def IsIllegal (c : Char) : Prop :=
  isBlank c = false ∧ isIdentPart c = false ∧ c ∉ "+-*/:(),.;\x7b".toList

/-- `text` is a piece of this kind, where `rest` follows. -/
def Fits (kind : LexemeKind) (text rest : List Char) : Prop :=
  match kind with
  | .token kind => kind.Spells (String.ofList text) ∧ EndsBefore kind.goesOn rest
  | .blank => text ≠ [] ∧ text.all isBlank = true ∧ EndsBefore isBlank rest
  | .comment => IsComment text rest
  | .illegal => ∃ c, text = [c] ∧ IsIllegal c

/-! ### Runs of characters -/

theorem endsBefore_dropWhile (p : Char → Bool) (cs : List Char) :
    EndsBefore p (cs.dropWhile p) := by
  intro c hc
  cases hRest : cs.dropWhile p with
  | nil => simp [hRest] at hc
  | cons d rest =>
    have hHead := List.head?_dropWhile_not p cs
    rw [hRest] at hc hHead
    cases hc
    simpa using hHead

/-- A run of characters is cut where the next one does not continue it. -/
theorem takeWhile_append_of_endsBefore {p : Char → Bool} {cs rest : List Char}
    (hcs : cs.all p = true) (h : EndsBefore p rest) :
    (cs ++ rest).takeWhile p = cs ∧ (cs ++ rest).dropWhile p = rest := by
  have hAll : ∀ c ∈ cs, p c = true := List.all_eq_true.mp hcs
  rw [List.takeWhile_append_of_pos hAll, List.dropWhile_append_of_pos hAll]
  cases rest with
  | nil => simp
  | cons c rest =>
    have hc : p c = false := h c rfl
    simp [hc]

/-! ### Ends of comments -/

theorem splitBrace_closed {body : List Char} (h : '}' ∉ body) (rest : List Char) :
    splitBrace (body ++ '}' :: rest) = (body ++ ['}'], rest) := by
  induction body with
  | nil => simp [splitBrace]
  | cons c body ih =>
    obtain ⟨hc, hBody⟩ := not_or.mp (mt List.mem_cons.mpr h)
    simp [splitBrace, Ne.symm hc, ih hBody]

theorem splitBrace_open {cs : List Char} (h : '}' ∉ cs) : splitBrace cs = (cs, []) := by
  induction cs with
  | nil => rfl
  | cons c cs ih =>
    obtain ⟨hc, hRest⟩ := not_or.mp (mt List.mem_cons.mpr h)
    simp [splitBrace, Ne.symm hc, ih hRest]

/-- A comment ends at the first closing mark. -/
theorem splitStarSlash_closed {body : List Char} (h : ¬ ['*', '/'] <:+: body) (rest : List Char) :
    splitStarSlash (body ++ '*' :: '/' :: rest) = (body ++ ['*', '/'], rest) := by
  induction body with
  | nil => simp [splitStarSlash]
  | cons c body ih =>
    have hBody : ¬ ['*', '/'] <:+: body := fun hInfix =>
      h (hInfix.trans (List.infix_cons (List.infix_refl _)))
    have hFirst : ¬ (c = '*' ∧ (body ++ '*' :: '/' :: rest).head? = some '/') := by
      rintro ⟨rfl, hHead⟩
      cases body with
      | nil => simp at hHead
      | cons d body =>
        obtain rfl : d = '/' := by simpa using hHead
        exact h ⟨[], body, rfl⟩
    have hIh := ih hBody
    cases hText : body ++ '*' :: '/' :: rest with
    | nil => simp at hText
    | cons d more =>
      rw [hText] at hIh hFirst
      have hSplit : ¬ (c = '*' ∧ d = '/') := by simpa using hFirst
      rw [List.cons_append, hText, splitStarSlash, if_neg hSplit, hIh]
      rfl

theorem splitStarSlash_open {cs : List Char} (h : ¬ ['*', '/'] <:+: cs) :
    splitStarSlash cs = (cs, []) := by
  fun_induction splitStarSlash cs with
  | case1 => rfl
  | case2 c => rfl
  | case3 c d cs hClose =>
    obtain ⟨rfl, rfl⟩ := hClose
    exact absurd ⟨[], cs, rfl⟩ h
  | case4 c d cs _ ih =>
    rw [ih fun hInfix => h (hInfix.trans (List.infix_cons (List.infix_refl _)))]
    rfl

/-- Where a text has a star with a slash behind it, there is a first one. -/
theorem exists_first_starSlash {cs : List Char} (h : ['*', '/'] <:+: cs) :
    ∃ body rest, cs = body ++ '*' :: '/' :: rest ∧ ¬ ['*', '/'] <:+: body := by
  induction cs with
  | nil => simp at h
  | cons c cs ih =>
    by_cases hFirst : ['*', '/'] <+: c :: cs
    · obtain ⟨rest, hRest⟩ := hFirst
      exact ⟨[], rest, by simpa using hRest.symm, by simp⟩
    · rcases List.infix_cons_iff.mp h with hHere | hLater
      · exact absurd hHere hFirst
      · obtain ⟨body, rest, rfl, hBody⟩ := ih hLater
        refine ⟨c :: body, rest, rfl, fun hInfix => ?_⟩
        rcases List.infix_cons_iff.mp hInfix with hHere | hLater
        · exact hFirst (hHere.trans ⟨'*' :: '/' :: rest, rfl⟩)
        · exact hBody hLater

/-! ### The lexer follows the grammar -/

theorem isIdentPart_of_isIdentStart {c : Char} (h : isIdentStart c = true) :
    isIdentPart c = true := by
  simp only [isIdentStart, Bool.or_eq_true] at h
  simp only [isIdentPart, Char.isAlphanum, Bool.or_eq_true]
  rcases h with h | h
  · exact .inl (.inl h)
  · exact .inr h

theorem not_isBlank_of_isIdentPart {c : Char} (h : isIdentPart c = true) : ¬ isBlank c = true := by
  intro hBlank
  simp only [isBlank, Bool.or_eq_true, decide_eq_true_eq] at hBlank
  rcases hBlank with ((rfl | rfl) | rfl) | rfl <;> exact absurd h (by decide)

theorem isIdentPart_of_isDigit {c : Char} (h : c.isDigit = true) : isIdentPart c = true := by
  simp [isIdentPart, Char.isAlphanum, h]

theorem not_isIdentStart_of_isDigit {c : Char} (h : c.isDigit = true) :
    ¬ isIdentStart c = true := by
  intro hStart
  simp only [isIdentStart, Bool.or_eq_true, decide_eq_true_eq] at hStart
  rcases hStart with hAlpha | rfl
  · have hDigit : 48 ≤ c.val ∧ c.val ≤ 57 := by simpa [Char.isDigit] using h
    -- A letter comes after every digit, in capitals or not.
    rcases (Bool.or_eq_true _ _).mp hAlpha with hUpper | hLower
    · have hLetter : 65 ≤ c.val ∧ c.val ≤ 90 := of_decide_eq_true hUpper
      exact absurd (UInt32.le_trans hLetter.1 hDigit.2) (by decide)
    · have hLetter : 97 ≤ c.val := of_decide_eq_true ((Bool.and_eq_true _ _).mp hLower).1
      exact absurd (UInt32.le_trans hLetter hDigit.2) (by decide)
  · exact absurd h (by decide)

theorem scan_word {c : Char} {cs rest : List Char} (hc : isIdentStart c = true)
    (hcs : cs.all isIdentPart = true) (h : EndsBefore isIdentPart rest) :
    scan c (cs ++ rest) = (.token (wordKind (String.ofList (c :: cs))), cs, rest) := by
  obtain ⟨hTake, hDrop⟩ := takeWhile_append_of_endsBefore hcs h
  unfold scan
  rw [if_neg (not_isBlank_of_isIdentPart (isIdentPart_of_isIdentStart hc)), if_pos hc, hTake, hDrop]

theorem scan_number {c : Char} {cs rest : List Char} (hc : c.isDigit = true)
    (hcs : cs.all Char.isDigit = true) (h : EndsBefore Char.isDigit rest) :
    scan c (cs ++ rest) = (.token .number, cs, rest) := by
  obtain ⟨hTake, hDrop⟩ := takeWhile_append_of_endsBefore hcs h
  have hBlank := not_isBlank_of_isIdentPart (isIdentPart_of_isDigit hc)
  unfold scan
  rw [if_neg hBlank, if_neg (not_isIdentStart_of_isDigit hc), if_pos hc, hTake, hDrop]

theorem scan_symbol {c : Char} {kind : TokenKind} {cs : List Char} (h : symbol? c = some kind)
    (hRest : EndsBefore kind.goesOn cs) : scan c cs = (.token kind, [], cs) := by
  have hOther : ¬ (isBlank c = true ∨ isIdentStart c = true ∨ c.isDigit = true ∨ c = '{') := by
    unfold symbol? at h
    split at h
    all_goals first | decide | cases h
  obtain ⟨hBlank, hStart, hDigit, hBrace⟩ : _ ∧ _ ∧ _ ∧ _ := by simpa using hOther
  unfold scan
  rw [if_neg (by simp [hBlank]), if_neg (by simp [hStart]), if_neg (by simp [hDigit]),
    if_neg hBrace]
  split
  · obtain rfl : TokenKind.slash = kind := Option.some.inj h
    exact absurd (hRest _ rfl) (by decide)
  · obtain rfl : TokenKind.slash = kind := Option.some.inj h
    exact absurd (hRest _ rfl) (by decide)
  · obtain rfl : TokenKind.colon = kind := Option.some.inj h
    exact absurd (hRest _ rfl) (by decide)
  · rw [h]

theorem keyword_spelling {kind : TokenKind} (hKind : kind ∈ TokenKind.keywords) {text : String}
    (h : kind.spelling? = some text) :
    text.toList.head?.any isIdentStart = true ∧ text.toList.all isIdentPart = true ∧
      wordKind text = kind := by
  have hAll : ∀ kind ∈ TokenKind.keywords, ∀ text ∈ kind.spelling?,
      text.toList.head?.any isIdentStart = true ∧ text.toList.all isIdentPart = true ∧
        wordKind text = kind := by decide
  exact hAll kind hKind text h

/-- A token that is spelled out is scanned as a whole, if what follows does not continue it. -/
theorem scan_token {kind : TokenKind} {c : Char} {cs rest : List Char}
    (h : kind.Spells (String.ofList (c :: cs))) (hRest : EndsBefore kind.goesOn rest) :
    scan c (cs ++ rest) = (.token kind, cs, rest) := by
  have hWord (hStart : (String.ofList (c :: cs)).toList.head?.any isIdentStart = true)
      (hPart : (String.ofList (c :: cs)).toList.all isIdentPart = true)
      (hKind : wordKind (String.ofList (c :: cs)) = kind) (hEnd : EndsBefore isIdentPart rest) :
      scan c (cs ++ rest) = (.token kind, cs, rest) := by
    rw [String.toList_ofList] at hStart hPart
    rw [List.all_cons, Bool.and_eq_true] at hPart
    rw [scan_word hStart hPart.2 hEnd, hKind]
  have hChars {text : String} (hText : some text = some (String.ofList (c :: cs))) :
      c :: cs = text.toList := by
    rw [Option.some.inj hText, String.toList_ofList]
  cases kind with
  | ident => exact hWord h.1 h.2.1 (by rw [wordKind, h.2.2]; rfl) hRest
  | number =>
    obtain ⟨-, hDigits⟩ := h
    rw [String.toList_ofList, List.all_cons, Bool.and_eq_true] at hDigits
    exact scan_number hDigits.1 hDigits.2 hRest
  | eof => cases h
  | becomes =>
    obtain ⟨rfl, rfl⟩ := List.cons.inj (hChars h)
    rfl
  | plus | minus | star | slash | lparen | rparen | comma | dot | colon | semicolon =>
    obtain ⟨rfl, rfl⟩ := List.cons.inj (hChars h)
    exact scan_symbol rfl hRest
  | _ =>
    obtain ⟨hStart, hPart, hKind⟩ := keyword_spelling (by decide) h
    exact hWord hStart hPart hKind hRest

theorem scan_slashSlash (cs : List Char) :
    scan '/' ('/' :: cs) =
      (.comment, ('/' :: cs).takeWhile (· ≠ '\n'), ('/' :: cs).dropWhile (· ≠ '\n')) := rfl

theorem scan_slashStar (cs : List Char) :
    scan '/' ('*' :: cs) = (.comment, (splitStarSlash cs).map ('*' :: ·) id) := rfl

theorem scan_brace (cs : List Char) : scan '{' cs = (.comment, splitBrace cs) := rfl

theorem scan_comment {c : Char} {cs rest : List Char} (h : IsComment (c :: cs) rest) :
    scan c (cs ++ rest) = (.comment, cs, rest) := by
  generalize hText : c :: cs = text at h
  cases h with
  | @line body _ hBody hRest =>
    obtain ⟨rfl, rfl⟩ := List.cons.inj hText
    have hAll : ('/' :: body).all (· ≠ '\n') = true := by
      simpa using fun c hc (hNewline : c = '\n') => hBody (hNewline ▸ hc)
    obtain ⟨hTake, hDrop⟩ := takeWhile_append_of_endsBefore hAll hRest
    rw [List.cons_append, scan_slashSlash, ← List.cons_append, hTake, hDrop]
  | @block body _ hBody =>
    obtain ⟨rfl, rfl⟩ := List.cons.inj hText
    rw [List.cons_append, scan_slashStar, List.append_assoc, List.cons_append, List.cons_append,
      List.nil_append, splitStarSlash_closed hBody]
    rfl
  | openBlock hBody =>
    obtain ⟨rfl, rfl⟩ := List.cons.inj hText
    rw [List.cons_append, scan_slashStar, List.append_nil, splitStarSlash_open hBody]
    rfl
  | brace hBody =>
    obtain ⟨rfl, rfl⟩ := List.cons.inj hText
    rw [scan_brace, List.append_assoc, List.cons_append, List.nil_append, splitBrace_closed hBody]
  | openBrace hBody =>
    obtain ⟨rfl, rfl⟩ := List.cons.inj hText
    rw [scan_brace, List.append_nil, splitBrace_open hBody]

/-- A piece that the grammar allows is what the lexer cuts off. -/
theorem scan_of_fits {kind : LexemeKind} {c : Char} {cs rest : List Char}
    (h : Fits kind (c :: cs) rest) : scan c (cs ++ rest) = (kind, cs, rest) := by
  cases kind with
  | token kind => exact scan_token h.1 h.2
  | blank =>
    obtain ⟨-, hBlank, hRest⟩ := h
    rw [List.all_cons, Bool.and_eq_true] at hBlank
    obtain ⟨hTake, hDrop⟩ := takeWhile_append_of_endsBefore hBlank.2 hRest
    unfold scan
    rw [if_pos hBlank.1, hTake, hDrop]
  | comment => exact scan_comment h
  | illegal =>
    obtain ⟨d, hText, hBlank, hPart, hSymbol⟩ := h
    obtain ⟨rfl, rfl⟩ := List.cons.inj hText
    have hDigit : ¬ c.isDigit = true := fun h => by simp [isIdentPart_of_isDigit h] at hPart
    have hStart : ¬ isIdentStart c = true := fun h => by
      simp [isIdentPart_of_isIdentStart h] at hPart
    have hBrace : c ≠ '{' := by
      rintro rfl
      exact absurd (by decide) hSymbol
    have hNone : symbol? c = none := by
      unfold symbol?
      split
      all_goals first | rfl | exact absurd (by decide) hSymbol
    unfold scan
    rw [if_neg (by simp [hBlank]), if_neg hStart, if_neg hDigit, if_neg hBrace]
    split
    · exact absurd (by decide) hSymbol
    · exact absurd (by decide) hSymbol
    · exact absurd (by decide) hSymbol
    · simp [hNone]

theorem fits_word {c : Char} {cs rest : List Char} (hc : isIdentStart c = true)
    (hcs : cs.all isIdentPart = true) (h : EndsBefore isIdentPart rest) :
    Fits (.token (wordKind (String.ofList (c :: cs)))) (c :: cs) rest := by
  cases hKeyword : TokenKind.keyword? (String.ofList (c :: cs)) with
  | none =>
    rw [wordKind, hKeyword]
    refine ⟨⟨?_, ?_, hKeyword⟩, h⟩
    · simpa using hc
    · simpa [isIdentPart_of_isIdentStart hc] using hcs
  | some kind =>
    rw [wordKind, hKeyword, Option.getD_some]
    have hMem : kind ∈ TokenKind.keywords := List.mem_of_find?_eq_some hKeyword
    have hSpelling : kind.spelling? = some (String.ofList (c :: cs)) := by
      simpa using List.find?_some hKeyword
    have hSpells : ∀ kind ∈ TokenKind.keywords, kind ≠ .ident ∧ kind ≠ .number := by decide
    have hGoesOn : ∀ kind ∈ TokenKind.keywords, kind ≠ .colon ∧ kind ≠ .slash := by decide
    constructor
    · unfold TokenKind.Spells
      split
      · exact absurd rfl (hSpells _ hMem).1
      · exact absurd rfl (hSpells _ hMem).2
      · exact hSpelling
    · intro d hd
      unfold TokenKind.goesOn
      split
      · exact h d hd
      · exact absurd rfl (hSpells _ hMem).2
      · exact absurd rfl (hGoesOn _ hMem).1
      · exact absurd rfl (hGoesOn _ hMem).2
      · rw [h d hd, Bool.and_false]

/-- A symbol stands alone unless it opens a comment or an assignment. -/
theorem fits_symbol {c : Char} {kind : TokenKind} {cs : List Char} (h : symbol? c = some kind)
    (hSlash : c = '/' → cs.head? ≠ some '/' ∧ cs.head? ≠ some '*')
    (hColon : c = ':' → cs.head? ≠ some '=') : Fits (.token kind) [c] cs := by
  have hSpells : ∀ kind, some kind = symbol? c → kind.Spells (String.ofList [c]) := by
    intro kind hKind
    unfold symbol? at hKind
    split at hKind <;> cases hKind <;> rfl
  refine ⟨hSpells kind h.symm, fun d hd => ?_⟩
  have hHead : cs.head? = some d := hd
  unfold symbol? at h
  split at h <;> cases h
  case h_4 =>
    obtain ⟨hNotSlash, hNotStar⟩ := hSlash rfl
    simp only [hHead, ne_eq, Option.some.injEq] at hNotSlash hNotStar
    simp [TokenKind.goesOn, hNotSlash, hNotStar]
  case h_5 =>
    have hNotEq := hColon rfl
    simp only [hHead, ne_eq, Option.some.injEq] at hNotEq
    simp [TokenKind.goesOn, hNotEq]
  all_goals rfl

theorem isComment_line (cs : List Char) :
    IsComment ('/' :: ('/' :: cs).takeWhile (· ≠ '\n')) (('/' :: cs).dropWhile (· ≠ '\n')) := by
  have hNewline : '\n' ∉ cs.takeWhile (· ≠ '\n') := fun hMem => by
    simpa using List.all_eq_true.mp List.all_takeWhile _ hMem
  exact .line hNewline (endsBefore_dropWhile _ _)

theorem isComment_block (cs : List Char) :
    IsComment ('/' :: '*' :: (splitStarSlash cs).1) (splitStarSlash cs).2 := by
  by_cases hClose : ['*', '/'] <:+: cs
  · obtain ⟨body, rest, rfl, hBody⟩ := exists_first_starSlash hClose
    rw [splitStarSlash_closed hBody]
    exact .block hBody
  · rw [splitStarSlash_open hClose]
    exact .openBlock hClose

theorem isComment_brace (cs : List Char) :
    IsComment ('{' :: (splitBrace cs).1) (splitBrace cs).2 := by
  by_cases hClose : '}' ∈ cs
  · obtain ⟨body, rest, rfl, hBody⟩ := List.eq_append_cons_of_mem hClose
    rw [splitBrace_closed hBody]
    exact .brace hBody
  · rw [splitBrace_open hClose]
    exact .openBrace hClose

/-- What the lexer cuts off is a piece that the grammar allows. -/
theorem fits_scan (c : Char) (cs : List Char) :
    Fits (scan c cs).1 (c :: (scan c cs).2.1) (scan c cs).2.2 := by
  unfold scan
  split
  · next hBlank =>
    refine ⟨List.cons_ne_nil _ _, ?_, endsBefore_dropWhile _ _⟩
    rw [List.all_cons, hBlank, List.all_takeWhile]
    rfl
  next hBlank =>
  split
  · next hStart => exact fits_word hStart List.all_takeWhile (endsBefore_dropWhile _ _)
  next hStart =>
  split
  · next hDigit =>
    refine ⟨⟨by simp, ?_⟩, endsBefore_dropWhile _ _⟩
    rw [String.toList_ofList, List.all_cons, hDigit, List.all_takeWhile]
    rfl
  next hDigit =>
  split
  · next hBrace =>
    subst hBrace
    exact isComment_brace cs
  next hBrace =>
  split
  · exact isComment_line _
  · exact isComment_block _
  · exact ⟨rfl, fun _ _ => rfl⟩
  · next hLine hBlock hBecomes =>
    split
    · next kind hKind =>
      refine fits_symbol hKind (fun hc => ⟨fun hHead => ?_, fun hHead => ?_⟩) fun hc hHead => ?_
      all_goals obtain ⟨rest, rfl⟩ := List.head?_eq_some_iff.mp hHead
      · exact hLine rest hc rfl
      · exact hBlock rest hc rfl
      · exact hBecomes rest hc rfl
    · next hNone =>
      refine ⟨c, rfl, by simpa using hBlank, ?_, fun hMem => ?_⟩
      · simp only [isIdentStart, Bool.or_eq_true, not_or] at hStart
        simp [isIdentPart, Char.isAlphanum, hStart, hDigit]
      · have hSymbols :
            ("+-*/:(),.;\x7b".toList.all fun d => d = '{' || (symbol? d).isSome) = true := by
          decide
        have hc := List.all_eq_true.mp hSymbols c hMem
        simp [hBrace, hNone] at hc

theorem spells_ne_nil {kind : TokenKind} {text : String} (h : kind.Spells text) :
    text.toList ≠ [] := by
  intro hNil
  have hSpelling : ∀ {spelling : String}, some spelling = some text → spelling.toList = [] :=
    fun hText => Option.some.inj hText ▸ hNil
  cases kind with
  | ident => simp [TokenKind.Spells, IsName, hNil] at h
  | number => exact h.1 hNil
  | eof => cases h
  | _ => exact absurd (hSpelling h) (by decide)

theorem Fits.ne_nil {kind : LexemeKind} {text rest : List Char} (h : Fits kind text rest) :
    text ≠ [] := by
  cases kind with
  | token kind => simpa using spells_ne_nil h.1
  | blank => exact h.1
  | comment => cases h <;> simp
  | illegal =>
    obtain ⟨c, rfl, -⟩ := h
    simp

/-- The lexer cuts a piece off just where the grammar allows it. -/
theorem scan_eq_iff {c : Char} {cs more rest : List Char} {kind : LexemeKind} :
    scan c cs = (kind, more, rest) ↔ cs = more ++ rest ∧ Fits kind (c :: more) rest := by
  constructor
  · intro h
    have hAppend := scan_append c cs
    have hFits := fits_scan c cs
    rw [h] at hAppend hFits
    exact ⟨hAppend.symm, hFits⟩
  · rintro ⟨rfl, hFits⟩
    exact scan_of_fits hFits

/-- A lexeme that fits in front of a text is the first of the text. -/
theorem lexemes_of_fits {kind : LexemeKind} {text rest : List Char} (h : Fits kind text rest) :
    lexemes (text ++ rest) = ⟨kind, text⟩ :: lexemes rest := by
  obtain ⟨c, cs, rfl⟩ := List.exists_cons_of_ne_nil h.ne_nil
  rw [List.cons_append, lexemes, scan_of_fits h]

/-- No token goes on with a blank. -/
theorem goesOn_of_isBlank {c : Char} (h : isBlank c = true) (kind : TokenKind) :
    kind.goesOn c = false := by
  simp only [isBlank, Bool.or_eq_true, decide_eq_true_eq] at h
  rcases h with ((rfl | rfl) | rfl) | rfl <;> cases kind <;> decide

end Lexer

end ChipPascal
