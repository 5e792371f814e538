import ChipPascal.Proofs.ParserCompleteness
import ChipPascal.Proofs.SourceTiling

/-!
# Printing programs

A program is printed as words with one blank between them. Parentheses stand only where the tree
could not be told from the words without them: an operand of a sign that is an operation, a left
operand that binds less tightly than its operator, and a right operand that does not bind more
tightly.

The lexer finds the words again, each as a token of its kind.
-/

namespace ChipPascal

/-! ### Words -/

structure Word where
  kind : TokenKind
  text : String
deriving DecidableEq, Repr

namespace Word

def fixed (kind : TokenKind) : Word := ⟨kind, kind.spelling?.getD ""⟩

def name (n : Ident) : Word := ⟨.ident, n.name⟩

def number (text : String) : Word := ⟨.number, text⟩

def joined (sep : TokenKind) : List (List Word) → List Word
  | [] => []
  | [ws] => ws
  | ws :: rest => ws ++ fixed sep :: joined sep rest

def enclosed (needed : Bool) (ws : List Word) : List Word :=
  if needed then fixed .lparen :: (ws ++ [fixed .rparen]) else ws

/-- Lists of words between one pair of parentheses, which are left out around nothing. -/
def listed (sep : TokenKind) (items : List (List Word)) : List Word :=
  enclosed (!items.isEmpty) (joined sep items)

end Word

open Word

def UnaryOp.kind : UnaryOp → TokenKind
  | neg => .minus
  | pos => .plus

def BinaryOp.kind : BinaryOp → TokenKind
  | add => .plus
  | sub => .minus
  | mul => .star
  | div => .slash

namespace Expr

def isBinary : Expr → Bool
  | binary .. => true
  | _ => false

def bindsBelow (least : Nat) : Expr → Bool
  | binary op .. => op.precedence < least
  | _ => false

def words : Expr → List Word
  | ref name => [.name name]
  | int text _ => [.number text]
  | unary op operand _ => fixed op.kind :: enclosed operand.isBinary operand.words
  | binary op left right _ =>
    enclosed (left.bindsBelow op.precedence) left.words
      ++ fixed op.kind :: enclosed (right.bindsBelow (op.precedence + 1)) right.words

end Expr

mutual

def Stmt.words : Stmt → List Word
  | .block stmts _ => fixed .beginKw :: (joined .semicolon (eachStmtWords stmts) ++ [fixed .endKw])
  | .assign target value => .name target :: fixed .becomes :: value.words
  | .call name args => .name name :: listed .comma (args.map (·.words))
  | .ifThen cond yes _ => fixed .ifKw :: (cond.words ++ fixed .thenKw :: yes.words)
  | .ifElse cond yes no _ =>
    fixed .ifKw :: (cond.words ++ fixed .thenKw :: (yes.words ++ fixed .elseKw :: no.words))

def eachStmtWords : List Stmt → List (List Word)
  | [] => []
  | stmt :: stmts => stmt.words :: eachStmtWords stmts

end

def Block.words (block : Block) : List Word :=
  fixed .beginKw :: (joined .semicolon (block.stmts.map (·.words)) ++ [fixed .endKw])

namespace VarDecl

def words (decl : VarDecl) : List Word := [.name decl.name, fixed .colon, .name decl.type]

def sectionWords (decl : VarDecl) : List Word :=
  fixed (if decl.isConst then .constKw else .varKw) :: (decl.words ++ [fixed .semicolon])

end VarDecl

def ProcDecl.words (proc : ProcDecl) : List Word :=
  fixed .procedureKw :: .name proc.name :: (listed .semicolon (proc.params.map (·.words))
    ++ fixed .semicolon :: (proc.locals.flatMap (·.sectionWords)
      ++ (proc.body.words ++ [fixed .semicolon])))

def Decl.words : Decl → List Word
  | .var decl => decl.sectionWords
  | .proc decl => decl.words

namespace Program

def words (program : Program) : List Word :=
  [fixed .programKw, .name program.name, fixed .semicolon]
    ++ (program.decls.flatMap (·.words) ++ (program.body.words ++ [fixed .dot]))

def text (program : Program) : String := String.intercalate " " (program.words.map (·.text))

end Program

/-! ### Trees that can be printed -/

def Expr.Printable : Expr → Prop
  | .ref name => IsName name.name
  | .int text _ => IsNumeral text
  | .unary _ operand _ => operand.Printable
  | .binary _ left right _ => left.Printable ∧ right.Printable

mutual

/-- Before an `else` stands no statement to which the `else` could belong. -/
def Stmt.Printable : Stmt → Prop
  | .block stmts _ => StmtsPrintable stmts
  | .assign target value => IsName target.name ∧ value.Printable
  | .call name args => IsName name.name ∧ ∀ arg ∈ args, arg.Printable
  | .ifThen cond yes _ => cond.Printable ∧ yes.Printable
  | .ifElse cond yes no _ =>
    cond.Printable ∧ yes.Printable ∧ ¬ Grammar.EndsOpen yes ∧ no.Printable

def StmtsPrintable : List Stmt → Prop
  | [] => True
  | stmt :: stmts => stmt.Printable ∧ StmtsPrintable stmts

end

def VarDecl.Printable (decl : VarDecl) : Prop := IsName decl.name.name ∧ IsName decl.type.name

/-- There is no word for a constant parameter. -/
structure ProcDecl.Printable (proc : ProcDecl) : Prop where
  name : IsName proc.name.name
  params : ∀ param ∈ proc.params, param.Printable ∧ param.isConst = false
  locals : ∀ decl ∈ proc.locals, decl.Printable
  body : StmtsPrintable proc.body.stmts

def Decl.Printable : Decl → Prop
  | .var decl => decl.Printable
  | .proc decl => decl.Printable

structure Program.Printable (program : Program) : Prop where
  name : IsName program.name.name
  decls : ∀ decl ∈ program.decls, decl.Printable
  body : StmtsPrintable program.body.stmts

theorem eachStmtWords_eq (stmts : List Stmt) : eachStmtWords stmts = stmts.map (·.words) := by
  induction stmts with
  | nil => rfl
  | cons stmt stmts ih => simp [eachStmtWords, ih]

theorem Stmt.words_block (stmts : List Stmt) (span : Span) :
    (Stmt.block stmts span).words = (Block.mk stmts span).words := by
  simp [Stmt.words, Block.words, eachStmtWords_eq]

/-! ### Words of a text -/

/-- A word ends at `rest`: nothing comes, or a blank does. -/
def AtBreak (rest : List Char) : Prop := rest = [] ∨ ∃ more, rest = ' ' :: more

/-- The lexer takes the whole word, and reads it as what it is. -/
def Word.Scans (w : Word) : Prop :=
  ∃ c cs, w.text.toList = c :: cs ∧
    ∀ rest, AtBreak rest → Lexer.scan c (cs ++ rest) = (.token w.kind, cs, rest)

/-- A word that is spelled as its kind asks is scanned as that kind. -/
theorem scans_of_spells {w : Word} (h : w.kind.Spells w.text) : w.Scans := by
  obtain ⟨c, cs, hText⟩ := List.exists_cons_of_ne_nil (Lexer.spells_ne_nil h)
  rw [← String.ofList_toList (s := w.text), hText] at h
  refine ⟨c, cs, hText, fun rest hRest => Lexer.scan_token h fun d hd => ?_⟩
  rcases hRest with rfl | ⟨more, rfl⟩
  · cases hd
  · cases hd
    exact Lexer.goesOn_of_isBlank rfl _

theorem IsName.scans {n : Ident} (h : IsName n.name) : (Word.name n).Scans := scans_of_spells h

theorem IsNumeral.scans {text : String} (h : IsNumeral text) : (Word.number text).Scans :=
  scans_of_spells h

theorem scans_fixed {kind : TokenKind} (h : kind.spelling?.isSome = true) : (fixed kind).Scans := by
  apply scans_of_spells
  cases kind with
  | ident | number | eof => cases h
  | _ => rfl

/-! ### Lexing words with blanks between them -/

def Token.word (t : Token) : Word := ⟨t.kind, t.text⟩

namespace Lexer

def word? : Lexeme → Option Word
  | ⟨.token kind, text⟩ => some ⟨kind, String.ofList text⟩
  | _ => none

/-- The words of `ls` are `ws`, and every character of `ls` belongs to something. -/
structure Reads (ls : List Lexeme) (ws : List Word) : Prop where
  words : ls.filterMap word? = ws
  legal : ∀ l ∈ ls, l.kind ≠ .illegal

/-- A word is scanned as a whole if a break follows. -/
theorem lexemes_word {w : Word} {rest : List Char} (h : w.Scans) (hRest : AtBreak rest) :
    lexemes (w.text.toList ++ rest) = ⟨.token w.kind, w.text.toList⟩ :: lexemes rest := by
  obtain ⟨c, cs, hText, hScan⟩ := h
  rw [hText, List.cons_append, lexemes, hScan rest hRest]

/-- A blank before a word is a lexeme of its own. -/
theorem lexemes_blank {w : Word} (h : w.Scans) (rest : List Char) :
    lexemes (' ' :: (w.text.toList ++ rest)) =
      ⟨.blank, [' ']⟩ :: lexemes (w.text.toList ++ rest) := by
  obtain ⟨c, cs, hText, hScan⟩ := h
  have hc : isBlank c = false := by
    rw [← Bool.not_eq_true]
    intro hBlank
    have hToken := hScan [] (.inl rfl)
    unfold scan at hToken
    rw [if_pos hBlank] at hToken
    cases hToken
  have hSpace : scan ' ' (c :: (cs ++ rest)) = (.blank, [], c :: (cs ++ rest)) := by
    unfold scan
    rw [if_pos (by decide), List.takeWhile_cons_of_neg (by simp [hc]),
      List.dropWhile_cons_of_neg (by simp [hc])]
  rw [hText, List.cons_append, lexemes, hSpace]

theorem Reads.cons_word {ls : List Lexeme} {ws : List Word} (h : Reads ls ws) (w : Word) :
    Reads (⟨.token w.kind, w.text.toList⟩ :: ls) (w :: ws) := by
  constructor
  · have hWord : word? ⟨.token w.kind, w.text.toList⟩ = some w := by simp [word?]
    rw [List.filterMap_cons_some hWord, h.words]
  · intro l hl
    rcases List.mem_cons.mp hl with rfl | hl
    · simp
    · exact h.legal l hl

theorem Reads.cons_blank {ls : List Lexeme} {ws : List Word} (h : Reads ls ws) (text : List Char) :
    Reads (⟨.blank, text⟩ :: ls) ws := by
  constructor
  · rw [List.filterMap_cons_none rfl, h.words]
  · intro l hl
    rcases List.mem_cons.mp hl with rfl | hl
    · simp
    · exact h.legal l hl

def spaced (ws : List Word) : List Char := [' '].intercalate (ws.map fun w => w.text.toList)

theorem spaced_cons_cons (w w' : Word) (ws : List Word) :
    spaced (w :: w' :: ws) = w.text.toList ++ ' ' :: spaced (w' :: ws) := by
  simp [spaced, List.intercalate_cons_cons]

theorem exists_spaced_cons (w : Word) (ws : List Word) :
    ∃ rest, spaced (w :: ws) = w.text.toList ++ rest := by
  cases ws with
  | nil => exact ⟨[], by simp [spaced]⟩
  | cons w' ws => exact ⟨_, spaced_cons_cons w w' ws⟩

/-- Words with blanks between them are scanned one by one. -/
theorem reads_spaced {ws : List Word} (h : ∀ w ∈ ws, w.Scans) : Reads (lexemes (spaced ws)) ws := by
  induction ws with
  | nil =>
    have hNone : lexemes (spaced []) = [] := by simp [spaced, lexemes]
    rw [hNone]
    exact ⟨rfl, by simp⟩
  | cons w ws ih =>
    have hw := h w List.mem_cons_self
    have hRest := ih fun w' hw' => h w' (List.mem_cons_of_mem w hw')
    cases ws with
    | nil =>
      have hOne : spaced [w] = w.text.toList ++ spaced [] := by simp [spaced]
      rw [hOne, lexemes_word hw (.inl (by simp [spaced]))]
      exact hRest.cons_word w
    | cons w' ws =>
      obtain ⟨rest, hText⟩ := exists_spaced_cons w' ws
      have hBlank := lexemes_blank (h w' (by simp)) rest
      rw [← hText] at hBlank
      rw [spaced_cons_cons, lexemes_word hw (.inr ⟨_, rfl⟩), hBlank]
      exact (hRest.cons_blank _).cons_word w

/-- Placing lexemes changes none of their words. -/
theorem map_word_place (start : Nat) (ls : List Lexeme) :
    ((place start ls).filterMap token?).map Token.word = ls.filterMap word? := by
  induction ls generalizing start with
  | nil => rfl
  | cons l ls ih =>
    obtain ⟨kind, text⟩ := l
    cases kind <;> simp [place, List.filterMap_cons, token?, word?, Token.word, ih]

theorem filterMap_error?_place {ls : List Lexeme} (h : ∀ l ∈ ls, l.kind ≠ .illegal) (start : Nat) :
    (place start ls).filterMap error? = [] := by
  apply List.filterMap_eq_nil_iff.mpr
  rintro ⟨⟨kind, text⟩, span⟩ hMem
  have hKind := h _ (mem_of_mem_place hMem)
  cases kind with
  | illegal => exact absurd rfl hKind
  | _ => rfl

end Lexer

/-- The text of words has these words for its tokens, and nothing illegal. -/
theorem tokenize_words {ws : List Word} (h : ∀ w ∈ ws, w.Scans) :
    (tokenize (String.intercalate " " (ws.map (·.text)))).list.map Token.word = ws ∧
      (tokenize (String.intercalate " " (ws.map (·.text)))).errors = [] := by
  have hReads := Lexer.reads_spaced h
  have hText : (String.intercalate " " (ws.map (·.text))).toList = Lexer.spaced ws := by
    rw [String.toList_intercalate, List.map_map]
    rfl
  unfold tokenize
  rw [hText]
  exact ⟨(Lexer.map_word_place 0 _).trans hReads.words,
    Lexer.filterMap_error?_place hReads.legal 0⟩

/-! ### The words of a program -/

def AllScan (ws : List Word) : Prop := ∀ w ∈ ws, w.Scans

theorem allScan_nil : AllScan [] := by simp [AllScan]

theorem AllScan.cons {w : Word} {ws : List Word} (hw : w.Scans) (hws : AllScan ws) :
    AllScan (w :: ws) :=
  List.forall_mem_cons.mpr ⟨hw, hws⟩

theorem AllScan.append {ws ws' : List Word} (h : AllScan ws) (h' : AllScan ws') :
    AllScan (ws ++ ws') :=
  List.forall_mem_append.mpr ⟨h, h'⟩

theorem AllScan.enclosed {ws : List Word} (h : AllScan ws) (needed : Bool) :
    AllScan (enclosed needed ws) := by
  unfold Word.enclosed
  split
  · exact .cons (scans_fixed rfl) (h.append (.cons (scans_fixed rfl) allScan_nil))
  · exact h

theorem AllScan.flatMap {α : Type} {items : List α} {f : α → List Word}
    (h : ∀ item ∈ items, AllScan (f item)) : AllScan (items.flatMap f) := by
  intro w hw
  obtain ⟨item, hItem, hw⟩ := List.mem_flatMap.mp hw
  exact h item hItem w hw

theorem AllScan.joined {α : Type} {items : List α} {f : α → List Word} {sep : TokenKind}
    (hSep : sep.spelling?.isSome = true) (h : ∀ item ∈ items, AllScan (f item)) :
    AllScan (joined sep (items.map f)) := by
  induction items with
  | nil => exact allScan_nil
  | cons item items ih =>
    have hItem := h item List.mem_cons_self
    cases items with
    | nil => exact hItem
    | cons next items =>
      exact hItem.append (.cons (scans_fixed hSep) (ih fun i hi => h i (List.mem_cons_of_mem _ hi)))

theorem AllScan.listed {α : Type} {items : List α} {f : α → List Word} {sep : TokenKind}
    (hSep : sep.spelling?.isSome = true) (h : ∀ item ∈ items, AllScan (f item)) :
    AllScan (listed sep (items.map f)) :=
  (AllScan.joined hSep h).enclosed _

theorem Expr.Printable.allScan {e : Expr} (h : e.Printable) : AllScan e.words := by
  induction e with
  | ref name => exact .cons (IsName.scans h) allScan_nil
  | int text span => exact .cons (IsNumeral.scans h) allScan_nil
  | unary op operand span ih =>
    exact .cons (scans_fixed (by cases op <;> rfl)) ((ih h).enclosed _)
  | binary op left right span ihl ihr =>
    exact ((ihl h.1).enclosed _).append
      (.cons (scans_fixed (by cases op <;> rfl)) ((ihr h.2).enclosed _))

theorem allScan_block {block : Block} (h : ∀ stmt ∈ block.stmts, AllScan stmt.words) :
    AllScan block.words :=
  .cons (scans_fixed rfl) ((AllScan.joined rfl h).append (.cons (scans_fixed rfl) allScan_nil))

mutual

theorem Stmt.Printable.allScan {stmt : Stmt} (h : stmt.Printable) : AllScan stmt.words := by
  cases stmt with
  | block stmts span =>
    rw [Stmt.words_block]
    exact allScan_block (StmtsPrintable.allScan h)
  | assign target value => exact .cons h.1.scans (.cons (scans_fixed rfl) h.2.allScan)
  | call name args => exact .cons h.1.scans (.listed rfl fun arg hArg => (h.2 arg hArg).allScan)
  | ifThen cond yes span =>
    exact .cons (scans_fixed rfl) (h.1.allScan.append (.cons (scans_fixed rfl) h.2.allScan))
  | ifElse cond yes no span =>
    exact .cons (scans_fixed rfl) (h.1.allScan.append (.cons (scans_fixed rfl)
      (h.2.1.allScan.append (.cons (scans_fixed rfl) h.2.2.2.allScan))))

theorem StmtsPrintable.allScan {stmts : List Stmt} (h : StmtsPrintable stmts) :
    ∀ stmt ∈ stmts, AllScan stmt.words := by
  cases stmts with
  | nil => simp
  | cons stmt stmts =>
    exact List.forall_mem_cons.mpr ⟨Stmt.Printable.allScan h.1, StmtsPrintable.allScan h.2⟩

end

theorem VarDecl.Printable.allScan {decl : VarDecl} (h : decl.Printable) : AllScan decl.words :=
  .cons h.1.scans (.cons (scans_fixed rfl) (.cons h.2.scans allScan_nil))

theorem VarDecl.Printable.allScan_section {decl : VarDecl} (h : decl.Printable) :
    AllScan decl.sectionWords :=
  .cons (scans_fixed (by split <;> rfl)) (h.allScan.append (.cons (scans_fixed rfl) allScan_nil))

theorem ProcDecl.Printable.allScan {proc : ProcDecl} (h : proc.Printable) : AllScan proc.words := by
  have hParams : AllScan (listed .semicolon (proc.params.map (·.words))) :=
    .listed rfl fun param hParam => (h.params param hParam).1.allScan
  have hLocals := AllScan.flatMap fun decl hDecl => (h.locals decl hDecl).allScan_section
  have hBody := allScan_block h.body.allScan
  exact .cons (scans_fixed rfl) (.cons h.name.scans (hParams.append (.cons (scans_fixed rfl)
    (hLocals.append (hBody.append (.cons (scans_fixed rfl) allScan_nil))))))

theorem Decl.Printable.allScan {decl : Decl} (h : decl.Printable) : AllScan decl.words := by
  cases decl with
  | var decl => exact VarDecl.Printable.allScan_section h
  | proc proc => exact ProcDecl.Printable.allScan h

/-- All words of a printed program are scanned as they are meant. -/
theorem Program.Printable.allScan {program : Program} (h : program.Printable) :
    AllScan program.words := by
  have hDecls := AllScan.flatMap fun decl hDecl => (h.decls decl hDecl).allScan
  have hBody := allScan_block h.body.allScan
  exact .cons (scans_fixed rfl) (.cons h.name.scans (.cons (scans_fixed rfl)
    (hDecls.append (hBody.append (.cons (scans_fixed rfl) allScan_nil)))))

end ChipPascal
