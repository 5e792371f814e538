import ChipPascal.Program.Parser

/-!
# The grammar of programs

For every phrase of the language, which lists of tokens are such a phrase and which tree stands for
it. Expressions come in levels, so that a tree also says how tightly operators bind and that they
associate to the left.
-/

namespace ChipPascal

def TokenKind.unaryOp? : TokenKind → Option UnaryOp
  | .plus => some .pos
  | .minus => some .neg
  | _ => none

def Token.ident (t : Token) : Ident := ⟨t.text, t.span⟩

namespace Grammar

/-! ### Lists of tokens -/

def lastSpan (before : Span) : List Token → Span
  | [] => before
  | t :: ts => lastSpan t.span ts

@[simp] theorem lastSpan_append (before : Span) (xs ys : List Token) :
    lastSpan before (xs ++ ys) = lastSpan (lastSpan before xs) ys := by
  induction xs generalizing before with
  | nil => rfl
  | cons x xs ih => exact ih x.span

def extent : List Token → Span
  | [] => .nowhere
  | t :: ts => t.span.cover (lastSpan t.span ts)

section Lists

variable {α : Type} (Item : List Token → α → Prop)

/-- One item or more, with a token of kind `sep` between one and the next. -/
inductive Separated (sep : TokenKind) : List Token → List α → Prop
  | one {ts : List Token} {a : α} : Item ts a → Separated sep ts [a]
  | more {t : Token} {ts rest : List Token} {a : α} {as : List α} :
      Item ts a → t.kind = sep → Separated sep rest as → Separated sep (ts ++ t :: rest) (a :: as)

inductive Repeated : List Token → List α → Prop
  | none : Repeated [] []
  | more {ts rest : List Token} {a : α} {as : List α} :
      Item ts a → Repeated rest as → Repeated (ts ++ rest) (a :: as)

inductive Optional (kind : TokenKind) : List Token → Prop
  | absent : Optional kind []
  | present {t : Token} : t.kind = kind → Optional kind [t]

end Lists

/-! ### Expressions -/

mutual

inductive IsExpr : List Token → Expr → Prop
  | term {ts : List Token} {e : Expr} : IsTerm ts e → IsExpr ts e
  | operation {t : Token} {op : BinaryOp} {ls rs : List Token} {left right : Expr} :
      IsExpr ls left → t.kind.binaryOp? = some op → op = .add ∨ op = .sub → IsTerm rs right →
      IsExpr (ls ++ t :: rs) (.binary op left right (left.span.cover right.span))

inductive IsTerm : List Token → Expr → Prop
  | unary {ts : List Token} {e : Expr} : IsUnary ts e → IsTerm ts e
  | operation {t : Token} {op : BinaryOp} {ls rs : List Token} {left right : Expr} :
      IsTerm ls left → t.kind.binaryOp? = some op → op = .mul ∨ op = .div → IsUnary rs right →
      IsTerm (ls ++ t :: rs) (.binary op left right (left.span.cover right.span))

inductive IsUnary : List Token → Expr → Prop
  | primary {ts : List Token} {e : Expr} : IsPrimary ts e → IsUnary ts e
  | sign {t : Token} {op : UnaryOp} {ts : List Token} {e : Expr} :
      t.kind.unaryOp? = some op → IsUnary ts e →
      IsUnary (t :: ts) (.unary op e (t.span.cover e.span))

/-- An expression in parentheses is the same tree as without them. -/
inductive IsPrimary : List Token → Expr → Prop
  | number {t : Token} : t.kind = .number → IsPrimary [t] (.int t.text t.span)
  | name {t : Token} : t.kind = .ident → IsPrimary [t] (.ref t.ident)
  | parens {o c : Token} {ts : List Token} {e : Expr} :
      o.kind = .lparen → IsExpr ts e → c.kind = .rparen → IsPrimary (o :: (ts ++ [c])) e

end

/-! ### Statements -/

/-- The statement ends in an `if` that an `else` could still be added to. -/
def EndsOpen : Stmt → Prop
  | .block .. | .assign .. | .call .. => False
  | .ifThen .. => True
  | .ifElse _ _ no _ => EndsOpen no

inductive IsArguments : List Token → List Expr → Prop
  | absent : IsArguments [] []
  | empty {o c : Token} : o.kind = .lparen → c.kind = .rparen → IsArguments [o, c] []
  | some {o c : Token} {ts : List Token} {args : List Expr} :
      o.kind = .lparen → Separated IsExpr .comma ts args → c.kind = .rparen →
      IsArguments (o :: (ts ++ [c])) args

mutual

/-- An `else` belongs to the nearest `if` before it: what stands between `then` and `else` does
not end in an `if` of its own that has none. -/
inductive IsStmt : List Token → Stmt → Prop
  | block {ts : List Token} {block : Block} :
      IsBlock ts block → IsStmt ts (.block block.stmts block.span)
  | assign {t a : Token} {ts : List Token} {e : Expr} :
      t.kind = .ident → a.kind = .becomes → IsExpr ts e → IsStmt (t :: a :: ts) (.assign t.ident e)
  | call {t : Token} {ts : List Token} {args : List Expr} :
      t.kind = .ident → IsArguments ts args → IsStmt (t :: ts) (.call t.ident args)
  | ifThen {i th : Token} {cs ys : List Token} {cond : Expr} {yes : Stmt} :
      i.kind = .ifKw → IsExpr cs cond → th.kind = .thenKw → IsStmt ys yes →
      IsStmt (i :: (cs ++ th :: ys)) (.ifThen cond yes (extent (i :: (cs ++ th :: ys))))
  | ifElse {i th el : Token} {cs ys ns : List Token} {cond : Expr} {yes no : Stmt} :
      i.kind = .ifKw → IsExpr cs cond → th.kind = .thenKw → IsStmt ys yes → ¬ EndsOpen yes →
      el.kind = .elseKw → IsStmt ns no →
      IsStmt (i :: (cs ++ th :: (ys ++ el :: ns)))
        (.ifElse cond yes no (extent (i :: (cs ++ th :: (ys ++ el :: ns)))))

/-- What stands between `begin` and `end`: a semicolon may only follow a statement. -/
inductive IsBody : List Token → List Stmt → Prop
  | empty : IsBody [] []
  | stmts {ts last : List Token} {stmts : List Stmt} :
      Separated IsStmt .semicolon ts stmts → Optional .semicolon last → IsBody (ts ++ last) stmts

inductive IsBlock : List Token → Block → Prop
  | compound {b e : Token} {ts : List Token} {stmts : List Stmt} :
      b.kind = .beginKw → IsBody ts stmts → e.kind = .endKw →
      IsBlock (b :: (ts ++ [e])) ⟨stmts, extent (b :: (ts ++ [e]))⟩

end

/-! ### Declarations -/

inductive IsTyped (isConst : Bool) : List Token → VarDecl → Prop
  | typed {n c type : Token} : n.kind = .ident → c.kind = .colon → type.kind = .ident →
      IsTyped isConst [n, c, type] ⟨n.ident, type.ident, isConst⟩

inductive IsVarDecl (isConst : Bool) : List Token → VarDecl → Prop
  | ended {s : Token} {ts : List Token} {decl : VarDecl} :
      IsTyped isConst ts decl → s.kind = .semicolon → IsVarDecl isConst (ts ++ [s]) decl

/-- The word that opens a section says whether its names can be assigned to. -/
inductive IsSection : List Token → List VarDecl → Prop
  | vars {k : Token} {ts : List Token} {decls : List VarDecl} :
      k.kind = .varKw → Repeated (IsVarDecl false) ts decls → decls ≠ [] → IsSection (k :: ts) decls
  | consts {k : Token} {ts : List Token} {decls : List VarDecl} :
      k.kind = .constKw → Repeated (IsVarDecl true) ts decls → decls ≠ [] →
      IsSection (k :: ts) decls

inductive IsParamList : List Token → List VarDecl → Prop
  | absent : IsParamList [] []
  | empty {o c : Token} : o.kind = .lparen → c.kind = .rparen → IsParamList [o, c] []
  | some {o c : Token} {ts : List Token} {params : List VarDecl} :
      o.kind = .lparen → Separated (IsTyped false) .semicolon ts params → c.kind = .rparen →
      IsParamList (o :: (ts ++ [c])) params

inductive IsProc : List Token → ProcDecl → Prop
  | proc {p n s : Token} {ps ls bs last : List Token} {params : List VarDecl}
      {sections : List (List VarDecl)} {body : Block} :
      p.kind = .procedureKw → n.kind = .ident → IsParamList ps params → s.kind = .semicolon →
      Repeated IsSection ls sections → IsBlock bs body → Optional .semicolon last →
      IsProc (p :: n :: (ps ++ s :: (ls ++ (bs ++ last)))) ⟨n.ident, params, sections.flatten, body⟩

/-- A section declares several variables, each on its own. -/
inductive IsDecl : List Token → List Decl → Prop
  | vars {ts : List Token} {decls : List VarDecl} : IsSection ts decls → IsDecl ts (decls.map .var)
  | proc {ts : List Token} {proc : ProcDecl} : IsProc ts proc → IsDecl ts [.proc proc]

/-- A program without a header has the name that is kept for this. -/
inductive IsHeader : List Token → Ident → Prop
  | absent : IsHeader [] Cursor.defaultName
  | named {p n s : Token} : p.kind = .programKw → n.kind = .ident → s.kind = .semicolon →
      IsHeader [p, n, s] n.ident

inductive IsProgram : List Token → Program → Prop
  | program {d : Token} {hs ds bs : List Token} {name : Ident} {decls : List (List Decl)}
      {body : Block} :
      IsHeader hs name → Repeated IsDecl ds decls → IsBlock bs body → d.kind = .dot →
      IsProgram (hs ++ (ds ++ (bs ++ [d]))) ⟨name, decls.flatten, body⟩

/-! ### Facts about phrases -/

theorem IsBody.cons {t : Token} {ts rest : List Token} {stmt : Stmt} {stmts : List Stmt}
    (hStmt : IsStmt ts stmt) (ht : t.kind = .semicolon) (hRest : IsBody rest stmts) :
    IsBody (ts ++ t :: rest) (stmt :: stmts) := by
  cases hRest with
  | empty => exact .stmts (.one hStmt) (.present ht)
  | @stmts us last _ hStmts hLast =>
    have h : ts ++ t :: (us ++ last) = (ts ++ t :: us) ++ last := by simp
    rw [h]
    exact .stmts (.more hStmt ht hStmts) hLast

/-- The semicolon behind the last statement may be left out. -/
theorem IsBody.one {ts : List Token} {stmt : Stmt} (h : IsStmt ts stmt) : IsBody ts [stmt] := by
  have hAbsent : Optional .semicolon [] := .absent
  have hBody := IsBody.stmts (.one h) hAbsent
  rwa [List.append_nil] at hBody

end Grammar

end ChipPascal
