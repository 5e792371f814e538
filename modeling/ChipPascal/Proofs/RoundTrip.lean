import ChipPascal.Proofs.Printing

/-!
# Reading a printed program back

Tokens that spell the words of a tree are a phrase of the grammar, and the tree of this phrase is
the one that was printed, but for the places of its parts. Main statement: the text of a printed
program is read without errors, and gives the program back.
-/

namespace ChipPascal

open Grammar Word

/-! ### Trees without places -/

def Ident.bare (n : Ident) : Ident := ⟨n.name, .nowhere⟩

def Expr.bare : Expr → Expr
  | .ref name => .ref name.bare
  | .int text _ => .int text .nowhere
  | .unary op operand _ => .unary op operand.bare .nowhere
  | .binary op left right _ => .binary op left.bare right.bare .nowhere

mutual

def Stmt.bare : Stmt → Stmt
  | .block stmts _ => .block (stmtsBare stmts) .nowhere
  | .assign target value => .assign target.bare value.bare
  | .call name args => .call name.bare (args.map (·.bare))
  | .ifThen cond yes _ => .ifThen cond.bare yes.bare .nowhere
  | .ifElse cond yes no _ => .ifElse cond.bare yes.bare no.bare .nowhere

def stmtsBare : List Stmt → List Stmt
  | [] => []
  | stmt :: stmts => stmt.bare :: stmtsBare stmts

end

def Block.bare (block : Block) : Block := ⟨stmtsBare block.stmts, .nowhere⟩

def VarDecl.bare (decl : VarDecl) : VarDecl := ⟨decl.name.bare, decl.type.bare, decl.isConst⟩

def ProcDecl.bare (proc : ProcDecl) : ProcDecl :=
  ⟨proc.name.bare, proc.params.map (·.bare), proc.locals.map (·.bare), proc.body.bare⟩

def Decl.bare : Decl → Decl
  | .var decl => .var decl.bare
  | .proc decl => .proc decl.bare

def Program.bare (program : Program) : Program :=
  ⟨program.name.bare, program.decls.map (·.bare), program.body.bare⟩

theorem stmtsBare_eq (stmts : List Stmt) : stmtsBare stmts = stmts.map (·.bare) := by
  induction stmts with
  | nil => rfl
  | cons stmt stmts ih => simp [stmtsBare, ih]

/-- Whether an `else` could follow does not depend on places. -/
theorem endsOpen_bare (stmt : Stmt) : EndsOpen stmt.bare ↔ EndsOpen stmt := by
  match stmt with
  | .block .. | .assign .. | .call .. => simp [Stmt.bare, EndsOpen]
  | .ifThen .. => simp [Stmt.bare, EndsOpen]
  | .ifElse _ _ no _ => simpa [Stmt.bare, EndsOpen] using endsOpen_bare no

/-! ### Tokens that spell words -/

def Spells (ts : List Token) (ws : List Word) : Prop := ts.map Token.word = ws

theorem Spells.cons {ts : List Token} {w : Word} {ws : List Word} (h : Spells ts (w :: ws)) :
    ∃ t ts', ts = t :: ts' ∧ t.word = w ∧ Spells ts' ws := by
  obtain ⟨t, ts', rfl, ht, hts⟩ := List.map_eq_cons_iff.mp h
  exact ⟨t, ts', rfl, ht, hts⟩

theorem Spells.split {ts : List Token} {ws ws' : List Word} (h : Spells ts (ws ++ ws')) :
    ∃ us vs, ts = us ++ vs ∧ Spells us ws ∧ Spells vs ws' := by
  obtain ⟨us, vs, rfl, hus, hvs⟩ := List.map_eq_append_iff.mp h
  exact ⟨us, vs, rfl, hus, hvs⟩

theorem Spells.one {ts : List Token} {w : Word} (h : Spells ts [w]) :
    ∃ t, ts = [t] ∧ t.word = w := by
  obtain ⟨t, ts', rfl, ht, hts⟩ := h.cons
  exact ⟨t, by rw [List.map_eq_nil_iff.mp hts], ht⟩

theorem kind_of_word {t : Token} {w : Word} (h : t.word = w) : t.kind = w.kind :=
  congrArg Word.kind h

theorem bare_of_word {t : Token} {n : Ident} (h : t.word = .name n) : t.ident.bare = n.bare := by
  have hText : t.text = n.name := congrArg Word.text h
  simp [Token.ident, Ident.bare, hText]

section Lists

variable {α β γ : Type} {items : List α} {f : α → List Word} {g : α → γ} {h : β → γ}
  {Item : List Token → β → Prop} {ts : List Token}

/-- Every item is read as one that looks the same. -/
def ReadAs (items : List α) (f : α → List Word) (g : α → γ) (h : β → γ)
    (Item : List Token → β → Prop) : Prop :=
  ∀ a ∈ items, ∀ ts, Spells ts (f a) → ∃ b, h b = g a ∧ Item ts b

/-- Items with separators between them are read one by one. -/
theorem ReadAs.separated {sep : TokenKind} (hItems : ReadAs items f g h Item) (hSome : items ≠ [])
    (hts : Spells ts (joined sep (items.map f))) :
    ∃ bs, bs.map h = items.map g ∧ Separated Item sep ts bs := by
  induction items generalizing ts with
  | nil => exact absurd rfl hSome
  | cons a items ih =>
    cases items with
    | nil =>
      obtain ⟨b, hb, hItem⟩ := hItems a (by simp) ts hts
      exact ⟨[b], by simp [hb], .one hItem⟩
    | cons a' items =>
      obtain ⟨us, vs, rfl, hus, hvs⟩ := Spells.split hts
      obtain ⟨t, vs, rfl, ht, hvs⟩ := hvs.cons
      obtain ⟨b, hb, hItem⟩ := hItems a (by simp) us hus
      obtain ⟨bs, hbs, hRest⟩ := ih (fun a ha => hItems a (List.mem_cons_of_mem _ ha)) (by simp) hvs
      exact ⟨b :: bs, by simp [hb, hbs], .more hItem (kind_of_word ht) hRest⟩

theorem ReadAs.repeated (hItems : ReadAs items f g h Item) (hts : Spells ts (items.flatMap f)) :
    ∃ bs, bs.map h = items.map g ∧ Repeated Item ts bs := by
  induction items generalizing ts with
  | nil =>
    obtain rfl := List.map_eq_nil_iff.mp hts
    exact ⟨[], rfl, .none⟩
  | cons a items ih =>
    obtain ⟨us, vs, rfl, hus, hvs⟩ := Spells.split hts
    obtain ⟨b, hb, hItem⟩ := hItems a (by simp) us hus
    obtain ⟨bs, hbs, hRest⟩ := ih (fun a ha => hItems a (List.mem_cons_of_mem _ ha)) hvs
    exact ⟨b :: bs, by simp [hb, hbs], .more hItem hRest⟩

theorem map_flatten_of_singletons {groups : List (List β)}
    (hGroups : groups.map (List.map h) = items.map fun a => [g a]) :
    groups.flatten.map h = items.map g := by
  rw [List.map_flatten, hGroups, List.map_eq_flatMap (f := g), List.flatMap_def]

end Lists

/-! ### Expressions -/

/-- The level of the grammar to which a tree belongs without parentheses around it. -/
def Expr.level : Expr → Nat
  | .binary op .. => op.precedence
  | _ => 3

theorem isBinary_eq (e : Expr) : e.isBinary = e.bindsBelow 3 := by
  cases e with
  | binary op => cases op <;> rfl
  | _ => rfl

open Cursor in
/-- Parentheses make an operand of any tree. -/
theorem isAtLevel_enclosed {e : Expr} {least : Nat} (hLeast : least ≤ 3)
    (h : ∀ ts, Spells ts e.words → ∃ e', e'.bare = e.bare ∧ IsAtLevel e.level ts e')
    {ts : List Token} (hts : Spells ts (enclosed (e.bindsBelow least) e.words)) :
    ∃ e', e'.bare = e.bare ∧ IsAtLevel least ts e' := by
  cases hBelow : e.bindsBelow least with
  | false =>
    rw [hBelow] at hts
    obtain ⟨e', hBare, hLevel⟩ := h ts hts
    refine ⟨e', hBare, hLevel.mono ?_⟩
    cases e with
    | binary op => simpa [Expr.bindsBelow, Expr.level] using hBelow
    | _ => exact hLeast
  | true =>
    rw [hBelow] at hts
    obtain ⟨o, us, rfl, ho, hus⟩ := Spells.cons hts
    obtain ⟨vs, ws, rfl, hvs, hws⟩ := hus.split
    obtain ⟨c, rfl, hc⟩ := hws.one
    obtain ⟨e', hBare, hLevel⟩ := h vs hvs
    have hExpr : IsExpr vs e' := hLevel.mono (Nat.zero_le _)
    have hPrimary := IsPrimary.parens (kind_of_word ho) hExpr (kind_of_word hc)
    exact ⟨e', hBare, .of_unary (.primary hPrimary) least⟩

open Cursor in
/-- A printed expression is read at its own level: operands that bind less tightly are in
parentheses. -/
theorem isAtLevel_words (e : Expr) {ts : List Token} (hts : Spells ts e.words) :
    ∃ e', e'.bare = e.bare ∧ IsAtLevel e.level ts e' := by
  induction e generalizing ts with
  | ref name =>
    obtain ⟨t, rfl, ht⟩ := hts.one
    exact ⟨.ref t.ident, by simp [Expr.bare, bare_of_word ht], .primary (.name (kind_of_word ht))⟩
  | int text span =>
    obtain ⟨t, rfl, ht⟩ := hts.one
    have hText : t.text = text := congrArg Word.text ht
    exact ⟨.int t.text t.span, by simp [Expr.bare, hText], .primary (.number (kind_of_word ht))⟩
  | unary op operand span ih =>
    obtain ⟨t, us, rfl, ht, hus⟩ := Spells.cons hts
    rw [isBinary_eq] at hus
    obtain ⟨e', hBare, hUnary⟩ := isAtLevel_enclosed (Nat.le_refl 3) (fun _ h => ih h) hus
    have hKind : t.kind.unaryOp? = some op := by
      rw [kind_of_word ht]
      cases op <;> rfl
    exact ⟨.unary op e' (t.span.cover e'.span), by simp [Expr.bare, hBare], .sign hKind hUnary⟩
  | binary op left right span ihl ihr =>
    obtain ⟨us, vs, rfl, hus, hvs⟩ := Spells.split hts
    obtain ⟨t, vs, rfl, ht, hvs⟩ := hvs.cons
    have hPrecedence : op.precedence ≤ 2 := by cases op <;> decide
    obtain ⟨left', hLeftBare, hLeft⟩ := isAtLevel_enclosed (by omega) (fun _ h => ihl h) hus
    obtain ⟨right', hRightBare, hRight⟩ := isAtLevel_enclosed (by omega) (fun _ h => ihr h) hvs
    have hKind : t.kind.binaryOp? = some op := by
      rw [kind_of_word ht]
      cases op <;> rfl
    exact ⟨_, by simp [Expr.bare, hLeftBare, hRightBare], .binary hLeft hKind hRight⟩

theorem isExpr_words (e : Expr) {ts : List Token} (hts : Spells ts e.words) :
    ∃ e', e'.bare = e.bare ∧ IsExpr ts e' := by
  obtain ⟨e', hBare, hLevel⟩ := isAtLevel_words e hts
  exact ⟨e', hBare, Cursor.IsAtLevel.mono (Nat.zero_le _) hLevel⟩

/-! ### Statements -/

/-- Printed arguments are read back, also if there are none. -/
theorem isArguments_listed {args : List Expr} {ts : List Token}
    (hts : Spells ts (listed .comma (args.map (·.words)))) :
    ∃ args', args'.map (·.bare) = args.map (·.bare) ∧ IsArguments ts args' := by
  cases args with
  | nil =>
    obtain rfl := List.map_eq_nil_iff.mp hts
    exact ⟨[], rfl, .absent⟩
  | cons arg args =>
    obtain ⟨o, us, rfl, ho, hus⟩ := Spells.cons hts
    obtain ⟨vs, ws, rfl, hvs, hws⟩ := hus.split
    obtain ⟨c, rfl, hc⟩ := hws.one
    have hArgs : ReadAs (arg :: args) (·.words) (·.bare) (·.bare) IsExpr :=
      fun arg _ _ hts => isExpr_words arg hts
    obtain ⟨args', hBare, hSeparated⟩ := hArgs.separated (by simp) hvs
    exact ⟨args', hBare, .some (kind_of_word ho) hSeparated (kind_of_word hc)⟩

/-- A block is read as one that looks the same, if its statements are. -/
theorem isBlock_words {block : Block} {ts : List Token} (hts : Spells ts block.words)
    (hStmts : ReadAs block.stmts (·.words) (·.bare) (·.bare) IsStmt) :
    ∃ block', block'.bare = block.bare ∧ IsBlock ts block' := by
  obtain ⟨b, us, rfl, hb, hus⟩ := Spells.cons hts
  obtain ⟨vs, ws, rfl, hvs, hws⟩ := hus.split
  obtain ⟨e, rfl, he⟩ := hws.one
  have hBody : ∃ stmts', stmts'.map (·.bare) = block.stmts.map (·.bare) ∧ IsBody vs stmts' := by
    cases hEmpty : block.stmts with
    | nil =>
      rw [hEmpty] at hvs
      obtain rfl := List.map_eq_nil_iff.mp hvs
      exact ⟨[], rfl, .empty⟩
    | cons stmt stmts =>
      rw [← hEmpty]
      obtain ⟨stmts', hBare, hSeparated⟩ := hStmts.separated (by simp [hEmpty]) hvs
      exact ⟨stmts', hBare, by simpa using IsBody.stmts hSeparated .absent⟩
  obtain ⟨stmts', hBare, hBody⟩ := hBody
  refine ⟨_, ?_, .compound (kind_of_word hb) hBody (kind_of_word he)⟩
  simp [Block.bare, stmtsBare_eq, hBare]

mutual

theorem isStmt_words (stmt : Stmt) (h : stmt.Printable) {ts : List Token}
    (hts : Spells ts stmt.words) : ∃ stmt', stmt'.bare = stmt.bare ∧ IsStmt ts stmt' := by
  cases stmt with
  | block stmts span =>
    rw [Stmt.words_block] at hts
    obtain ⟨block', hBare, hBlock⟩ := isBlock_words hts (readAs_stmts stmts h)
    refine ⟨_, ?_, .block hBlock⟩
    simpa [Block.bare, Stmt.bare] using hBare
  | assign target value =>
    obtain ⟨t, us, rfl, ht, hus⟩ := Spells.cons hts
    obtain ⟨a, vs, rfl, ha, hvs⟩ := hus.cons
    obtain ⟨e', hBare, hExpr⟩ := isExpr_words value hvs
    exact ⟨.assign t.ident e', by simp [Stmt.bare, hBare, bare_of_word ht],
      .assign (kind_of_word ht) (kind_of_word ha) hExpr⟩
  | call name args =>
    obtain ⟨t, us, rfl, ht, hus⟩ := Spells.cons hts
    obtain ⟨args', hBare, hArgs⟩ := isArguments_listed hus
    exact ⟨.call t.ident args', by simp [Stmt.bare, hBare, bare_of_word ht],
      .call (kind_of_word ht) hArgs⟩
  | ifThen cond yes span =>
    obtain ⟨i, us, rfl, hi, hus⟩ := Spells.cons hts
    obtain ⟨cs, vs, rfl, hcs, hvs⟩ := hus.split
    obtain ⟨th, ys, rfl, hth, hys⟩ := hvs.cons
    obtain ⟨cond', hCondBare, hCond⟩ := isExpr_words cond hcs
    obtain ⟨yes', hYesBare, hYes⟩ := isStmt_words yes h.2 hys
    exact ⟨_, by simp [Stmt.bare, hCondBare, hYesBare],
      .ifThen (kind_of_word hi) hCond (kind_of_word hth) hYes⟩
  | ifElse cond yes no span =>
    obtain ⟨hCondPrintable, hYesPrintable, hClosed, hNoPrintable⟩ := h
    obtain ⟨i, us, rfl, hi, hus⟩ := Spells.cons hts
    obtain ⟨cs, vs, rfl, hcs, hvs⟩ := hus.split
    obtain ⟨th, ws, rfl, hth, hws⟩ := hvs.cons
    obtain ⟨ys, xs, rfl, hys, hxs⟩ := hws.split
    obtain ⟨el, ns, rfl, hel, hns⟩ := hxs.cons
    obtain ⟨cond', hCondBare, hCond⟩ := isExpr_words cond hcs
    obtain ⟨yes', hYesBare, hYes⟩ := isStmt_words yes hYesPrintable hys
    obtain ⟨no', hNoBare, hNo⟩ := isStmt_words no hNoPrintable hns
    have hClosed' : ¬ EndsOpen yes' := by
      rwa [← endsOpen_bare, hYesBare, endsOpen_bare]
    exact ⟨_, by simp [Stmt.bare, hCondBare, hYesBare, hNoBare],
      .ifElse (kind_of_word hi) hCond (kind_of_word hth) hYes hClosed' (kind_of_word hel) hNo⟩

theorem readAs_stmts (stmts : List Stmt) (h : StmtsPrintable stmts) :
    ReadAs stmts (·.words) (·.bare) (·.bare) IsStmt := by
  cases stmts with
  | nil => simp [ReadAs]
  | cons stmt stmts =>
    exact List.forall_mem_cons.mpr
      ⟨fun _ hts => isStmt_words stmt h.1 hts, readAs_stmts stmts h.2⟩

end

/-! ### Declarations -/

theorem isTyped_words (decl : VarDecl) {ts : List Token} (hts : Spells ts decl.words) :
    ∃ decl', decl'.bare = decl.bare ∧ IsTyped decl.isConst ts decl' := by
  obtain ⟨n, us, rfl, hn, hus⟩ := Spells.cons hts
  obtain ⟨c, vs, rfl, hc, hvs⟩ := hus.cons
  obtain ⟨t, rfl, ht⟩ := hvs.one
  exact ⟨_, by simp [VarDecl.bare, bare_of_word hn, bare_of_word ht],
    .typed (kind_of_word hn) (kind_of_word hc) (kind_of_word ht)⟩

theorem isSection_words (decl : VarDecl) {ts : List Token} (hts : Spells ts decl.sectionWords) :
    ∃ decls, decls.map (·.bare) = [decl.bare] ∧ IsSection ts decls := by
  obtain ⟨k, us, rfl, hk, hus⟩ := Spells.cons hts
  obtain ⟨vs, ws, rfl, hvs, hws⟩ := hus.split
  obtain ⟨sep, rfl, hSep⟩ := hws.one
  obtain ⟨decl', hBare, hTyped⟩ := isTyped_words decl hvs
  have hDecl := IsVarDecl.ended hTyped (kind_of_word hSep)
  have hDecls : Repeated (IsVarDecl decl.isConst) (vs ++ [sep]) [decl'] := by
    simpa using Repeated.more hDecl .none
  refine ⟨[decl'], by simp [hBare], ?_⟩
  cases hConst : decl.isConst with
  | false =>
    rw [hConst] at hk hDecls
    exact .vars (kind_of_word hk) hDecls (by simp)
  | true =>
    rw [hConst] at hk hDecls
    exact .consts (kind_of_word hk) hDecls (by simp)

theorem isParamList_listed {params : List VarDecl} (h : ∀ param ∈ params, param.isConst = false)
    {ts : List Token} (hts : Spells ts (listed .semicolon (params.map (·.words)))) :
    ∃ params', params'.map (·.bare) = params.map (·.bare) ∧ IsParamList ts params' := by
  cases hParams : params with
  | nil =>
    rw [hParams] at hts
    obtain rfl := List.map_eq_nil_iff.mp hts
    exact ⟨[], rfl, .absent⟩
  | cons param rest =>
    rw [hParams] at h hts
    obtain ⟨o, us, rfl, ho, hus⟩ := Spells.cons hts
    obtain ⟨vs, ws, rfl, hvs, hws⟩ := hus.split
    obtain ⟨c, rfl, hc⟩ := hws.one
    have hRead : ReadAs (param :: rest) (·.words) (·.bare) (·.bare) (IsTyped false) :=
      fun param hParam _ hts => h param hParam ▸ isTyped_words param hts
    obtain ⟨params', hBare, hSeparated⟩ := hRead.separated (by simp) hvs
    exact ⟨params', hBare, .some (kind_of_word ho) hSeparated (kind_of_word hc)⟩

theorem isProc_words {proc : ProcDecl} (h : proc.Printable) {ts : List Token}
    (hts : Spells ts proc.words) : ∃ proc', proc'.bare = proc.bare ∧ IsProc ts proc' := by
  obtain ⟨p, us, rfl, hp, hus⟩ := Spells.cons hts
  obtain ⟨n, us, rfl, hn, hus⟩ := hus.cons
  obtain ⟨ps, us, rfl, hps, hus⟩ := hus.split
  obtain ⟨sep, us, rfl, hSep, hus⟩ := hus.cons
  obtain ⟨ls, us, rfl, hls, hus⟩ := hus.split
  obtain ⟨bs, us, rfl, hbs, hus⟩ := hus.split
  obtain ⟨last, rfl, hLast⟩ := hus.one
  obtain ⟨params', hParamsBare, hParams⟩ :=
    isParamList_listed (fun param hParam => (h.params param hParam).2) hps
  have hRead : ReadAs proc.locals (·.sectionWords) (fun decl => [decl.bare])
      (List.map (·.bare)) IsSection := fun decl _ _ hts => isSection_words decl hts
  obtain ⟨sections, hSections, hLocals⟩ := hRead.repeated hls
  obtain ⟨body', hBodyBare, hBody⟩ := isBlock_words hbs (readAs_stmts _ h.body)
  have hLocalsBare := map_flatten_of_singletons hSections
  refine ⟨_, ?_, .proc (kind_of_word hp) (kind_of_word hn) hParams (kind_of_word hSep) hLocals hBody
    (.present (kind_of_word hLast))⟩
  simp [ProcDecl.bare, bare_of_word hn, hParamsBare, hLocalsBare, hBodyBare]

theorem isDecl_words {decl : Decl} (h : decl.Printable) {ts : List Token}
    (hts : Spells ts decl.words) :
    ∃ decls, decls.map (·.bare) = [decl.bare] ∧ IsDecl ts decls := by
  cases decl with
  | var decl =>
    obtain ⟨decls, hBare, hSection⟩ := isSection_words decl hts
    refine ⟨decls.map .var, ?_, .vars hSection⟩
    simpa [Function.comp_def, Decl.bare] using congrArg (List.map Decl.var) hBare
  | proc proc =>
    obtain ⟨proc', hBare, hProc⟩ := isProc_words h hts
    exact ⟨[.proc proc'], by simp [Decl.bare, hBare], .proc hProc⟩

/-! ### Programs -/

/-- A printed program is one of the grammar, with the same tree but for places. -/
theorem isProgram_words {program : Program} (h : program.Printable) {ts : List Token}
    (hts : Spells ts program.words) :
    ∃ program', program'.bare = program.bare ∧ IsProgram ts program' := by
  obtain ⟨hs, us, rfl, hhs, hus⟩ := Spells.split hts
  obtain ⟨ds, us, rfl, hds, hus⟩ := hus.split
  obtain ⟨bs, us, rfl, hbs, hus⟩ := hus.split
  obtain ⟨d, rfl, hd⟩ := hus.one
  obtain ⟨p, us, rfl, hp, hus⟩ := Spells.cons hhs
  obtain ⟨n, us, rfl, hn, hus⟩ := hus.cons
  obtain ⟨sep, rfl, hSep⟩ := hus.one
  have hRead : ReadAs program.decls (·.words) (fun decl => [decl.bare]) (List.map (·.bare))
      IsDecl := fun decl hDecl _ hts => isDecl_words (h.decls decl hDecl) hts
  obtain ⟨groups, hGroups, hDecls⟩ := hRead.repeated hds
  obtain ⟨body', hBodyBare, hBody⟩ := isBlock_words hbs (readAs_stmts _ h.body)
  have hDeclsBare := map_flatten_of_singletons hGroups
  refine ⟨_, ?_, .program (.named (kind_of_word hp) (kind_of_word hn) (kind_of_word hSep)) hDecls
    hBody (kind_of_word hd)⟩
  simp [Program.bare, bare_of_word hn, hDeclsBare, hBodyBare]

/-- A printed program is read without errors as the program that was printed. -/
theorem parse_text (program : Program) (h : program.Printable) :
    (parse program.text).2 = [] ∧ (parse program.text).1.bare = program.bare := by
  obtain ⟨hWords, hErrors⟩ := tokenize_words h.allScan
  obtain ⟨program', hBare, hProgram⟩ := isProgram_words h hWords
  rw [Program.text, parse_of_isProgram (List.prefix_refl _) hProgram]
  exact ⟨hErrors, hBare⟩

/-- A program whose text needs parentheses, and in which a block keeps an `else` from an `if`. -/
def signs : Program :=
  let x : Ident := ⟨"x", .nowhere⟩
  let long : Ident := ⟨"long", .nowhere⟩
  let product : Expr := .binary .mul (.ref x) (.int "1" .nowhere) .nowhere
  let operand : Expr := .unary .neg (.unary .pos product .nowhere) .nowhere
  let value : Expr := .binary .mul (.binary .sub operand (.ref x) .nowhere)
    (.binary .div (.ref x) operand .nowhere) .nowhere
  let unclosed : Stmt := .ifThen (.ref x) (.call ⟨"cls", .nowhere⟩ []) .nowhere
  ⟨⟨"signs", .nowhere⟩,
    [.var ⟨x, long, true⟩,
      .proc ⟨⟨"begins", .nowhere⟩, [⟨⟨"a", .nowhere⟩, long, false⟩, ⟨⟨"b", .nowhere⟩, long, false⟩],
        [⟨x, long, false⟩], ⟨[.ifElse value (.block [unclosed, unclosed] .nowhere)
          (.assign x value) .nowhere], .nowhere⟩⟩],
    ⟨[.call ⟨"begins", .nowhere⟩ [value, .ref x]], .nowhere⟩⟩

theorem signs_parse_text : signs.Printable ∧
    (parse signs.text).2 = [] ∧ (parse signs.text).1.bare = signs.bare := by
  have h : signs.Printable := by
    refine ⟨by decide, List.forall_mem_cons.mpr ⟨⟨by decide, by decide⟩,
      List.forall_mem_singleton.mpr ?_⟩, ?_⟩
    · refine ⟨by decide, ?_, ?_, ?_⟩
      · simp +decide [VarDecl.Printable]
      · simp +decide [VarDecl.Printable]
      · simp +decide [StmtsPrintable, Stmt.Printable, Expr.Printable, EndsOpen]
    · simp +decide [signs, StmtsPrintable, Stmt.Printable, Expr.Printable]
  exact ⟨h, parse_text signs h⟩

end ChipPascal
