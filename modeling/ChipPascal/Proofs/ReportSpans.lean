import ChipPascal.Proofs.LoweringReport
import ChipPascal.Proofs.Stages
import ChipPascal.Proofs.UnusedNames

/-!
# Places in a report

Whatever a compilation reports, it points at the text. Errors of the reading point at characters and
tokens. Everything else points at names, literals and operators of the tree, and what is said there
about a second place points at a declaration.
-/

namespace ChipPascal

/-! ### Places in the tree -/

open Outline

theorem Ident.span_mem_outline (name : Ident) : name.span ∈ name.outline.spans :=
  List.mem_singleton_self _

theorem Expr.span_mem_of_mem_names {e : Expr} {name : Ident} (h : name ∈ e.names) :
    name.span ∈ e.outline.spans := by
  induction e with
  | ref other =>
    obtain rfl := List.mem_singleton.mp h
    exact name.span_mem_outline
  | int text span => cases h
  | unary op operand span ih => exact (partOf_node _ _).spans (ih h)
  | binary op left right span ihLeft ihRight =>
    refine (partOf_node _ _).spans ((mem_spans_append _ _).mpr ?_)
    exact (List.mem_append.mp h).imp ihLeft ihRight

mutual

/-- The place of each name of a statement is among those of the statement. -/
theorem Stmt.span_mem_of_mem_names (stmt : Stmt) {name : Ident} (h : name ∈ stmt.names) :
    name.span ∈ stmt.outline.spans := by
  cases stmt with
  | block stmts span => exact (partOf_node _ _).spans (span_mem_of_mem_namesOfStmts stmts h)
  | assign target value =>
    rcases List.mem_cons.mp h with rfl | hValue
    · exact (partOf_left _ _).spans name.span_mem_outline
    · exact (partOf_right _ _).spans (Expr.span_mem_of_mem_names hValue)
  | call callee args =>
    rcases List.mem_cons.mp h with rfl | hArgs
    · exact (partOf_left _ _).spans name.span_mem_outline
    · obtain ⟨arg, hArg, hName⟩ := List.mem_flatMap.mp hArgs
      have hCall := (partOf_row Expr.outline hArg).trans (partOf_right callee.outline _)
      exact hCall.spans (Expr.span_mem_of_mem_names hName)
  | ifThen cond yes span =>
    refine (partOf_node _ _).spans ((mem_spans_append _ _).mpr ?_)
    exact (List.mem_append.mp h).imp Expr.span_mem_of_mem_names (Stmt.span_mem_of_mem_names yes)
  | ifElse cond yes no span =>
    refine (partOf_node _ _).spans ((mem_spans_append _ _).mpr ?_)
    refine (List.mem_append.mp h).imp (fun hHead => (mem_spans_append _ _).mpr ?_)
      (Stmt.span_mem_of_mem_names no)
    exact (List.mem_append.mp hHead).imp Expr.span_mem_of_mem_names (Stmt.span_mem_of_mem_names yes)

theorem span_mem_of_mem_namesOfStmts (stmts : List Stmt) {name : Ident}
    (h : name ∈ namesOfStmts stmts) : name.span ∈ (outlineOfStmts stmts).spans := by
  cases stmts with
  | nil => cases h
  | cons stmt stmts =>
    refine (mem_spans_append _ _).mpr ?_
    exact (List.mem_append.mp h).imp (Stmt.span_mem_of_mem_names stmt)
      (span_mem_of_mem_namesOfStmts stmts)

end

theorem Expr.map_accesses (e : Expr) : e.accesses.map (·.2) = e.names := by
  simp [Expr.accesses, Function.comp_def]

mutual

/-- In the order of the text, the names that are accessed are all names. -/
theorem Stmt.map_accesses (stmt : Stmt) :
    (stmt.accesses .targetFirst).map (·.2) = stmt.names := by
  cases stmt with
  | block stmts span => exact map_accessesOfStmts stmts
  | assign target value => simp [Stmt.accesses, AssignOrder.arrange, Stmt.names, value.map_accesses]
  | call name args => simp [Stmt.accesses, Stmt.names, List.map_flatMap, Expr.map_accesses]
  | ifThen cond yes span =>
    rw [Stmt.accesses, List.map_append, cond.map_accesses, Stmt.map_accesses yes, Stmt.names]
  | ifElse cond yes no span =>
    rw [Stmt.accesses, List.map_append, List.map_append, cond.map_accesses, Stmt.map_accesses yes,
      Stmt.map_accesses no, Stmt.names, List.append_assoc]

theorem map_accessesOfStmts (stmts : List Stmt) :
    (accessesOfStmts .targetFirst stmts).map (·.2) = namesOfStmts stmts := by
  cases stmts with
  | nil => rfl
  | cons stmt stmts =>
    rw [accessesOfStmts, List.map_append, Stmt.map_accesses stmt, map_accessesOfStmts stmts,
      namesOfStmts]

end

theorem VarDecl.span_name_mem (decl : VarDecl) : decl.name.span ∈ decl.outline.spans :=
  (partOf_left _ _).spans decl.name.span_mem_outline

theorem Decl.span_ident_mem (decl : Decl) : decl.ident.span ∈ decl.outline.spans := by
  cases decl with
  | var decl => exact decl.span_name_mem
  | proc proc => exact ProcDecl.partOf_name.spans proc.name.span_mem_outline

namespace Program

variable {program : Program} {span : Span}

/-- What stands in a body, and what is declared in its scope, stands in the program. -/
theorem partOf_of_mem_allBodies {b : Body} (h : b ∈ program.allBodies) :
    (outlineOfStmts b.stmts).PartOf program.outline ∧
      ∀ d ∈ b.declared, d.span ∈ program.outline.spans := by
  rcases mem_allBodies h with rfl | ⟨before, proc, after, hDecls, rfl⟩
  · refine ⟨partOf_body, fun d hd => ?_⟩
    obtain ⟨decl, hDecl, rfl⟩ := List.mem_map.mp hd
    have hIdent : (Declaration.global decl).span = decl.ident.span := by cases decl <;> rfl
    rw [hIdent]
    exact (partOf_decl hDecl).spans decl.span_ident_mem
  · have hProc : Decl.proc proc ∈ program.decls := by simp [hDecls]
    refine ⟨ProcDecl.partOf_body.trans (partOf_decl hProc), fun d hd => ?_⟩
    have hMem : d.span ∈ proc.vars.map (·.name.span) := by
      rw [← proc.map_span_declarations before.length]
      exact List.mem_map_of_mem hd
    obtain ⟨decl, hDecl, hSpan⟩ := List.mem_map.mp hMem
    rw [← hSpan]
    exact ((ProcDecl.partOf_var hDecl).trans (partOf_decl hProc)).spans decl.span_name_mem

/-- The names in the bodies stand in the program. -/
theorem span_mem_of_mem_uses {order : AssignOrder} {b : Body} (hb : b ∈ program.allBodies) {u : Use}
    (hu : u ∈ b.uses order) : u.name.span ∈ program.outline.spans := by
  obtain ⟨access, hAccess, rfl⟩ := List.mem_map.mp hu
  have hNames : access.2 ∈ namesOfStmts b.stmts := by
    rw [← map_accessesOfStmts]
    exact List.mem_map_of_mem ((mem_accessesOfStmts_iff order .targetFirst b.stmts).mp hAccess)
  exact (partOf_of_mem_allBodies hb).1.spans (span_mem_of_mem_namesOfStmts b.stmts hNames)

end Program

/-! ### Places of diagnostics -/

def Error.spans (e : Error) : List Span := e.span?.toList ++ (e.note?.map (·.1)).toList

def Diagnostic.spans (d : Diagnostic) : List Span := d.span?.toList ++ (d.note?.map (·.1)).toList

theorem Report.forall_spans_addErrors {P : Span → Prop} {r : Report} {errors : List Error} :
    (∀ d ∈ (r.addErrors errors).items, ∀ span ∈ d.spans, P span) ↔
      (∀ d ∈ r.items, ∀ span ∈ d.spans, P span) ∧ ∀ e ∈ errors, ∀ span ∈ e.spans, P span := by
  simp only [Report.addErrors, List.forall_mem_append, List.forall_mem_map]
  exact Iff.rfl

theorem Report.forall_spans_addWarnings {P : Span → Prop} {warnings : List Warning} :
    (∀ d ∈ (Report.empty.addWarnings warnings).items, ∀ span ∈ d.spans, P span) ↔
      ∀ w ∈ warnings, P w.span := by
  simp [Report.addWarnings, Report.empty, Diagnostic.spans, Diagnostic.span?, Diagnostic.note?]

/-! ### Errors about names -/

/-- Everything that a mention knows of stands in the program. -/
structure Mention.In (program : Program) (m : Mention) : Prop where
  name : m.name.span ∈ program.outline.spans
  globals : ∀ ident ∈ m.globals, ident.span ∈ program.outline.spans
  own : ∀ own ∈ m.own, ∀ ident ∈ own, ident.span ∈ program.outline.spans

namespace Program

variable {program : Program}

theorem mention_in_of_var {decl : VarDecl} (hPart : decl.outline.PartOf program.outline)
    {globals : List Ident} (hGlobals : ∀ ident ∈ globals, ident.span ∈ program.outline.spans)
    {own : Option (List Ident)}
    (hOwn : ∀ own' ∈ own, ∀ ident ∈ own', ident.span ∈ program.outline.spans) {m : Mention}
    (hm : m ∈ decl.mentions globals own) : m.In program := by
  simp only [VarDecl.mentions, List.mem_cons, List.not_mem_nil, or_false] at hm
  rcases hm with rfl | rfl
  · exact ⟨hPart.spans decl.span_name_mem, hGlobals, hOwn⟩
  · have hType := (partOf_right decl.name.outline _).spans decl.type.span_mem_outline
    exact ⟨hPart.spans hType, hGlobals, hOwn⟩

theorem mention_in_of_block {block : Block}
    (hPart : (outlineOfStmts block.stmts).PartOf program.outline)
    {globals : List Ident} (hGlobals : ∀ ident ∈ globals, ident.span ∈ program.outline.spans)
    {own : Option (List Ident)}
    (hOwn : ∀ own' ∈ own, ∀ ident ∈ own', ident.span ∈ program.outline.spans) {m : Mention}
    (hm : m ∈ block.mentions globals own) : m.In program := by
  obtain ⟨name, hName, rfl⟩ := List.mem_map.mp hm
  exact ⟨hPart.spans (span_mem_of_mem_namesOfStmts _ hName), hGlobals, hOwn⟩

theorem mention_in_of_proc {proc : ProcDecl} (hProc : Decl.proc proc ∈ program.decls)
    {globals : List Ident} (hGlobals : ∀ ident ∈ globals, ident.span ∈ program.outline.spans)
    {m : Mention} (hm : m ∈ proc.mentions globals) : m.In program := by
  have hVar {decl : VarDecl} (hDecl : decl ∈ proc.vars) : decl.outline.PartOf program.outline :=
    (ProcDecl.partOf_var hDecl).trans (partOf_decl hProc)
  have hOwn (decls : List VarDecl) (hDecls : decls ⊆ proc.vars) :
      ∀ own' ∈ some (decls.map (·.name)), ∀ ident ∈ own', ident.span ∈ program.outline.spans := by
    rintro _ ⟨rfl⟩ ident hIdent
    obtain ⟨decl, hDecl, rfl⟩ := List.mem_map.mp hIdent
    exact (hVar (hDecls hDecl)).spans decl.span_name_mem
  rcases List.mem_append.mp hm with hInner | hBody
  · obtain ⟨pre, decl, post, hSplit, hMem⟩ := mem_flatMapAfter hInner
    refine mention_in_of_var (hVar (by simp [hSplit])) hGlobals (hOwn _ ?_) hMem
    rw [hSplit, List.nil_append]
    exact List.subset_append_left _ _
  · exact mention_in_of_block (ProcDecl.partOf_body.trans (partOf_decl hProc)) hGlobals
      (hOwn _ (List.Subset.refl _)) hBody

/-- All that the check of names looks at has its place in the program. -/
theorem mention_in {m : Mention} (hm : m ∈ program.mentions) : m.In program := by
  have hIdents : ∀ decls : List Decl, decls ⊆ program.decls →
      ∀ ident ∈ decls.map (·.ident), ident.span ∈ program.outline.spans := by
    intro decls hDecls ident hIdent
    obtain ⟨decl, hDecl, rfl⟩ := List.mem_map.mp hIdent
    exact (partOf_decl (hDecls hDecl)).spans decl.span_ident_mem
  have hNone : ∀ own' ∈ (none : Option (List Ident)), ∀ ident ∈ own',
      ident.span ∈ program.outline.spans := by
    simp
  rcases List.mem_append.mp hm with hDecls | hBody
  · obtain ⟨pre, decl, post, hSplit, hMem⟩ := mem_flatMapAfter hDecls
    have hDecl : decl ∈ program.decls := by simp [hSplit]
    have hGlobals := hIdents pre (by rw [hSplit]; exact List.subset_append_left _ _)
    cases decl with
    | var decl =>
      exact mention_in_of_var (partOf_decl hDecl) hGlobals hNone hMem
    | proc proc =>
      have hName : proc.name.span ∈ program.outline.spans :=
        (partOf_decl hDecl).spans (Decl.span_ident_mem (.proc proc))
      rcases List.mem_cons.mp hMem with rfl | hInner
      · exact ⟨hName, hGlobals, hNone⟩
      · refine mention_in_of_proc hDecl (fun ident hIdent => ?_) hInner
        rcases List.mem_append.mp hIdent with hBefore | hSelf
        · exact hGlobals ident hBefore
        · rw [List.mem_singleton.mp hSelf]
          exact hName
  · exact mention_in_of_block partOf_body (hIdents _ (List.Subset.refl _)) hNone hBody

end Program

theorem exists_of_firstOf {idents : List Ident} {name : String} {span : Span}
    (h : firstOf idents name = some (some span)) : ∃ ident ∈ idents, ident.span = span := by
  obtain ⟨ident, hFind, hSpan⟩ := Option.map_eq_some_iff.mp h
  exact ⟨ident, List.mem_of_find?_eq_some hFind, Option.some.inj hSpan⟩

/-- An earlier declaration that is reported has its place in the program. -/
theorem Mention.In.previous {program : Program} {m : Mention} (h : m.In program) {span : Span}
    (hPrevious : m.previous? = some (some span)) : span ∈ program.outline.spans := by
  obtain ⟨role, name, globals, _ | own⟩ := m
  · simp only [previous?, firstGlobal] at hPrevious
    split at hPrevious
    · cases hPrevious
    · obtain ⟨ident, hIdent, rfl⟩ := exists_of_firstOf hPrevious
      exact h.globals ident hIdent
  · obtain ⟨ident, hIdent, rfl⟩ := exists_of_firstOf hPrevious
    exact h.own own rfl ident hIdent

/-- A repetition points at the declaration that it repeats. -/
theorem Mention.In.error {program : Program} {m : Mention} (h : m.In program) {e : Error}
    (he : m.error? = some e) : ∀ span ∈ e.spans, span ∈ program.outline.spans := by
  unfold Mention.error? at he
  split at he
  · obtain ⟨previous, hPrevious, rfl⟩ := Option.map_eq_some_iff.mp he
    cases previous with
    | none => simpa [Error.spans, Error.span?, Error.note?] using h.name
    | some span =>
      simpa [Error.spans, Error.span?, Error.note?] using ⟨h.name, h.previous hPrevious⟩
  · split at he
    · cases he
    · cases he
      simpa [Error.spans, Error.span?, Error.note?] using h.name
  · split at he
    · cases he
    · cases he
      simpa [Error.spans, Error.span?, Error.note?] using h.name

open Names in
/-- Errors in names are placed in the program. -/
theorem spans_of_mem_nameErrors {program : Program} {e : Error} (h : e ∈ nameErrors program) :
    ∀ span ∈ e.spans, span ∈ program.outline.spans := by
  obtain ⟨hHolds, hDecls⟩ :=
    @Holds.checkDecls (.withBuiltins fun _ => none) program.decls [] holds_builtins
  have hMentions : e ∈ program.mentions.filterMap Mention.error? := by
    rw [Program.mentions, List.filterMap_append]
    rcases List.mem_append.mp h with hLeft | hRight
    · exact List.mem_append_left _ (hDecls ▸ hLeft)
    · exact List.mem_append_right _ (hHolds.stmtsErrors program.body ▸ hRight)
  obtain ⟨m, hm, he⟩ := List.mem_filterMap.mp hMentions
  exact (Program.mention_in hm).error he

/-! ### Errors about kinds -/

theorem Use.spans_of_misuse {u : Use} {e : Error} (h : u.misuse? = some e) :
    e.spans = [u.name.span] := by
  obtain ⟨d, -, hError⟩ := Option.bind_eq_some_iff.mp h
  obtain ⟨access, name, reach⟩ := u
  cases access <;> grind [Access.error?, Error.spans, Error.span?, Error.note?]

theorem spans_of_mem_checkKinds {program : Program} (hNamed : program.WellNamed) {e : Error}
    (h : e ∈ (checkKinds program).2.reports) : ∀ span ∈ e.spans, span ∈ program.outline.spans := by
  rw [checkKinds_report hNamed] at h
  obtain ⟨u, hu, he⟩ := List.mem_filterMap.mp h
  obtain ⟨b, hb, hUse⟩ := List.mem_flatMap.mp hu
  rw [Use.spans_of_misuse he]
  exact List.forall_mem_singleton.mpr (Program.span_mem_of_mem_uses hb hUse)

/-! ### Warnings -/

theorem Use.span_of_unset {u : Use} {before : List Use} {w : Warning}
    (h : u.unset? before = some w) : w.span = u.name.span := by
  obtain ⟨d, -, hWarning⟩ := Option.bind_eq_some_iff.mp h
  split at hWarning
  · cases hWarning
    rfl
  · cases hWarning

open Usage in
theorem span_of_mem_unusedWarnings {us : List Use} {b : Body} {w : Warning}
    (h : w ∈ unusedWarnings (entriesAfter us b.scope)) : ∃ d ∈ b.declared, w.span = d.span := by
  rw [unusedWarnings, filter_entriesAfter_scope] at h
  obtain ⟨entry, hEntry, hUnused⟩ := List.mem_filterMap.mp h
  obtain ⟨d, hd, rfl⟩ := List.mem_map.mp (List.mem_filter.mp (List.mem_mergeSort.mp hEntry)).1
  refine ⟨d, hd, ?_⟩
  rw [← declaredAt_entryAfter us d]
  dsimp only [unused?] at hUnused
  split at hUnused
  · cases hUnused
    rfl
  · cases hUnused
    rfl
  · cases hUnused

open Usage in
/-- Warnings are placed in the program. -/
theorem span_of_mem_usageWarnings {program : Program} (hNamed : program.WellNamed) {w : Warning}
    (h : w ∈ (usageWarnings program).1) : w.span ∈ program.outline.spans := by
  rw [hNamed.usageWarnings_eq] at h
  obtain ⟨pre, b, post, hSplit, hMem⟩ := mem_flatMapAfter h
  have hb : b ∈ program.allBodies := by simp [hSplit]
  rcases List.mem_append.mp hMem with hRead | hUnused
  · obtain ⟨before, u, after, hUses, hWarning⟩ := mem_flatMapAfter hRead
    have hu : u ∈ b.uses .valueFirst := by simp [hUses]
    rw [Use.span_of_unset (Option.mem_toList.mp hWarning)]
    exact Program.span_mem_of_mem_uses hb hu
  · obtain ⟨d, hd, hSpan⟩ := span_of_mem_unusedWarnings hUnused
    rw [hSpan]
    exact (Program.partOf_of_mem_allBodies hb).2 d hd

/-! ### Errors of the lowering -/

section Lowering

variable {typeOf : String → ValueType} {arity : String → Nat} {e : Error}

theorem mem_of_mem_firstOr {mistakes inner : List Error} (h : e ∈ firstOr mistakes inner) :
    e ∈ mistakes ∨ e ∈ inner := by
  cases mistakes with
  | nil => exact .inr h
  | cons first more => exact .inl (List.mem_singleton.mp h ▸ List.mem_cons_self)

/-- A mistake in an expression is placed in that expression. -/
theorem Expr.spans_of_mem_mistakes {expr : Expr} (h : e ∈ expr.mistakes) :
    e.spans ⊆ expr.outline.spans := by
  induction expr with
  | ref name => cases h
  | int text span =>
    rw [mistakes] at h
    split at h
    · cases h
    · rw [List.mem_singleton.mp h]
      exact List.Subset.refl _
  | unary op operand span ih => exact fun _ hSpan => (partOf_node _ _).spans (ih h hSpan)
  | binary op left right span ihLeft ihRight =>
    rw [mistakes] at h
    rcases List.mem_append.mp h with hOp | hOperands
    · split at hOp
      · cases hOp
      · rw [List.mem_singleton.mp hOp]
        exact List.forall_mem_singleton.mpr ((mem_spans_node _).mpr (.inl rfl))
    · refine fun _ hSpan => (partOf_node _ _).spans ((mem_spans_append _ _).mpr ?_)
      exact (List.mem_append.mp hOperands).imp (fun h => ihLeft h hSpan) fun h => ihRight h hSpan

theorem spans_of_mem_condMistakes {cond : Expr}
    (h : e ∈ cond.scanMistakes typeOf ++ cond.mistakes) : e.spans ⊆ cond.outline.spans := by
  refine Expr.spans_of_mem_mistakes ((List.mem_append.mp h).elim (fun hScan => ?_) id)
  exact cond.scanMistakes_subset typeOf hScan

theorem spans_of_mem_callMistakes {name : Ident} {args : List Expr}
    (h : e ∈ callMistakes arity name args) : e.spans ⊆ (Stmt.call name args).outline.spans := by
  rcases List.mem_append.mp h with hCount | hArgs
  · split at hCount
    · cases hCount
    · rw [List.mem_singleton.mp hCount]
      exact List.forall_mem_singleton.mpr ((partOf_left _ _).spans name.span_mem_outline)
  · obtain ⟨arg, hArg, hMistake⟩ := List.mem_flatMap.mp hArgs
    have hCall := (partOf_row Expr.outline hArg).trans (partOf_right name.outline _)
    exact List.Subset.trans (Expr.spans_of_mem_mistakes hMistake) hCall.spans

mutual

theorem Stmt.spans_of_mem_errors (stmt : Stmt) (h : e ∈ stmt.errors typeOf arity) :
    e.spans ⊆ stmt.outline.spans := by
  cases stmt with
  | block stmts span =>
    exact fun _ hSpan => (partOf_node _ _).spans (spans_of_mem_stmtsErrors stmts h hSpan)
  | assign target value =>
    have hMistake := (mem_of_mem_firstOr h).resolve_right List.not_mem_nil
    exact List.Subset.trans (Expr.spans_of_mem_mistakes hMistake) (partOf_right _ _).spans
  | call name args =>
    exact spans_of_mem_callMistakes ((mem_of_mem_firstOr h).resolve_right List.not_mem_nil)
  | ifThen cond yes span =>
    refine fun _ hSpan => (partOf_node _ _).spans ((mem_spans_append _ _).mpr ?_)
    exact (mem_of_mem_firstOr h).imp (fun hCond => spans_of_mem_condMistakes hCond hSpan)
      fun hYes => Stmt.spans_of_mem_errors yes hYes hSpan
  | ifElse cond yes no span =>
    intro place hPlace
    refine (partOf_node _ _).spans ((mem_spans_append _ _).mpr ?_)
    rcases mem_of_mem_firstOr h with hCond | hInner
    · exact .inl ((partOf_left _ _).spans (spans_of_mem_condMistakes hCond hPlace))
    · rcases List.mem_append.mp hInner with hYes | hNo
      · exact .inl ((partOf_right _ _).spans (Stmt.spans_of_mem_errors yes hYes hPlace))
      · exact .inr (Stmt.spans_of_mem_errors no hNo hPlace)

theorem spans_of_mem_stmtsErrors (stmts : List Stmt) (h : e ∈ stmtsErrors typeOf arity stmts) :
    e.spans ⊆ (outlineOfStmts stmts).spans := by
  cases stmts with
  | nil => cases h
  | cons stmt stmts =>
    refine fun _ hSpan => (mem_spans_append _ _).mpr ?_
    exact (List.mem_append.mp h).imp (fun hStmt => Stmt.spans_of_mem_errors stmt hStmt hSpan)
      fun hStmts => spans_of_mem_stmtsErrors stmts hStmts hSpan

end

theorem ProcDecl.spans_of_mem_errors {program : Program} {proc : ProcDecl}
    (h : e ∈ proc.errors program) : e.spans ⊆ proc.outline.spans := by
  unfold ProcDecl.errors at h
  split at h
  · rw [List.mem_singleton.mp h]
    exact List.forall_mem_singleton.mpr (Decl.span_ident_mem (.proc proc))
  · exact List.Subset.trans (spans_of_mem_stmtsErrors _ h) partOf_body.spans

/-- Errors of lowering are placed in the program. -/
theorem Program.spans_of_mem_loweringErrors {program : Program} (h : e ∈ program.loweringErrors) :
    e.spans ⊆ program.outline.spans := by
  rcases List.mem_append.mp h with hProcs | hBody
  · obtain ⟨proc, hProc, hError⟩ := List.mem_flatMap.mp hProcs
    have hPart : proc.outline.PartOf program.outline := partOf_decl (mem_procs.mp hProc)
    exact List.Subset.trans (ProcDecl.spans_of_mem_errors hError) hPart.spans
  · exact List.Subset.trans (spans_of_mem_stmtsErrors _ hBody) partOf_body.spans

end Lowering

/-! ### Errors of the reading -/

theorem wellFormed_of_mem_all {source : String} {t : Token} (h : t ∈ (tokenize source).all) :
    t.span.WellFormed source := by
  rcases List.mem_append.mp h with hToken | hEnd
  · exact wellFormed_of_mem_tokenize hToken
  · rw [List.mem_singleton.mp hEnd]
    have hSize : (tokenize source).size = source.utf8ByteSize := byteLength_toList source
    rw [hSize]
    exact Span.wellFormed_mark source

/-- What is said about the grammar is about a token or the end mark. -/
theorem Cursor.exists_token_of_mem_errors {tokens : List Token} {size : Nat} {e : Error}
    (h : e ∈ (before tokens size).readProgram.2.errors.reverse) :
    ∃ what, ∃ token ∈ tokens ++ [.endOfFile size],
      e = .unexpectedToken what token.quoted token.span := by
  obtain ⟨places, -, hPlaces⟩ := exists_places tokens size
  generalize (before tokens size).readProgram.2.errors.reverse = errors at h hPlaces
  induction hPlaces with
  | nil => cases h
  | cons hFirst _ ih =>
    rcases List.mem_cons.mp h with rfl | hRest
    · obtain ⟨what, token, hToken, rfl⟩ := hFirst
      exact ⟨what, token, List.mem_of_getElem? hToken, rfl⟩
    · exact ih hRest

/-- Complaints of scanner and parser are placed in the text. -/
theorem wellFormed_of_mem_parse {source : String} {e : Error} (h : e ∈ (parse source).2) :
    ∀ span ∈ e.spans, span.WellFormed source := by
  rcases List.mem_append.mp h with hLexical | hSyntax
  · obtain ⟨c, span, rest, rfl, hStands, -⟩ := stands_of_mem_errors hLexical
    exact List.forall_mem_singleton.mpr hStands.wellFormed
  · obtain ⟨what, token, hToken, rfl⟩ := Cursor.exists_token_of_mem_errors hSyntax
    exact List.forall_mem_singleton.mpr (wellFormed_of_mem_all hToken)

/-! ### Compilation -/

/-- Whatever a compilation reports, all its places are well formed. -/
theorem wellFormed_of_ends {source : String} {options : CompileOptions} {c : Compilation}
    (h : c.Ends source options) :
    ∀ d ∈ c.report.items, ∀ span ∈ d.spans, span.WellFormed source := by
  have hTree : ∀ span ∈ (parse source).1.outline.spans, span.WellFormed source := fun span hSpan =>
    (trueTo_parse source).spans span (List.mem_cons_of_mem _ hSpan)
  have hEmpty : ∀ d ∈ Report.empty.items, ∀ span ∈ d.spans, span.WellFormed source := by
    simp [Report.empty]
  cases h with
  | unread hRead =>
    exact Report.forall_spans_addErrors.mpr ⟨hEmpty, fun e he => wellFormed_of_mem_parse he⟩
  | unnamed hRead hNames =>
    exact Report.forall_spans_addErrors.mpr ⟨hEmpty, fun e he span hSpan =>
      hTree span (spans_of_mem_nameErrors he span hSpan)⟩
  | unkinded hRead hNames hKinds =>
    have hNamed := Program.wellNamed_of_nameErrors hNames
    exact Report.forall_spans_addErrors.mpr ⟨hEmpty, fun e he span hSpan =>
      hTree span (spans_of_mem_checkKinds hNamed he span hSpan)⟩
  | checked hRead hNames hKinds hCheck =>
    have hNamed := Program.wellNamed_of_nameErrors hNames
    exact Report.forall_spans_addWarnings.mpr fun w hw =>
      hTree w.span (span_of_mem_usageWarnings hNamed hw)
  | @lowered lines s hRead hNames hKinds hCheck hLower =>
    have hNamed := Program.wellNamed_of_nameErrors hNames
    have hKinded := hNamed.checkKinds.2 hKinds
    have hErrors := Lowering.errors_lowerProgram options.stackWords hNamed hKinded
    have hState : s.errors = (parse source).1.loweringErrors := by
      rw [← hErrors]
      exact congrArg (·.2.errors) hLower.symm
    refine Report.forall_spans_addErrors.mpr ⟨?_, fun e he span hSpan => ?_⟩
    · exact Report.forall_spans_addWarnings.mpr fun w hw =>
        hTree w.span (span_of_mem_usageWarnings hNamed hw)
    · exact hTree span (Program.spans_of_mem_loweringErrors (hState ▸ he) hSpan)

end ChipPascal
