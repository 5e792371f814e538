import ChipPascal.Check.Names
import ChipPascal.Proofs.Declarations

/-!
# The report on names

Which names are reported can be said without scopes. A program mentions names one after the other;
what is wrong with a mention depends on the names declared before it, at the top level and in the
procedure that it stands in. Other procedures have no say in it. `nameErrors` reports exactly the
mentions with which something is wrong, in the order of the text.
-/

namespace ChipPascal

/-! ### Mentions of names -/

inductive Role where
  | declared
  | typed
  | used
deriving DecidableEq

structure Mention where
  role : Role
  name : Ident
  /-- The names declared before it at the top level, in order. -/
  globals : List Ident
  /-- The names declared before it in the procedure around it, if there is one. -/
  own : Option (List Ident)

/-- Where the first of several declarations of a name stands. -/
def firstOf (idents : List Ident) (name : String) : Option (Option Span) :=
  (idents.find? (·.name = name)).map fun ident => some ident.span

/-- At the top level the builtins count as declared before everything else, in no place. -/
def firstGlobal (idents : List Ident) (name : String) : Option (Option Span) :=
  if builtinNames.contains name then some none else firstOf idents name

namespace Mention

def previous? (m : Mention) : Option (Option Span) :=
  match m.own with
  | some own => firstOf own m.name.name
  | none => firstGlobal m.globals m.name.name

def isVisible (m : Mention) : Bool :=
  builtinNames.contains m.name.name || m.globals.any (·.name = m.name.name) ||
    (m.own.getD []).any (·.name = m.name.name)

def error? (m : Mention) : Option Error :=
  match m.role with
  | .declared => m.previous?.map (.nameRedefinition m.name.name m.name.span ·)
  | .typed =>
    if ["integer", "long"].contains m.name.name then none
    else some (.nameUndefined m.name.name m.name.span)
  | .used => if m.isVisible then none else some (.nameUndefined m.name.name m.name.span)

end Mention

/-- What `f` gives for each item and those before it, the first of which are `before`. -/
def flatMapAfter {α β : Type} (f : List α → α → List β) (before : List α) : List α → List β
  | [] => []
  | a :: as => f before a ++ flatMapAfter f (before ++ [a]) as

def Expr.names : Expr → List Ident
  | .ref name => [name]
  | .int _ _ => []
  | .unary _ operand _ => operand.names
  | .binary _ left right _ => left.names ++ right.names

mutual

def Stmt.names : Stmt → List Ident
  | .block stmts _ => namesOfStmts stmts
  | .assign target value => target :: value.names
  | .call name args => name :: args.flatMap (·.names)
  | .ifThen cond yes _ => cond.names ++ yes.names
  | .ifElse cond yes no _ => cond.names ++ yes.names ++ no.names

def namesOfStmts : List Stmt → List Ident
  | [] => []
  | stmt :: stmts => stmt.names ++ namesOfStmts stmts

end

def VarDecl.mentions (globals : List Ident) (own : Option (List Ident)) (decl : VarDecl) :
    List Mention :=
  [⟨.declared, decl.name, globals, own⟩, ⟨.typed, decl.type, globals, own⟩]

def Block.mentions (globals : List Ident) (own : Option (List Ident)) (block : Block) :
    List Mention :=
  (namesOfStmts block.stmts).map fun name => ⟨.used, name, globals, own⟩

def ProcDecl.mentions (globals : List Ident) (proc : ProcDecl) : List Mention :=
  flatMapAfter (fun before decl => decl.mentions globals (some (before.map (·.name)))) []
      proc.vars ++
    proc.body.mentions globals (some (proc.vars.map (·.name)))

def Decl.ident : Decl → Ident
  | .var decl => decl.name
  | .proc decl => decl.name

/-- A procedure is declared before what stands inside it. -/
def Decl.mentions (globals : List Ident) : Decl → List Mention
  | .var decl => decl.mentions globals none
  | .proc decl =>
    ⟨.declared, decl.name, globals, none⟩ :: decl.mentions (globals ++ [decl.name])

def Program.mentions (program : Program) : List Mention :=
  flatMapAfter (fun before decl => decl.mentions (before.map (·.ident))) [] program.decls ++
    program.body.mentions (program.decls.map (·.ident)) none

/-! ### Declarations on record -/

/-- A later declaration counts only if there is no earlier one of its name. -/
theorem firstOf_append (idents : List Ident) (ident : Ident) (name : String) :
    firstOf (idents ++ [ident]) name =
      (firstOf idents name).or (if ident.name = name then some (some ident.span) else none) := by
  simp only [firstOf, List.find?_append]
  cases idents.find? (·.name = name) with
  | some first => rfl
  | none => by_cases h : ident.name = name <;> simp [h]

theorem firstGlobal_append (idents : List Ident) (ident : Ident) (name : String) :
    firstGlobal (idents ++ [ident]) name =
      (firstGlobal idents name).or
        (if ident.name = name then some (some ident.span) else none) := by
  unfold firstGlobal
  split
  · rfl
  · exact firstOf_append idents ident name

theorem isSome_firstOf (idents : List Ident) (name : String) :
    (firstOf idents name).isSome = idents.any (·.name = name) := by
  rw [firstOf, Option.isSome_map, Bool.eq_iff_iff, List.find?_isSome, List.any_eq_true]

theorem isSome_firstGlobal (idents : List Ident) (name : String) :
    (firstGlobal idents name).isSome =
      (builtinNames.contains name || idents.any (·.name = name)) := by
  unfold firstGlobal
  split
  · next h => rw [h, Option.isSome_some, Bool.true_or]
  · next h => rw [isSome_firstOf, Bool.eq_false_iff.mpr h, Bool.false_or]

theorem get?_nowhere (bs : List Builtin) (name : String) :
    Bindings.get? (bs.map fun b => (b.name, (none : Option Span))) name =
      if (bs.map (·.name)).contains name then some none else none := by
  induction bs with
  | nil => rfl
  | cons b bs ih =>
    by_cases h : b.name = name
    · simp [Bindings.get?, h]
    · simp only [List.map_cons, Bindings.get?, if_neg h, ih, List.contains_cons]
      rw [beq_false_of_ne (Ne.symm h), Bool.false_or]

namespace Names

variable {d : Declared} {g l : Bindings (Option Span)} {globals own : List Ident}

def record (b : Bindings (Option Span)) (name : Ident) : Bindings (Option Span) :=
  if (b.get? name.name).isSome then b else b.set name.name (some name.span)

theorem get?_record (b : Bindings (Option Span)) (ident : Ident) (name : String) :
    (record b ident).get? name =
      (b.get? name).or (if ident.name = name then some (some ident.span) else none) := by
  unfold record
  split
  · next h =>
    by_cases hName : ident.name = name
    · obtain ⟨place, hPlace⟩ := Option.isSome_iff_exists.mp (hName ▸ h)
      rw [hPlace, Option.some_or]
    · rw [if_neg hName, Option.or_none]
  · next h =>
    by_cases hName : ident.name = name
    · subst hName
      rw [Bindings.get?_set_self, Option.not_isSome_iff_eq_none.mp h, if_pos rfl, Option.none_or]
    · rw [Bindings.get?_set_of_ne _ _ (Ne.symm hName), if_neg hName, Option.or_none]

/-- A name is reported if its scope has it already, with the place it was declared at. -/
theorem declare_errors (d : Declared) (ident : Ident) :
    (declare d ident).2 =
      ((d.entries.get? ident.name).map
        (Error.nameRedefinition ident.name ident.span ·)).toList := by
  rw [← Scopes.getHere?, declare]
  cases d.getHere? ident.name <;> rfl

theorem declare_atTop (hd : d.AtTop g) (ident : Ident) :
    (declare d ident).1.AtTop (record g ident) := by
  rw [declare, Scopes.getHere?, hd.entries, record]
  cases g.get? ident.name with
  | some place => exact hd
  | none => exact hd.define ident.name (some ident.span)

theorem declare_inside (hd : d.Inside g l) (ident : Ident) :
    (declare d ident).1.Inside g (record l ident) := by
  rw [declare, Scopes.getHere?, hd.entries, record]
  cases l.get? ident.name with
  | some place => exact hd
  | none => exact hd.define ident.name (some ident.span)

/-! ### What the scopes hold -/

/-- The scopes hold what was declared before a place in the text. -/
inductive Holds (d : Declared) (globals : List Ident) : Option (List Ident) → Prop
  | top {g : Bindings (Option Span)} : d.AtTop g →
      (∀ name, g.get? name = firstGlobal globals name) → Holds d globals none
  | inside {g l : Bindings (Option Span)} {own : List Ident} : d.Inside g l →
      (∀ name, g.get? name = firstGlobal globals name) →
      (∀ name, l.get? name = firstOf own name) → Holds d globals (some own)

/-- At the start nothing but the built-in names is declared. -/
theorem holds_builtins : Holds (.withBuiltins fun _ => none) [] none :=
  .top (Scopes.atTop_withBuiltins _) (get?_nowhere Builtin.all)

theorem Holds.declare_top (h : Holds d globals none) (ident : Ident) :
    Holds (declare d ident).1 (globals ++ [ident]) none := by
  cases h with
  | top hd hg =>
    refine .top (declare_atTop hd ident) fun name => ?_
    rw [get?_record, hg, firstGlobal_append]

theorem Holds.declare_inside (h : Holds d globals (some own)) (ident : Ident) :
    Holds (declare d ident).1 globals (some (own ++ [ident])) := by
  cases h with
  | inside hd hg hl =>
    refine .inside (Names.declare_inside hd ident) hg fun name => ?_
    rw [get?_record, hl, firstOf_append]

theorem Holds.openLocal (h : Holds d globals none) : Holds d.openLocal globals (some []) := by
  cases h with
  | top hd hg => exact .inside hd.openLocal hg fun _ => rfl

/-- Leaving a procedure, what it declared is forgotten. -/
theorem Holds.leave (h : Holds d globals (some own)) : Holds (d.enter 0) globals none := by
  cases h with
  | inside hd hg hl => exact .top hd.enter hg

theorem Holds.active (h : Holds d globals none) : d.active = 0 := by
  cases h with
  | top hd hg => exact hd.active

section Reports

variable {around : Option (List Ident)}

theorem filterMap_error?_cons (m : Mention) (ms : List Mention) :
    (m :: ms).filterMap Mention.error? = m.error?.toList ++ ms.filterMap Mention.error? := by
  cases h : m.error? <;> simp [h]

theorem Holds.declare_errors (h : Holds d globals around) (ident : Ident) :
    (declare d ident).2 = (Mention.mk .declared ident globals around).error?.toList := by
  rw [Names.declare_errors]
  cases h with
  | top hd hg => rw [hd.entries, hg]; rfl
  | inside hd hg hl => rw [hd.entries, hl]; rfl

theorem Holds.binds (h : Holds d globals around) (ident : Ident) :
    d.binds ident.name = (Mention.mk .used ident globals around).isVisible := by
  cases h with
  | top hd hg =>
    rw [hd.binds, hg, isSome_firstGlobal]
    simp [Mention.isVisible]
  | inside hd hg hl =>
    rw [hd.binds, hg, hl, isSome_firstGlobal, isSome_firstOf, Bool.or_comm]
    rfl

/-- A use is reported if nothing in sight has its name. -/
theorem Holds.useErrors (h : Holds d globals around) (ident : Ident) :
    useErrors d ident = (Mention.mk .used ident globals around).error?.toList := by
  rw [Names.useErrors, h.binds]
  simp only [Mention.error?]
  split <;> rfl

theorem isSome_ofKeyword? (name : String) :
    (ValueType.ofKeyword? name).isSome = ["integer", "long"].contains name := by
  unfold ValueType.ofKeyword?
  split <;> simp_all

theorem contains_builtinNames {name : String} (h : ["integer", "long"].contains name) :
    builtinNames.contains name := by
  simp only [List.contains_cons, List.contains_nil, Bool.or_false, Bool.or_eq_true,
    beq_iff_eq] at h
  obtain rfl | rfl := h <;> decide

/-- The names of types are builtins, so they are visible everywhere. -/
theorem Holds.typeErrors (h : Holds d globals around) (m : Mention) (hRole : m.role = .typed) :
    typeErrors d m.name = m.error?.toList := by
  rw [Names.typeErrors, h.binds, isSome_ofKeyword?, Mention.error?, hRole]
  by_cases hType : ["integer", "long"].contains m.name.name
  · simp only [Mention.isVisible, contains_builtinNames hType, hType, Bool.true_or, and_self,
      if_true, Option.toList_none]
  · simp only [hType, and_false, if_false, Option.toList_some, Bool.false_eq_true]

theorem exprErrors_eq (d : Declared) (e : Expr) :
    exprErrors d e = e.names.flatMap (Names.useErrors d) := by
  induction e with
  | ref name => simp [exprErrors, Expr.names]
  | int text span => rfl
  | unary op operand span ih => exact ih
  | binary op left right span ihl ihr =>
    rw [exprErrors, ihl, ihr, Expr.names, List.flatMap_append]

mutual

/-- The errors of a statement are those of its names, in the order of the text. -/
theorem stmtErrors_eq (d : Declared) (stmt : Stmt) :
    stmtErrors d stmt = stmt.names.flatMap (Names.useErrors d) := by
  cases stmt with
  | block stmts span => exact stmtsErrors_eq d stmts
  | assign target value => rw [stmtErrors, exprErrors_eq, Stmt.names, List.flatMap_cons]
  | call name args =>
    rw [stmtErrors, Stmt.names, List.flatMap_cons, List.flatMap_assoc]
    exact congrArg _ (congrArg (args.flatMap ·) (funext (exprErrors_eq d)))
  | ifThen cond yes span =>
    rw [stmtErrors, exprErrors_eq, stmtErrors_eq d yes, Stmt.names, List.flatMap_append]
  | ifElse cond yes no span =>
    rw [stmtErrors, exprErrors_eq, stmtErrors_eq d yes, stmtErrors_eq d no, Stmt.names,
      List.flatMap_append, List.flatMap_append]

theorem stmtsErrors_eq (d : Declared) (stmts : List Stmt) :
    stmtsErrors d stmts = (namesOfStmts stmts).flatMap (Names.useErrors d) := by
  cases stmts with
  | nil => rfl
  | cons stmt stmts =>
    rw [stmtsErrors, stmtErrors_eq d stmt, stmtsErrors_eq d stmts, namesOfStmts,
      List.flatMap_append]

end

theorem Holds.stmtsErrors (h : Holds d globals around) (block : Block) :
    stmtsErrors d block.stmts = (block.mentions globals around).filterMap Mention.error? := by
  rw [stmtsErrors_eq, Block.mentions]
  induction namesOfStmts block.stmts with
  | nil => rfl
  | cons name names ih =>
    rw [List.flatMap_cons, ih, h.useErrors, List.map_cons, filterMap_error?_cons]

/-- The type of a variable is looked at after its name was declared. -/
theorem Holds.checkVar_errors (h : Holds d globals around) (decl : VarDecl)
    {globals' : List Ident} {around' : Option (List Ident)}
    (h' : Holds (declare d decl.name).1 globals' around') :
    (checkVar d decl).2 = (decl.mentions globals around).filterMap Mention.error? := by
  rw [checkVar, VarDecl.mentions, filterMap_error?_cons, filterMap_error?_cons,
    ← h.declare_errors, ← h'.typeErrors ⟨.typed, decl.type, globals, around⟩ rfl,
    List.filterMap_nil, List.append_nil]

end Reports

/-! ### The walk over the declarations -/

theorem Holds.checkVars {vars before : List VarDecl}
    (h : Holds d globals (some (before.map (·.name)))) :
    Holds (checkVars d vars).1 globals (some ((before ++ vars).map (·.name))) ∧
      (Names.checkVars d vars).2 =
        (flatMapAfter (fun before decl => decl.mentions globals (some (before.map (·.name))))
          before vars).filterMap Mention.error? := by
  induction vars generalizing d before with
  | nil => simpa [Names.checkVars, flatMapAfter] using h
  | cons decl vars ih =>
    have hNext := h.declare_inside decl.name
    have hErrors := h.checkVar_errors decl hNext
    obtain ⟨hHolds, hRest⟩ := @ih (declare d decl.name).1 (before ++ [decl]) (by simpa using hNext)
    refine ⟨?_, ?_⟩
    · simpa [Names.checkVars, checkVar] using hHolds
    · simp only [Names.checkVars, flatMapAfter, List.filterMap_append, hErrors]
      exact congrArg _ hRest

/-- A procedure is declared before its own parameters, locals and body are checked, and then left.
-/
theorem Holds.checkProc (h : Holds d globals none) (proc : ProcDecl) :
    Holds (checkProc d proc).1 (globals ++ [proc.name]) none ∧
      (Names.checkProc d proc).2 =
        ((Decl.proc proc).mentions globals).filterMap Mention.error? := by
  have hNext := h.declare_top proc.name
  obtain ⟨hInside, hVars⟩ :=
    @Holds.checkVars (declare d proc.name).1.openLocal _ proc.vars [] hNext.openLocal
  have hBody := hInside.stmtsErrors proc.body
  have hName := h.declare_errors proc.name
  refine ⟨?_, ?_⟩
  · simp only [Names.checkProc, hNext.active]
    exact hInside.leave
  · simp only [Names.checkProc, hVars, hName]
    rw [hBody, Decl.mentions, ProcDecl.mentions, filterMap_error?_cons, List.filterMap_append,
      List.append_assoc, List.nil_append]

theorem Holds.checkDecl (h : Holds d globals none) (decl : Decl) :
    Holds (checkDecl d decl).1 (globals ++ [decl.ident]) none ∧
      (Names.checkDecl d decl).2 = (decl.mentions globals).filterMap Mention.error? := by
  cases decl with
  | var decl =>
    have hNext := h.declare_top decl.name
    exact ⟨hNext, h.checkVar_errors decl hNext⟩
  | proc proc => exact h.checkProc proc

/-- Declarations are checked in a row, each seeing those before it. -/
theorem Holds.checkDecls {decls before : List Decl}
    (h : Holds d (before.map (·.ident)) none) :
    Holds (checkDecls d decls).1 ((before ++ decls).map (·.ident)) none ∧
      (Names.checkDecls d decls).2 =
        (flatMapAfter (fun before decl => decl.mentions (before.map (·.ident)))
          before decls).filterMap Mention.error? := by
  induction decls generalizing d before with
  | nil => simpa [Names.checkDecls, flatMapAfter] using h
  | cons decl decls ih =>
    obtain ⟨hNext, hErrors⟩ := h.checkDecl decl
    obtain ⟨hHolds, hRest⟩ :=
      @ih (Names.checkDecl d decl).1 (before ++ [decl]) (by simpa using hNext)
    refine ⟨?_, ?_⟩
    · simpa [Names.checkDecls] using hHolds
    · simp only [Names.checkDecls, flatMapAfter, List.filterMap_append, hErrors]
      exact congrArg _ hRest

end Names

open Names in
/-- The errors about names are those of the mentions, one by one. So a redeclaration is reported
with the place of the first declaration in the same scope, and inside a procedure neither the top
level nor another procedure makes a declaration a redeclaration; a name used is reported if it is
no builtin, not declared at the top level before, and not the procedure's own. -/
theorem nameErrors_eq_mentions (program : Program) :
    nameErrors program = program.mentions.filterMap Mention.error? := by
  obtain ⟨hHolds, hDecls⟩ :=
    @Holds.checkDecls (.withBuiltins fun _ => none) program.decls [] holds_builtins
  have hBody := hHolds.stmtsErrors program.body
  simp only [nameErrors, Program.mentions, List.filterMap_append, hDecls]
  rw [hBody]
  rfl

end ChipPascal
