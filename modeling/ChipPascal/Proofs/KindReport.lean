import ChipPascal.Proofs.CompiledProgram
import ChipPascal.Proofs.Referents

/-!
# The report on kinds

Where nothing is wrong with the names of a program, what the check of kinds reports can be said name
by name: each is held against the declaration that it refers to, and no more is reported.
-/

namespace ChipPascal

/-! ### Misuse of names -/

/-- What is wrong with reading, assigning or calling the name, which refers to `d`. -/
def Access.error? (access : Access) (name : Ident) (d : Declaration) : Option Error :=
  match access with
  | .read => if d.isVar then none else some (.notAVariable name.name name.span)
  | .assigned =>
    if d.isConst then some (.assignToConst name.name name.span)
    else if d.isVar then none
    else some (.notAVariable name.name name.span)
  | .called => if d.isProc then none else some (.notAProcedure name.name name.span)

def Use.misuse? (u : Use) : Option Error := u.declaration?.bind (u.access.error? u.name)

/-- The names that are not used as what they are, in the order of the text. -/
def Program.misuses (program : Program) : List Error :=
  (program.uses .targetFirst).filterMap Use.misuse?

/-! ### Symbols of declarations -/

namespace Declaration

def symbol : Declaration → Symbol
  | builtin b => b.symbol
  | global decl => decl.symbol
  | param _ decl | inner _ decl => decl.symbol false

theorem isVar_symbol (d : Declaration) : d.symbol.isVar = d.isVar := by
  rcases d with (_ | _) | (_ | _) | _ | _ <;> rfl

theorem isProc_symbol (d : Declaration) : d.symbol.isProc = d.isProc := by
  rcases d with (_ | _) | (_ | _) | _ | _ <;> rfl

end Declaration

/-- The symbols at the top level are those of the declarations there. -/
theorem get?_bindDecls {decls : List Decl} (h : (decls.map (·.name)).Nodup) (name : String) :
    (bindDecls builtinBindings decls).get? name =
      ((decls.map Declaration.global ++ Builtin.all.map Declaration.builtin).find?
        (·.name = name)).map (·.symbol) := by
  have hBuiltins := get?_map Builtin.all (·.name) Builtin.symbol name
  rw [bindDecls, foldl_set_get? Decl.name Decl.symbol decls _ name h, builtinBindings, hBuiltins,
    List.find?_append, List.find?_map, List.find?_map, Option.map_or, Option.map_map,
    Option.map_map]
  rfl

/-- The symbols of a procedure are those of its variables. -/
theorem get?_bindVars {proc : ProcDecl} (h : (proc.vars.map (·.name.name)).Nodup) (place : Nat)
    (name : String) :
    (bindVars [] proc.vars).get? name =
      ((proc.declarations place).find? (·.name = name)).map (·.symbol) := by
  rw [bindVars, foldl_set_get? (·.name.name) (·.symbol false) proc.vars [] name h,
    ProcDecl.declarations, ProcDecl.vars, List.find?_append, List.find?_append, List.find?_map,
    List.find?_map, Option.map_or, Option.map_or, Option.map_map, Option.map_map]
  exact Option.or_none

/-! ### The check -/

namespace Findings

variable {ε : Type}

def all (reports : List ε) : Findings ε := ⟨reports, none⟩

theorem all_append (xs ys : List ε) : all xs ++ all ys = all (xs ++ ys) := rfl

end Findings

namespace Kinds

variable {syms : Symbols} {r : Reach}

def Reflects (syms : Symbols) (r : Reach) : Prop :=
  ∀ name, syms.get? name = (r.find? name).map (·.symbol)

def misuses (r : Reach) (accesses : List (Access × Ident)) : List Error :=
  (r.uses accesses).filterMap Use.misuse?

theorem misuses_append (r : Reach) (xs ys : List (Access × Ident)) :
    misuses r (xs ++ ys) = misuses r xs ++ misuses r ys := by
  rw [misuses, Reach.uses_append, List.filterMap_append, misuses, misuses]

theorem misuses_cons {name : Ident} {d : Declaration} (hd : r.find? name.name = some d)
    (access : Access) (xs : List (Access × Ident)) :
    misuses r ((access, name) :: xs) = (access.error? name d).toList ++ misuses r xs := by
  have hUse : (Use.mk access name r).misuse? = access.error? name d := by
    simp [Use.misuse?, Use.declaration?, hd]
  rw [misuses, Reach.uses, List.map_cons, List.filterMap_cons, hUse]
  cases access.error? name d <;> rfl

theorem Reflects.get? (h : Reflects syms r) {name : String} {d : Declaration}
    (hd : r.find? name = some d) : syms.get? name = some d.symbol := by
  rw [h, hd, Option.map_some]

theorem Reflects.readFindings (h : Reflects syms r) {name : Ident} {d : Declaration}
    (hd : r.find? name.name = some d) :
    readFindings syms name = .all (Access.read.error? name d).toList := by
  simp only [Kinds.readFindings, h.get? hd, Declaration.isVar_symbol, Access.error?]
  split <;> rfl

theorem Reflects.targetFindings (h : Reflects syms r) {name : Ident} {d : Declaration}
    (hd : r.find? name.name = some d) :
    targetFindings syms name = .all (Access.assigned.error? name d).toList := by
  simp only [Kinds.targetFindings, h.get? hd, Access.error?]
  rcases d with (_ | _) | (decl | _) | ⟨_, decl⟩ | ⟨_, decl⟩
  case builtin.type | builtin.intrinsic | global.proc => rfl
  all_goals
    simp only [Declaration.symbol, Decl.symbol, VarDecl.symbol, VarInfo.isConst_declared,
      Declaration.isConst, Declaration.isVar, if_true]
    cases decl.isConst <;> rfl

theorem Reflects.calleeFindings (h : Reflects syms r) {name : Ident} {d : Declaration}
    (hd : r.find? name.name = some d) :
    calleeFindings syms name = .all (Access.called.error? name d).toList := by
  simp only [Kinds.calleeFindings, h.get? hd, Declaration.isProc_symbol, Access.error?]
  split <;> rfl

/-- The findings in an expression are its misuses, in the order of the text. -/
theorem Reflects.exprFindings (h : Reflects syms r) {e : Expr} (he : e.Reads r.Sees) :
    exprFindings syms e = .all (misuses r e.accesses) := by
  induction e with
  | ref name =>
    obtain ⟨d, hd⟩ := Option.isSome_iff_exists.mp he
    have hMisuses : misuses r [(.read, name)] = (Access.read.error? name d).toList :=
      (misuses_cons hd .read []).trans (List.append_nil _)
    exact (h.readFindings hd).trans (congrArg Findings.all hMisuses.symm)
  | int text span => rfl
  | unary op operand span ih => exact ih he
  | binary op left right span ihl ihr =>
    have hAccesses : (Expr.binary op left right span).accesses = left.accesses ++ right.accesses :=
      List.map_append
    rw [Kinds.exprFindings, ihl he.1, ihr he.2, Findings.all_append, hAccesses, misuses_append]

theorem Reflects.exprsFindings (h : Reflects syms r) {es : List Expr}
    (hes : ∀ e ∈ es, e.Reads r.Sees) :
    exprsFindings syms es = .all (misuses r (es.flatMap (·.accesses))) := by
  induction es with
  | nil => rfl
  | cons e es ih =>
    have hHead := h.exprFindings (hes e List.mem_cons_self)
    have hRest := ih fun e' he' => hes e' (List.mem_cons_of_mem e he')
    rw [Kinds.exprsFindings, hHead, hRest, Findings.all_append, List.flatMap_cons, misuses_append]

mutual

/-- The findings in a statement are its misuses. The target of an assignment comes before the value.
-/
theorem Reflects.stmtFindings (h : Reflects syms r) (stmt : Stmt)
    (hs : stmt.Uses r.Sees r.Sees r.Sees) :
    stmtFindings syms stmt = .all (misuses r (stmt.accesses .targetFirst)) := by
  cases stmt with
  | block stmts span => exact h.stmtsFindings stmts hs
  | assign target value =>
    obtain ⟨d, hd⟩ := Option.isSome_iff_exists.mp hs.1
    rw [Kinds.stmtFindings, h.targetFindings hd, h.exprFindings hs.2, Findings.all_append,
      Stmt.accesses, AssignOrder.arrange, misuses_cons hd]
  | call name args =>
    obtain ⟨d, hd⟩ := Option.isSome_iff_exists.mp hs.1
    rw [Kinds.stmtFindings, h.calleeFindings hd, h.exprsFindings hs.2, Findings.all_append,
      Stmt.accesses, misuses_cons hd]
  | ifThen cond yes span =>
    rw [Kinds.stmtFindings, h.exprFindings hs.1, h.stmtFindings yes hs.2, Findings.all_append,
      Stmt.accesses, misuses_append]
  | ifElse cond yes no span =>
    rw [Kinds.stmtFindings, h.exprFindings hs.1, h.stmtFindings yes hs.2.1,
      h.stmtFindings no hs.2.2, Findings.all_append, Findings.all_append, Stmt.accesses,
      misuses_append, misuses_append]

theorem Reflects.stmtsFindings (h : Reflects syms r) (stmts : List Stmt)
    (hs : StmtsUse r.Sees r.Sees r.Sees stmts) :
    stmtsFindings syms stmts = .all (misuses r (accessesOfStmts .targetFirst stmts)) := by
  cases stmts with
  | nil => rfl
  | cons stmt stmts =>
    rw [Kinds.stmtsFindings, h.stmtFindings stmt hs.1, h.stmtsFindings stmts hs.2,
      Findings.all_append, accessesOfStmts, misuses_append]

end

/-! ### The walk over the declarations -/

/-- The table in a procedure finds what the body can see. -/
theorem reflects_toBody {before : List Decl} {proc : ProcDecl}
    (hDecls : ((before ++ [Decl.proc proc]).map (·.name)).Nodup)
    (hVars : (proc.vars.map (·.name.name)).Nodup)
    (hs : syms.get? = lookIn (bindDecls builtinBindings (before ++ [.proc proc]))
      (bindVars [] proc.vars)) : Reflects syms (proc.toBody before).reach := by
  intro name
  rw [hs, lookIn, get?_bindDecls hDecls, get?_bindVars hVars before.length, ← Option.map_or,
    ← List.find?_append]
  rfl

theorem reflects_mainBody {program : Program} (hDecls : (program.decls.map (·.name)).Nodup)
    (hs : syms.AtTop (bindDecls builtinBindings program.decls)) :
    Reflects syms program.mainBody.reach := by
  intro name
  rw [hs.get?, get?_bindDecls hDecls]
  rfl

def misusesIn (bodies : List Body) : List Error :=
  (bodies.flatMap (·.uses .targetFirst)).filterMap Use.misuse?

theorem misusesIn_append (xs ys : List Body) :
    misusesIn (xs ++ ys) = misusesIn xs ++ misusesIn ys := by
  rw [misusesIn, List.flatMap_append, List.filterMap_append, misusesIn, misusesIn]

theorem misusesIn_singleton (b : Body) :
    misusesIn [b] = misuses b.reach (accessesOfStmts .targetFirst b.stmts) := by
  rw [misusesIn, List.flatMap_singleton, Body.uses, misuses]

/-- Bodies are reported in the order of their procedures. -/
theorem checkDecls_report {before decls : List Decl}
    (hs : syms.AtTop (bindDecls builtinBindings before))
    (h : NamedDecls builtinNames (before ++ decls)) :
    (checkDecls syms decls).1.AtTop (bindDecls builtinBindings (before ++ decls)) ∧
      (checkDecls syms decls).2 =
        .all (misusesIn (flatMapAfter (fun before decl => decl.bodies before) before decls)) := by
  induction decls generalizing syms before with
  | nil =>
    rw [List.append_nil]
    exact ⟨hs, rfl⟩
  | cons decl decls ih =>
    have hSplit : before ++ decl :: decls = (before ++ [decl]) ++ decls := by simp
    have hNext : bindDecls builtinBindings (before ++ [decl]) =
        (bindDecls builtinBindings before).set decl.name decl.symbol := by
      simp [bindDecls]
    rw [hSplit] at h ⊢
    have hHead := (NamedDecls.append.mp h).1
    have hNamed := (NamedDecls.append.mp hHead).2
    cases decl with
    | var decl =>
      have hType := VarDecl.valueType_eq hNamed.2.1
      have hBind : syms.bindVar decl decl.typeOf =
          syms.define decl.name.name (decl.symbol true) := by
        rw [Symbols.bindVar, hs.isGlobal, VarDecl.symbol]
      have hStep : checkDecls syms (.var decl :: decls) =
          checkDecls (syms.define decl.name.name (decl.symbol true)) decls := by
        simp [checkDecls, checkDecl, declareVar, hType, hBind, Findings.ofFault,
          Findings.append_def, Findings.andThen]
      rw [hStep]
      exact ih (hNext ▸ hs.define _ _) h
    | proc proc =>
      obtain ⟨hTop, inner, hLook, hFindings⟩ := checkProc_atTop hs hNamed.2.1
      have hReflects := reflects_toBody hHead.nodup.1 hNamed.2.1.vars.nodup.1
        (hLook.trans (by rw [hNext]; rfl))
      have hBody := hReflects.stmtsFindings _ (ProcDecl.wellNamed_toBody hHead).stmts
      obtain ⟨hTop', hRest⟩ := ih (hNext ▸ hTop) h
      have hFault : (checkProc syms proc).2.fault = none :=
        congrArg Findings.fault (hFindings.trans hBody)
      have hStep : checkDecls syms (.proc proc :: decls) =
          ((checkDecls (checkProc syms proc).1 decls).1,
            (checkProc syms proc).2 ++ (checkDecls (checkProc syms proc).1 decls).2) := by
        simp [checkDecls, checkDecl, hFault]
      rw [hStep]
      refine ⟨hTop', ?_⟩
      show (checkProc syms proc).2 ++ (checkDecls (checkProc syms proc).1 decls).2 = _
      rw [hFindings.trans hBody, hRest, Findings.all_append, flatMapAfter, misusesIn_append,
        Decl.bodies, misusesIn_singleton]

end Kinds

open Kinds in
theorem checkKinds_report {program : Program} (h : program.WellNamed) :
    (checkKinds program).2 = .all (misusesIn program.allBodies) := by
  obtain ⟨hTop, hDecls⟩ := @checkDecls_report .ofBuiltins [] program.decls
    (Scopes.atTop_withBuiltins Builtin.symbol) h.decls
  have hBody := (reflects_mainBody h.decls.nodup.1 hTop).stmtsFindings _ h.mainBody.stmts
  show (checkDecls .ofBuiltins program.decls).2 ++
    stmtsFindings (checkDecls .ofBuiltins program.decls).1 program.mainBody.stmts = _
  rw [hDecls, hBody, Findings.all_append, ← misusesIn_singleton, ← misusesIn_append,
    Program.allBodies]

/-- Where nothing is wrong with the names of a program, the check of kinds comes to its end, and it
reports the misuses of names one by one: assignments to constants, assignments to and reads of what
is no variable, and calls of what is no procedure. -/
theorem checkKinds_eq_misuses (program : Program) (h : nameErrors program = []) :
    (checkKinds program).2 = ⟨program.misuses, none⟩ :=
  checkKinds_report (Program.wellNamed_of_nameErrors h)

/-- Parameters and locals hide a constant, a variable and a builtin, and each name is misused. -/
def mixedUp : String :=
  "const k: long; var v: integer; procedure p(v: long; cls: integer); const k: integer;
   begin v := cls; k := p; integer; if v then cls end; begin k := v + p; v; p := integer; cls end."

set_option maxRecDepth 1000 in
theorem mixedUp_misuses : nameErrors (parse mixedUp).1 = [] ∧
    (checkKinds (parse mixedUp).1).2 = ⟨(parse mixedUp).1.misuses, none⟩ ∧
    (parse mixedUp).1.misuses.map (·.message) =
      ["Attempt to assign constant variable k", "p is not a variable",
        "integer is not a procedure", "cls is not a procedure",
        "Attempt to assign constant variable k", "p is not a variable", "v is not a procedure",
        "p is not a variable", "integer is not a variable"] := by
  have hTest : nameErrors (parse mixedUp).1 = [] ∧ (parse mixedUp).1.misuses.map (·.message) =
      ["Attempt to assign constant variable k", "p is not a variable",
        "integer is not a procedure", "cls is not a procedure",
        "Attempt to assign constant variable k", "p is not a variable", "v is not a procedure",
        "p is not a variable", "integer is not a variable"] := by
    rw [show parse mixedUp = _ from parse_ofList _]
    decide +kernel
  exact ⟨hTest.1, checkKinds_eq_misuses _ hTest.1, hTest.2⟩

end ChipPascal
