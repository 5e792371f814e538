import ChipPascal.Check.Names
import ChipPascal.Proofs.Declarations

/-!
# What the check of names establishes

A program with whose names nothing is wrong is well named.
-/

namespace ChipPascal.Names

variable {d : Declared} {g l : Bindings (Option Span)} {ns ls : List String}

theorem useErrors_eq_nil_iff (name : Ident) : useErrors d name = [] ↔ d.binds name.name := by
  simp [useErrors]

theorem exprErrors_eq_nil_iff (e : Expr) :
    exprErrors d e = [] ↔ e.Reads fun name => d.binds name := by
  induction e with
  | ref name => exact useErrors_eq_nil_iff name
  | int text span => simp [exprErrors, Expr.Reads]
  | unary op operand span ih => exact ih
  | binary op left right span ihl ihr =>
    simp only [exprErrors, List.append_eq_nil_iff, ihl, ihr, Expr.Reads]

def Bound (d : Declared) (stmts : List Stmt) : Prop :=
  StmtsUse (fun x => d.binds x) (fun x => d.binds x) (fun x => d.binds x) stmts

mutual

theorem stmtErrors_eq_nil (stmt : Stmt) (h : stmtErrors d stmt = []) :
    stmt.Uses (fun x => d.binds x) (fun x => d.binds x) (fun x => d.binds x) := by
  cases stmt with
  | block stmts span => exact stmtsErrors_eq_nil stmts h
  | assign target value =>
    simp only [stmtErrors, List.append_eq_nil_iff] at h
    exact ⟨(useErrors_eq_nil_iff target).mp h.1, (exprErrors_eq_nil_iff value).mp h.2⟩
  | call name args =>
    simp only [stmtErrors, List.append_eq_nil_iff, List.flatMap_eq_nil_iff] at h
    exact ⟨(useErrors_eq_nil_iff name).mp h.1,
      fun arg hArg => (exprErrors_eq_nil_iff arg).mp (h.2 arg hArg)⟩
  | ifThen cond yes span =>
    simp only [stmtErrors, List.append_eq_nil_iff] at h
    exact ⟨(exprErrors_eq_nil_iff cond).mp h.1, stmtErrors_eq_nil yes h.2⟩
  | ifElse cond yes no span =>
    simp only [stmtErrors, List.append_eq_nil_iff] at h
    exact ⟨(exprErrors_eq_nil_iff cond).mp h.1.1, stmtErrors_eq_nil yes h.1.2,
      stmtErrors_eq_nil no h.2⟩

theorem stmtsErrors_eq_nil (stmts : List Stmt) (h : stmtsErrors d stmts = []) :
    Bound d stmts := by
  cases stmts with
  | nil => trivial
  | cons stmt stmts =>
    simp only [stmtsErrors, List.append_eq_nil_iff] at h
    exact ⟨stmtErrors_eq_nil stmt h.1, stmtsErrors_eq_nil stmts h.2⟩

end

/-- Names that are bound are those the two scopes declare. -/
theorem Bound.named {stmts : List Stmt} (h : Bound d stmts) (hd : ∀ x, d.binds x → x ∈ ns) :
    BodyNamed ns stmts :=
  StmtsUse.mono hd hd hd h

/-- A name that is declared without error was free in its scope. -/
theorem declare_eq_of_nil {name : Ident} (h : (declare d name).2 = []) :
    d.getHere? name.name = none ∧ (declare d name).1 = d.define name.name (some name.span) := by
  unfold declare at h ⊢
  cases hHere : d.getHere? name.name with
  | none => exact ⟨rfl, rfl⟩
  | some previous => simp [hHere] at h

theorem typeErrors_eq_nil {type : Ident} (h : typeErrors d type = []) :
    (ValueType.ofKeyword? type.name).isSome := by
  unfold typeErrors at h
  split at h
  · next hType => exact hType.2
  · simp at h

/-- Inside a procedure, variables are declared without complaint only if they are well named. -/
theorem checkVars_eq_nil {vars : List VarDecl} (hd : d.Inside g l) (hl : l.Keys ls)
    (h : (checkVars d vars).2 = []) :
    NamedVars ls vars ∧
      ∃ l', (checkVars d vars).1.Inside g l' ∧
        l'.Keys ((vars.map (·.name.name)).reverse ++ ls) := by
  induction vars generalizing d l ls with
  | nil => exact ⟨trivial, l, hd, hl⟩
  | cons decl vars ih =>
    simp only [checkVars, checkVar, List.append_eq_nil_iff] at h
    obtain ⟨⟨hDeclare, hType⟩, hRest⟩ := h
    obtain ⟨hFresh, hDefine⟩ := declare_eq_of_nil hDeclare
    rw [hDefine] at hRest
    have hNotMem : decl.name.name ∉ ls := by
      rw [← hl.get?_eq_none_iff, ← hd.entries]
      exact hFresh
    obtain ⟨hNamed, l', hInside, hKeys⟩ :=
      ih (hd.define decl.name.name (some decl.name.span)) (hl.set _ _) hRest
    refine ⟨⟨hNotMem, typeErrors_eq_nil hType, hNamed⟩, l', ?_, ?_⟩
    · simpa only [checkVars, checkVar, hDefine] using hInside
    · simpa using hKeys

/-- A procedure without errors has a new name and names bound all through its body, its own
included. -/
theorem checkProc_eq_nil {proc : ProcDecl} (hd : d.AtTop g) (hg : g.Keys ns)
    (h : (checkProc d proc).2 = []) :
    proc.name.name ∉ ns ∧ NamedProc (proc.name.name :: ns) proc ∧
      ∃ g', (checkProc d proc).1.AtTop g' ∧ g'.Keys (proc.name.name :: ns) := by
  simp only [checkProc, List.append_eq_nil_iff] at h
  obtain ⟨⟨hDeclare, hVars⟩, hBody⟩ := h
  obtain ⟨hFresh, hDefine⟩ := declare_eq_of_nil hDeclare
  have hTop := hd.define proc.name.name (some proc.name.span)
  have hKeys := hg.set proc.name.name (some proc.name.span)
  rw [hDefine] at hVars hBody
  obtain ⟨hNamed, l', hInside, hKeys'⟩ :=
    checkVars_eq_nil hTop.openLocal Bindings.keys_nil hVars
  refine ⟨?_, ⟨hNamed, ?_⟩, _, ?_, hKeys⟩
  · rw [← hg.get?_eq_none_iff, ← hd.entries]
    exact hFresh
  · refine (stmtsErrors_eq_nil _ hBody).named fun x hx => ?_
    rw [hInside.binds, Bool.or_eq_true, hKeys' x, hKeys x] at hx
    simpa using hx
  · have hActive : (d.define proc.name.name (some proc.name.span)).active = 0 := hTop.active
    simpa only [checkProc, hDefine, hActive] using hInside.enter

theorem checkDecls_eq_nil {decls : List Decl} (hd : d.AtTop g) (hg : g.Keys ns)
    (h : (checkDecls d decls).2 = []) :
    NamedDecls ns decls ∧
      ∃ g', (checkDecls d decls).1.AtTop g' ∧ g'.Keys ((decls.map (·.name)).reverse ++ ns) := by
  induction decls generalizing d g ns with
  | nil => exact ⟨trivial, g, hd, hg⟩
  | cons decl decls ih =>
    simp only [checkDecls, List.append_eq_nil_iff] at h
    obtain ⟨hHead, hTail⟩ := h
    cases decl with
    | var decl =>
      simp only [checkDecl, checkVar, List.append_eq_nil_iff] at hHead
      obtain ⟨hFresh, hDefine⟩ := declare_eq_of_nil hHead.1
      simp only [checkDecl, checkVar, hDefine] at hTail
      obtain ⟨hNamed, g', hTop, hKeys⟩ := ih (hd.define _ _) (hg.set _ _) hTail
      refine ⟨⟨?_, typeErrors_eq_nil hHead.2, hNamed⟩, g', ?_, ?_⟩
      · rw [← hg.get?_eq_none_iff, ← hd.entries]
        exact hFresh
      · simpa only [checkDecls, checkDecl, checkVar, hDefine] using hTop
      · simpa [Decl.name] using hKeys
    | proc proc =>
      obtain ⟨hFresh, hProc, g₁, hTop₁, hKeys₁⟩ := checkProc_eq_nil hd hg hHead
      obtain ⟨hNamed, g', hTop, hKeys⟩ := ih hTop₁ hKeys₁ hTail
      refine ⟨⟨hFresh, hProc, hNamed⟩, g', hTop, ?_⟩
      simpa [Decl.name] using hKeys

end Names

open Names in
/-- A program without errors in its names is well named. -/
theorem Program.wellNamed_of_nameErrors {program : Program} (h : nameErrors program = []) :
    program.WellNamed := by
  simp only [nameErrors, List.append_eq_nil_iff] at h
  obtain ⟨hDecls, g, hTop, hKeys⟩ :=
    checkDecls_eq_nil (Scopes.atTop_withBuiltins fun _ => none) (keys_builtins _) h.1
  refine ⟨hDecls, (stmtsErrors_eq_nil _ h.2).named fun x hx => ?_⟩
  rwa [hTop.binds, hKeys x] at hx

end ChipPascal
