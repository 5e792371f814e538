import ChipPascal.Check.Kinds
import ChipPascal.Proofs.Declarations

/-!
# What the check of kinds establishes

In a well-named program the check looks up nothing in vain. If it also reports nothing, every name
that is read is a variable, every name that is assigned is one that is not constant, and every
name that is called is a procedure, in the scope where it stands.
-/

namespace ChipPascal

namespace Findings

variable {ε : Type} {a b : Findings ε}

theorem append_fault_eq_none_iff : (a ++ b).fault = none ↔ a.fault = none ∧ b.fault = none := by
  obtain ⟨ra, _ | fa⟩ := a <;> simp [append_def, andThen]

theorem append_eq_clean_iff : a ++ b = clean ↔ a = clean ∧ b = clean := by
  obtain ⟨ra, _ | fa⟩ := a <;> obtain ⟨rb, fb⟩ := b <;>
    simp [append_def, andThen, clean, and_assoc]

theorem eq_clean (hReports : a.reports = []) (hFault : a.fault = none) : a = clean := by
  obtain ⟨reports, fault⟩ := a
  simp_all [clean]

end Findings

/-! ### Kinds of names -/

def lookIn (g l : Bindings Symbol) (name : String) : Option Symbol := (l.get? name).or (g.get? name)

section Kinds

variable (look : String → Option Symbol)

def Known (name : String) : Prop := (look name).isSome

def Readable (name : String) : Prop := ∃ info, look name = some (.var info)

def Writable (name : String) : Prop := ∃ info, look name = some (.var info) ∧ info.isConst = false

def Callable (name : String) : Prop := ∃ params, look name = some (.proc params)

def KnownBody (stmts : List Stmt) : Prop := StmtsUse (Known look) (Known look) (Known look) stmts

def KindedBody (stmts : List Stmt) : Prop :=
  StmtsUse (Readable look) (Writable look) (Callable look) stmts

end Kinds

/-- `P` holds of the body of every procedure, with what its names stand for, where `g` is bound
before the declarations. -/
def EveryBody (P : (String → Option Symbol) → List Stmt → Prop) (g : Bindings Symbol) :
    List Decl → Prop
  | [] => True
  | .var decl :: decls => EveryBody P (g.set decl.name.name (decl.symbol true)) decls
  | .proc proc :: decls =>
    P (lookIn (g.set proc.name.name (Decl.proc proc).symbol) (bindVars [] proc.vars))
        proc.body.stmts ∧
      EveryBody P (g.set proc.name.name (Decl.proc proc).symbol) decls

structure Program.Bodies (P : (String → Option Symbol) → List Stmt → Prop)
    (program : Program) : Prop where
  decls : EveryBody P builtinBindings program.decls
  body : P (lookIn (bindDecls builtinBindings program.decls) []) program.body.stmts

abbrev Program.WellKinded (program : Program) : Prop := program.Bodies KindedBody

/-- Every name in the body of a procedure is bound where the body is checked. -/
theorem NamedProc.known {ns : List String} {proc : ProcDecl} {g : Bindings Symbol}
    (hg : g.Keys ns) (h : NamedProc ns proc) :
    KnownBody (lookIn g (bindVars [] proc.vars)) proc.body.stmts := by
  have hKeys := foldl_set_keys (fun decl : VarDecl => decl.name.name) (·.symbol false) proc.vars
    (Bindings.keys_nil (α := Symbol))
  have hKnown : ∀ name, name ∈ (proc.vars.map (·.name.name)).reverse ++ ns →
      Known (lookIn g (bindVars [] proc.vars)) name := by
    intro name hName
    rw [Known, lookIn, Option.isSome_or, Bool.or_eq_true, hg name]
    rcases List.mem_append.mp hName with hVar | hOuter
    · exact .inl ((hKeys name).mpr (by simpa using hVar))
    · exact .inr hOuter
  exact StmtsUse.mono hKnown hKnown hKnown h.body

theorem NamedDecls.known {ns : List String} {decls : List Decl} {g : Bindings Symbol}
    (hg : g.Keys ns) (h : NamedDecls ns decls) : EveryBody KnownBody g decls := by
  induction decls generalizing ns g with
  | nil => trivial
  | cons decl decls ih =>
    cases decl with
    | var decl => exact ih (hg.set _ _) h.2.2
    | proc proc => exact ⟨h.2.1.known (hg.set _ _), ih (hg.set _ _) h.2.2⟩

theorem Program.WellNamed.known {program : Program} (h : program.WellNamed) :
    program.Bodies KnownBody := by
  have hKeys := foldl_set_keys Decl.name Decl.symbol program.decls (keys_builtins Builtin.symbol)
  refine ⟨h.decls.known (keys_builtins Builtin.symbol), ?_⟩
  have hKnown : ∀ name, name ∈ (program.decls.map (·.name)).reverse ++ builtinNames →
      Known (lookIn (bindDecls builtinBindings program.decls) []) name :=
    fun name hName => (hKeys name).mpr hName
  exact StmtsUse.mono hKnown hKnown hKnown h.body

/-! ### The check -/

namespace Kinds

variable {syms : Symbols} {g l : Bindings Symbol}

/-- An expression whose names are bound is checked without a fault. -/
theorem exprFindings_fault (e : Expr) (h : e.Reads (Known syms.get?)) :
    (exprFindings syms e).fault = none := by
  induction e with
  | ref name =>
    obtain ⟨symbol, hSymbol⟩ := Option.isSome_iff_exists.mp h
    simp only [exprFindings, readFindings, hSymbol]
    split <;> rfl
  | int text span => rfl
  | unary op operand span ih => exact ih h
  | binary op left right span ihl ihr =>
    exact Findings.append_fault_eq_none_iff.mpr ⟨ihl h.1, ihr h.2⟩

theorem exprsFindings_fault (es : List Expr) (h : ∀ e ∈ es, e.Reads (Known syms.get?)) :
    (exprsFindings syms es).fault = none := by
  induction es with
  | nil => rfl
  | cons e es ih =>
    exact Findings.append_fault_eq_none_iff.mpr
      ⟨exprFindings_fault e (h e (by simp)), ih fun e' he' => h e' (List.mem_cons_of_mem e he')⟩

theorem targetFindings_fault (name : Ident) (h : Known syms.get? name.name) :
    (targetFindings syms name).fault = none := by
  obtain ⟨symbol, hSymbol⟩ := Option.isSome_iff_exists.mp h
  cases symbol with
  | var info =>
    simp only [targetFindings, hSymbol]
    split <;> rfl
  | proc params => simp only [targetFindings, hSymbol]; rfl
  | type type => simp only [targetFindings, hSymbol]; rfl

theorem calleeFindings_fault (name : Ident) (h : Known syms.get? name.name) :
    (calleeFindings syms name).fault = none := by
  obtain ⟨symbol, hSymbol⟩ := Option.isSome_iff_exists.mp h
  simp only [calleeFindings, hSymbol]
  split <;> rfl

mutual

theorem stmtFindings_fault (stmt : Stmt)
    (h : stmt.Uses (Known syms.get?) (Known syms.get?) (Known syms.get?)) :
    (stmtFindings syms stmt).fault = none := by
  cases stmt with
  | block stmts span => exact stmtsFindings_fault stmts h
  | assign target value =>
    exact Findings.append_fault_eq_none_iff.mpr
      ⟨targetFindings_fault target h.1, exprFindings_fault value h.2⟩
  | call name args =>
    exact Findings.append_fault_eq_none_iff.mpr
      ⟨calleeFindings_fault name h.1, exprsFindings_fault args h.2⟩
  | ifThen cond yes span =>
    exact Findings.append_fault_eq_none_iff.mpr
      ⟨exprFindings_fault cond h.1, stmtFindings_fault yes h.2⟩
  | ifElse cond yes no span =>
    exact Findings.append_fault_eq_none_iff.mpr ⟨exprFindings_fault cond h.1,
      Findings.append_fault_eq_none_iff.mpr
        ⟨stmtFindings_fault yes h.2.1, stmtFindings_fault no h.2.2⟩⟩

theorem stmtsFindings_fault (stmts : List Stmt) (h : KnownBody syms.get? stmts) :
    (stmtsFindings syms stmts).fault = none := by
  cases stmts with
  | nil => rfl
  | cons stmt stmts =>
    exact Findings.append_fault_eq_none_iff.mpr
      ⟨stmtFindings_fault stmt h.1, stmtsFindings_fault stmts h.2⟩

end

theorem exprFindings_clean (e : Expr) (h : exprFindings syms e = .clean) :
    e.Reads (Readable syms.get?) := by
  induction e with
  | ref name =>
    simp only [exprFindings, readFindings] at h
    cases hSymbol : syms.get? name.name with
    | none => simp [hSymbol, Findings.stop, Findings.clean] at h
    | some symbol =>
      cases symbol with
      | var info => exact ⟨info, hSymbol⟩
      | proc params => simp [hSymbol, Symbol.isVar, Findings.report, Findings.clean] at h
      | type type => simp [hSymbol, Symbol.isVar, Findings.report, Findings.clean] at h
  | int text span => trivial
  | unary op operand span ih => exact ih h
  | binary op left right span ihl ihr =>
    obtain ⟨hl, hr⟩ := Findings.append_eq_clean_iff.mp h
    exact ⟨ihl hl, ihr hr⟩

theorem exprsFindings_clean (es : List Expr) (h : exprsFindings syms es = .clean) :
    ∀ e ∈ es, e.Reads (Readable syms.get?) := by
  induction es with
  | nil => simp
  | cons e es ih =>
    obtain ⟨hHead, hTail⟩ := Findings.append_eq_clean_iff.mp h
    intro e' he'
    rcases List.mem_cons.mp he' with rfl | he'
    · exact exprFindings_clean _ hHead
    · exact ih hTail e' he'

/-- A target without findings is a variable that is not constant. -/
theorem targetFindings_clean {name : Ident} (h : targetFindings syms name = .clean) :
    Writable syms.get? name.name := by
  simp only [targetFindings] at h
  split at h
  · simp [Findings.stop, Findings.clean] at h
  · next info hInfo =>
    split at h
    · simp [Findings.report, Findings.clean] at h
    · next hConst => exact ⟨info, hInfo, by simpa using hConst⟩
  · simp [Findings.report, Findings.clean] at h

theorem calleeFindings_clean {name : Ident} (h : calleeFindings syms name = .clean) :
    Callable syms.get? name.name := by
  simp only [calleeFindings] at h
  cases hSymbol : syms.get? name.name with
  | none => simp [hSymbol, Findings.stop, Findings.clean] at h
  | some symbol =>
    cases symbol with
    | proc params => exact ⟨params, hSymbol⟩
    | var info => simp [hSymbol, Symbol.isProc, Findings.report, Findings.clean] at h
    | type type => simp [hSymbol, Symbol.isProc, Findings.report, Findings.clean] at h

mutual

/-- A statement without findings uses each name as its kind allows. -/
theorem stmtFindings_clean (stmt : Stmt) (h : stmtFindings syms stmt = .clean) :
    stmt.Uses (Readable syms.get?) (Writable syms.get?) (Callable syms.get?) := by
  cases stmt with
  | block stmts span => exact stmtsFindings_clean stmts h
  | assign target value =>
    obtain ⟨hTarget, hValue⟩ := Findings.append_eq_clean_iff.mp h
    exact ⟨targetFindings_clean hTarget, exprFindings_clean value hValue⟩
  | call name args =>
    obtain ⟨hName, hArgs⟩ := Findings.append_eq_clean_iff.mp h
    exact ⟨calleeFindings_clean hName, exprsFindings_clean args hArgs⟩
  | ifThen cond yes span =>
    obtain ⟨hCond, hYes⟩ := Findings.append_eq_clean_iff.mp h
    exact ⟨exprFindings_clean cond hCond, stmtFindings_clean yes hYes⟩
  | ifElse cond yes no span =>
    obtain ⟨hCond, hRest⟩ := Findings.append_eq_clean_iff.mp h
    obtain ⟨hYes, hNo⟩ := Findings.append_eq_clean_iff.mp hRest
    exact ⟨exprFindings_clean cond hCond, stmtFindings_clean yes hYes, stmtFindings_clean no hNo⟩

theorem stmtsFindings_clean (stmts : List Stmt) (h : stmtsFindings syms stmts = .clean) :
    KindedBody syms.get? stmts := by
  cases stmts with
  | nil => trivial
  | cons stmt stmts =>
    obtain ⟨hHead, hTail⟩ := Findings.append_eq_clean_iff.mp h
    exact ⟨stmtFindings_clean stmt hHead, stmtsFindings_clean stmts hTail⟩

end

/-! ### Declarations -/

theorem declareVars_inside {vars : List VarDecl} (hs : syms.Inside g l)
    (h : ∀ decl ∈ vars, decl.valueType?.isSome) :
    (declareVars syms vars).2 = none ∧ (declareVars syms vars).1.Inside g (bindVars l vars) := by
  induction vars generalizing syms l with
  | nil => exact ⟨rfl, hs⟩
  | cons decl vars ih =>
    have hType := VarDecl.valueType_eq (h decl (by simp))
    have hBind : syms.bindVar decl decl.typeOf =
        syms.define decl.name.name (decl.symbol false) := by
      rw [Symbols.bindVar, hs.isGlobal, VarDecl.symbol]
    simp only [declareVars, declareVar, hType, hBind]
    exact ih (hs.define _ _) fun d hd => h d (List.mem_cons_of_mem decl hd)

theorem Inside.get?_eq (h : syms.Inside g l) : syms.get? = lookIn g l :=
  funext fun name => h.get? name

theorem AtTop.get?_eq (h : syms.AtTop g) : syms.get? = lookIn g [] :=
  funext fun name => h.get? name

theorem checkProc_atTop {ns : List String} {proc : ProcDecl} (hs : syms.AtTop g)
    (h : NamedProc ns proc) :
    (checkProc syms proc).1.AtTop (g.set proc.name.name (Decl.proc proc).symbol) ∧
      ∃ inner : Symbols,
        inner.get? = lookIn (g.set proc.name.name (Decl.proc proc).symbol)
          (bindVars [] proc.vars) ∧
        (checkProc syms proc).2 = stmtsFindings inner proc.body.stmts := by
  have hParams := valueTypes_eq fun decl hd =>
    h.vars.typed decl (List.mem_append_left proc.locals hd)
  have hTop := hs.define proc.name.name (Decl.proc proc).symbol
  obtain ⟨hNone, hInside⟩ := declareVars_inside hTop.openLocal h.vars.typed
  have hActive : (syms.define proc.name.name (Decl.proc proc).symbol).active = 0 := hTop.active
  have hCheck : checkProc syms proc =
      ((declareVars (syms.define proc.name.name (Decl.proc proc).symbol).openLocal
          proc.vars).1.enter (syms.define proc.name.name (Decl.proc proc).symbol).active,
        stmtsFindings (declareVars
          (syms.define proc.name.name (Decl.proc proc).symbol).openLocal proc.vars).1
          proc.body.stmts) := by
    simp only [checkProc, hParams, Decl.symbol] at hNone ⊢
    split
    · next hVars => simp [hVars] at hNone
    · next hVars => rw [hVars]
  rw [hCheck, hActive]
  exact ⟨hInside.enter, _, Inside.get?_eq hInside, rfl⟩

/-- The declarations are checked without a fault, and without findings each body uses its names as
their kinds allow. -/
theorem checkDecls_atTop {ns : List String} {decls : List Decl} (hs : syms.AtTop g)
    (hg : g.Keys ns) (h : NamedDecls ns decls) :
    (checkDecls syms decls).2.fault = none ∧
      (checkDecls syms decls).1.AtTop (bindDecls g decls) ∧
      ((checkDecls syms decls).2.reports = [] → EveryBody KindedBody g decls) := by
  induction decls generalizing syms g ns with
  | nil => exact ⟨rfl, hs, fun _ => trivial⟩
  | cons decl decls ih =>
    cases decl with
    | var decl =>
      have hType := VarDecl.valueType_eq h.2.1
      have hBind : syms.bindVar decl decl.typeOf =
          syms.define decl.name.name (decl.symbol true) := by
        rw [Symbols.bindVar, hs.isGlobal, VarDecl.symbol]
      have hStep : checkDecls syms (.var decl :: decls) =
          checkDecls (syms.define decl.name.name (decl.symbol true)) decls := by
        simp [checkDecls, checkDecl, declareVar, hType, hBind, Findings.ofFault,
          Findings.append_def, Findings.andThen]
      rw [hStep]
      exact ih (hs.define _ _) (hg.set _ _) h.2.2
    | proc proc =>
      obtain ⟨hTop, inner, hLook, hFindings⟩ := checkProc_atTop hs h.2.1
      have hKnown := h.2.1.known (hg.set proc.name.name (Decl.proc proc).symbol)
      rw [← hLook] at hKnown
      have hFault : (checkProc syms proc).2.fault = none := by
        rw [hFindings]
        exact stmtsFindings_fault _ hKnown
      obtain ⟨hFault', hTop', hKinded⟩ := ih hTop (hg.set _ _) h.2.2
      have hStep : checkDecls syms (.proc proc :: decls) =
          ((checkDecls (checkProc syms proc).1 decls).1,
            (checkProc syms proc).2 ++ (checkDecls (checkProc syms proc).1 decls).2) := by
        simp [checkDecls, checkDecl, hFault]
      rw [hStep]
      refine ⟨Findings.append_fault_eq_none_iff.mpr ⟨hFault, hFault'⟩, hTop', ?_⟩
      intro hReports
      simp only [Findings.append_def, Findings.andThen, hFault, List.append_eq_nil_iff] at hReports
      refine ⟨?_, hKinded hReports.2⟩
      rw [← hLook]
      apply stmtsFindings_clean
      rw [← hFindings]
      exact Findings.eq_clean hReports.1 hFault

end Kinds

open Kinds in
/-- In a well-named program the check of kinds comes to its end, and if it reports nothing, the
names are used as what they are. -/
theorem Program.WellNamed.checkKinds {program : Program} (h : program.WellNamed) :
    (checkKinds program).2.fault = none ∧
      ((ChipPascal.checkKinds program).2.reports = [] → program.WellKinded) := by
  obtain ⟨hFault, hTop, hKinded⟩ :=
    checkDecls_atTop (Scopes.atTop_withBuiltins Builtin.symbol) (keys_builtins _) h.decls
  have hLook := AtTop.get?_eq hTop
  have hBody := stmtsFindings_fault program.body.stmts (hLook ▸ h.known.body)
  refine ⟨Findings.append_fault_eq_none_iff.mpr ⟨hFault, hBody⟩, fun hReports => ?_⟩
  simp only [ChipPascal.checkKinds, Findings.append_def, Findings.andThen] at hReports
  have hFault' : (checkDecls .ofBuiltins program.decls).2.fault = none := hFault
  rw [hFault'] at hReports
  simp only [List.append_eq_nil_iff] at hReports
  refine ⟨hKinded hReports.1, ?_⟩
  exact hLook ▸ stmtsFindings_clean _ (Findings.eq_clean hReports.2 hBody)

end ChipPascal
