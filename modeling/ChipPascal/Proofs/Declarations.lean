import ChipPascal.Proofs.ScopeChain
import ChipPascal.Symbols

/-!
# Declarations and the names in their reach

`WellNamed` says of a program, without scopes, that every scope declares its names once, that all
types are known, and that every name used has been declared before. The bindings to which the
declarations of such a program lead are the declarations themselves, looked up by name.
-/

namespace ChipPascal

/-! ### Names used in statements -/

def Expr.Reads (read : String → Prop) : Expr → Prop
  | .ref name => read name.name
  | .int _ _ => True
  | .unary _ operand _ => operand.Reads read
  | .binary _ left right _ => left.Reads read ∧ right.Reads read

mutual

/-- All names read, assigned and called in a statement satisfy `read`, `write` and `call`. -/
def Stmt.Uses (read write call : String → Prop) : Stmt → Prop
  | .block stmts _ => StmtsUse read write call stmts
  | .assign target value => write target.name ∧ value.Reads read
  | .call name args => call name.name ∧ ∀ arg ∈ args, arg.Reads read
  | .ifThen cond yes _ => cond.Reads read ∧ yes.Uses read write call
  | .ifElse cond yes no _ =>
    cond.Reads read ∧ yes.Uses read write call ∧ no.Uses read write call

def StmtsUse (read write call : String → Prop) : List Stmt → Prop
  | [] => True
  | stmt :: stmts => stmt.Uses read write call ∧ StmtsUse read write call stmts

end

theorem Expr.Reads.mono {read read' : String → Prop} (h : ∀ name, read name → read' name)
    {e : Expr} (he : e.Reads read) : e.Reads read' := by
  induction e with
  | ref name => exact h _ he
  | int text span => trivial
  | unary op operand span ih => exact ih he
  | binary op left right span ihl ihr => exact ⟨ihl he.1, ihr he.2⟩

section Uses

variable {read write call read' write' call' : String → Prop}

mutual

theorem Stmt.Uses.mono (hr : ∀ name, read name → read' name)
    (hw : ∀ name, write name → write' name) (hc : ∀ name, call name → call' name) :
    {stmt : Stmt} → stmt.Uses read write call → stmt.Uses read' write' call'
  | .block _ _, h => StmtsUse.mono hr hw hc h
  | .assign _ _, h => ⟨hw _ h.1, h.2.mono hr⟩
  | .call _ _, h => ⟨hc _ h.1, fun arg hArg => (h.2 arg hArg).mono hr⟩
  | .ifThen _ _ _, h => ⟨h.1.mono hr, h.2.mono hr hw hc⟩
  | .ifElse _ _ _ _, h => ⟨h.1.mono hr, h.2.1.mono hr hw hc, h.2.2.mono hr hw hc⟩

theorem StmtsUse.mono (hr : ∀ name, read name → read' name)
    (hw : ∀ name, write name → write' name) (hc : ∀ name, call name → call' name) :
    {stmts : List Stmt} → StmtsUse read write call stmts → StmtsUse read' write' call' stmts
  | [], _ => trivial
  | _ :: _, h => ⟨h.1.mono hr hw hc, StmtsUse.mono hr hw hc h.2⟩

end

end Uses

/-! ### What declarations bind -/

def VarDecl.valueType? (decl : VarDecl) : Option ValueType := ValueType.ofKeyword? decl.type.name

def VarDecl.typeOf (decl : VarDecl) : ValueType := decl.valueType?.getD .integer

def VarDecl.symbol (decl : VarDecl) (isGlobal : Bool) : Symbol :=
  .var (.declared decl.typeOf isGlobal decl.isConst)

namespace Decl

def name : Decl → String
  | .var decl => decl.name.name
  | .proc decl => decl.name.name

def symbol : Decl → Symbol
  | .var decl => decl.symbol true
  | .proc decl => .proc (decl.params.map (·.typeOf))

end Decl

theorem VarDecl.valueType_eq {decl : VarDecl} (h : decl.valueType?.isSome) :
    decl.valueType = .ok decl.typeOf := by
  obtain ⟨type, hType⟩ := Option.isSome_iff_exists.mp h
  have hKeyword : ValueType.ofKeyword? decl.type.name = some type := hType
  simp [VarDecl.valueType, VarDecl.typeOf, hType, hKeyword]

theorem valueTypes_eq {decls : List VarDecl} (h : ∀ decl ∈ decls, decl.valueType?.isSome) :
    valueTypes decls = .ok (decls.map (·.typeOf)) := by
  induction decls with
  | nil => rfl
  | cons decl decls ih =>
    have hHead := VarDecl.valueType_eq (h decl (by simp))
    have hTail := ih fun d hd => h d (List.mem_cons_of_mem decl hd)
    simp [valueTypes, hHead, hTail, Except.map]

def builtinNames : List String := Builtin.all.map (·.name)

def builtinBindings : Bindings Symbol := Builtin.all.map fun b => (b.name, b.symbol)

theorem get?_map_isSome {α β : Type} (xs : List β) (key : β → String) (value : β → α)
    (name : String) :
    (Bindings.get? (xs.map fun b => (key b, value b)) name).isSome ↔ name ∈ xs.map key := by
  induction xs with
  | nil => simp [Bindings.get?]
  | cons x xs ih =>
    by_cases h : key x = name
    · simp [Bindings.get?, h]
    · simp only [List.map_cons, Bindings.get?, h, if_false, ih, List.mem_cons, false_or,
        Ne.symm h]

theorem keys_builtins {α : Type} (value : Builtin → α) :
    Bindings.Keys (Builtin.all.map fun b => (b.name, value b)) builtinNames :=
  fun name => get?_map_isSome Builtin.all (·.name) value name

def bindVars (l : Bindings Symbol) (vars : List VarDecl) : Bindings Symbol :=
  vars.foldl (fun l decl => l.set decl.name.name (decl.symbol false)) l

def bindDecls (g : Bindings Symbol) (decls : List Decl) : Bindings Symbol :=
  decls.foldl (fun g decl => g.set decl.name decl.symbol) g

theorem foldl_set_get?_of_notMem {β α : Type} (key : β → String) (value : β → α) (xs : List β)
    (g : Bindings α) {name : String} (h : name ∉ xs.map key) :
    (xs.foldl (fun g x => g.set (key x) (value x)) g).get? name = g.get? name := by
  induction xs generalizing g with
  | nil => rfl
  | cons x xs ih =>
    simp only [List.map_cons, List.mem_cons, not_or] at h
    rw [List.foldl_cons, ih _ h.2, Bindings.get?_set_of_ne _ _ h.1]

/-- Of several bindings made one after the other under different names, each stays in force. -/
theorem foldl_set_get? {β α : Type} (key : β → String) (value : β → α) (xs : List β)
    (g : Bindings α) (name : String) (hxs : (xs.map key).Nodup) :
    (xs.foldl (fun g x => g.set (key x) (value x)) g).get? name =
      ((xs.find? fun x => key x = name).map value).or (g.get? name) := by
  induction xs generalizing g with
  | nil => rfl
  | cons x xs ih =>
    rw [List.map_cons, List.nodup_cons] at hxs
    rw [List.foldl_cons]
    by_cases h : key x = name
    · subst h
      rw [foldl_set_get?_of_notMem key value xs _ hxs.1, Bindings.get?_set_self]
      simp
    · rw [ih _ hxs.2, Bindings.get?_set_of_ne _ _ (Ne.symm h)]
      simp [h]

theorem foldl_set_keys {β α : Type} (key : β → String) (value : β → α) (xs : List β)
    {g : Bindings α} {ns : List String} (hg : g.Keys ns) :
    (xs.foldl (fun g x => g.set (key x) (value x)) g).Keys ((xs.map key).reverse ++ ns) := by
  induction xs generalizing g ns with
  | nil => simpa using hg
  | cons x xs ih => simpa using ih (hg.set (key x) (value x))

/-! ### Well-named programs -/

/-- The variables have names of their own and known types, where `ns` are taken already. -/
def NamedVars (ns : List String) : List VarDecl → Prop
  | [] => True
  | decl :: decls =>
    decl.name.name ∉ ns ∧ decl.valueType?.isSome ∧ NamedVars (decl.name.name :: ns) decls

def BodyNamed (ns : List String) (stmts : List Stmt) : Prop :=
  StmtsUse (· ∈ ns) (· ∈ ns) (· ∈ ns) stmts

/-- A procedure whose name and outer scope are `ns` declares its variables once each, and its body
uses only these and `ns`. -/
structure NamedProc (ns : List String) (proc : ProcDecl) : Prop where
  vars : NamedVars [] proc.vars
  body : BodyNamed ((proc.vars.map (·.name.name)).reverse ++ ns) proc.body.stmts

/-- The declarations are in order where the global names `ns` come before them. -/
def NamedDecls (ns : List String) : List Decl → Prop
  | [] => True
  | .var decl :: decls =>
    decl.name.name ∉ ns ∧ decl.valueType?.isSome ∧ NamedDecls (decl.name.name :: ns) decls
  | .proc proc :: decls =>
    proc.name.name ∉ ns ∧ NamedProc (proc.name.name :: ns) proc ∧
      NamedDecls (proc.name.name :: ns) decls

structure Program.WellNamed (program : Program) : Prop where
  decls : NamedDecls builtinNames program.decls
  body : BodyNamed ((program.decls.map (·.name)).reverse ++ builtinNames) program.body.stmts

/-- The variables of a list differ from each other and from the names that are taken. -/
theorem NamedVars.nodup {ns : List String} {vars : List VarDecl} (h : NamedVars ns vars) :
    (vars.map (·.name.name)).Nodup ∧ ∀ decl ∈ vars, decl.name.name ∉ ns := by
  induction vars generalizing ns with
  | nil => simp
  | cons decl vars ih =>
    obtain ⟨hFresh, -, hRest⟩ := h
    obtain ⟨hNodup, hApart⟩ := ih hRest
    refine ⟨?_, ?_⟩
    · rw [List.map_cons, List.nodup_cons]
      refine ⟨?_, hNodup⟩
      intro hMem
      obtain ⟨other, hOther, hName⟩ := List.mem_map.mp hMem
      exact hApart other hOther (by rw [hName]; exact List.mem_cons_self)
    · intro other hOther
      rcases List.mem_cons.mp hOther with rfl | hOther
      · exact hFresh
      · exact fun hMem => hApart other hOther (List.mem_cons_of_mem _ hMem)

theorem NamedVars.typed {ns : List String} {vars : List VarDecl} (h : NamedVars ns vars) :
    ∀ decl ∈ vars, decl.valueType?.isSome := by
  induction vars generalizing ns with
  | nil => simp
  | cons decl vars ih =>
    intro other hOther
    rcases List.mem_cons.mp hOther with rfl | hOther
    · exact h.2.1
    · exact ih h.2.2 other hOther

/-- The declarations differ in name from each other and from the names that are taken. -/
theorem NamedDecls.nodup {ns : List String} {decls : List Decl} (h : NamedDecls ns decls) :
    (decls.map (·.name)).Nodup ∧ ∀ decl ∈ decls, decl.name ∉ ns := by
  induction decls generalizing ns with
  | nil => simp
  | cons decl decls ih =>
    have hParts : decl.name ∉ ns ∧ NamedDecls (decl.name :: ns) decls := by
      cases decl with
      | var decl => exact ⟨h.1, h.2.2⟩
      | proc proc => exact ⟨h.1, h.2.2⟩
    obtain ⟨hNodup, hApart⟩ := ih hParts.2
    refine ⟨?_, ?_⟩
    · rw [List.map_cons, List.nodup_cons]
      refine ⟨?_, hNodup⟩
      intro hMem
      obtain ⟨other, hOther, hName⟩ := List.mem_map.mp hMem
      exact hApart other hOther (by rw [hName]; exact List.mem_cons_self)
    · intro other hOther
      rcases List.mem_cons.mp hOther with rfl | hOther
      · exact hParts.1
      · exact fun hMem => hApart other hOther (List.mem_cons_of_mem _ hMem)

end ChipPascal
