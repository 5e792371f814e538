import ChipPascal.Proofs.NameReport

/-!
# What names refer to

The bodies of a program are those of its procedures, in the order of the text, and its own. A name
in a body is read, assigned or called, and it refers to the nearest declaration of it: a variable of
the procedure around it, or else what was declared at the top level before, or else a builtin. None
of this mentions scopes.
-/

namespace ChipPascal

/-! ### Names in statements -/

inductive Access where
  | read
  | assigned
  | called
deriving DecidableEq

/-- Whether the target of an assignment comes before its value, as in the text, or after it, as it
is carried out. -/
inductive AssignOrder where
  | targetFirst
  | valueFirst

def AssignOrder.arrange {α : Type} : AssignOrder → α → List α → List α
  | .targetFirst, target, value => target :: value
  | .valueFirst, target, value => value ++ [target]

def Expr.accesses (e : Expr) : List (Access × Ident) := e.names.map fun name => (.read, name)

mutual

def Stmt.accesses (order : AssignOrder) : Stmt → List (Access × Ident)
  | .block stmts _ => accessesOfStmts order stmts
  | .assign target value => order.arrange (.assigned, target) value.accesses
  | .call name args => (.called, name) :: args.flatMap (·.accesses)
  | .ifThen cond yes _ => cond.accesses ++ yes.accesses order
  | .ifElse cond yes no _ => cond.accesses ++ (yes.accesses order ++ no.accesses order)

def accessesOfStmts (order : AssignOrder) : List Stmt → List (Access × Ident)
  | [] => []
  | stmt :: stmts => stmt.accesses order ++ accessesOfStmts order stmts

end

/-! ### Declarations -/

/-- What a name can refer to. With a variable of a procedure comes the place of the procedure among
the declarations of the program. -/
inductive Declaration where
  | builtin (builtin : Builtin)
  | global (decl : Decl)
  | param (proc : Nat) (decl : VarDecl)
  | inner (proc : Nat) (decl : VarDecl)

namespace Declaration

def name : Declaration → String
  | builtin b => b.name
  | global decl => decl.name
  | param _ decl | inner _ decl => decl.name.name

def proc? : Declaration → Option Nat
  | builtin _ | global _ => none
  | param proc _ | inner proc _ => some proc

def isVar : Declaration → Bool
  | builtin _ | global (.proc _) => false
  | global (.var _) | param .. | inner .. => true

def isConst : Declaration → Bool
  | builtin _ | global (.proc _) => false
  | global (.var decl) | param _ decl | inner _ decl => decl.isConst

def isProc : Declaration → Bool
  | builtin (.intrinsic _) | global (.proc _) => true
  | builtin (.type _) | global (.var _) | param .. | inner .. => false

/-- Where it stands and what it is called. Where nothing is wrong with the names of a program, no
place has two declarations of a name, so this tells its declarations apart. -/
def key (d : Declaration) : Option Nat × String := (d.proc?, d.name)

end Declaration

def ProcDecl.declarations (place : Nat) (proc : ProcDecl) : List Declaration :=
  proc.params.map (.param place) ++ proc.locals.map (.inner place)

/-- What lies in the reach of a body: what was declared at the top level up to it, and the procedure
that it is the body of. -/
structure Reach where
  globals : List Decl
  proc : Option (Nat × ProcDecl)

namespace Reach

def own (r : Reach) : List Declaration :=
  match r.proc with
  | some (place, proc) => proc.declarations place
  | none => []

def top (r : Reach) : List Declaration := Builtin.all.map .builtin ++ r.globals.map .global

def find? (r : Reach) (name : String) : Option Declaration :=
  (r.own ++ (r.globals.map Declaration.global ++ Builtin.all.map Declaration.builtin)).find?
    (·.name = name)

end Reach

/-! ### Bodies -/

structure Body where
  reach : Reach
  stmts : List Stmt

structure Use where
  access : Access
  name : Ident
  reach : Reach

namespace Use

def declaration? (u : Use) : Option Declaration := u.reach.find? u.name.name

def refersTo (u : Use) (d : Declaration) : Bool := u.declaration?.any (·.key = d.key)

end Use

def Reach.uses (r : Reach) (accesses : List (Access × Ident)) : List Use :=
  accesses.map fun a => ⟨a.1, a.2, r⟩

namespace Body

def uses (order : AssignOrder) (b : Body) : List Use :=
  b.reach.uses (accessesOfStmts order b.stmts)

def declared (b : Body) : List Declaration :=
  match b.reach.proc with
  | some (place, proc) => proc.declarations place
  | none => b.reach.globals.map .global

end Body

def ProcDecl.toBody (before : List Decl) (proc : ProcDecl) : Body :=
  ⟨⟨before ++ [.proc proc], some (before.length, proc)⟩, proc.body.stmts⟩

def Decl.bodies (before : List Decl) : Decl → List Body
  | .var _ => []
  | .proc decl => [decl.toBody before]

namespace Program

def mainBody (program : Program) : Body := ⟨⟨program.decls, none⟩, program.body.stmts⟩

def allBodies (program : Program) : List Body :=
  flatMapAfter (fun before decl => decl.bodies before) [] program.decls ++ [program.mainBody]

def uses (order : AssignOrder) (program : Program) : List Use :=
  program.allBodies.flatMap (·.uses order)

end Program

/-! ### The order of the text -/

theorem flatMapAfter_append {α β : Type} (f : List α → α → List β) (before xs ys : List α) :
    flatMapAfter f before (xs ++ ys) =
      flatMapAfter f before xs ++ flatMapAfter f (before ++ xs) ys := by
  induction xs generalizing before with
  | nil => simp [flatMapAfter]
  | cons x xs ih => simp [flatMapAfter, ih, List.append_assoc]

theorem mem_flatMapAfter {α β : Type} {f : List α → α → List β} {before xs : List α} {y : β}
    (h : y ∈ flatMapAfter f before xs) :
    ∃ pre x post, xs = pre ++ x :: post ∧ y ∈ f (before ++ pre) x := by
  induction xs generalizing before with
  | nil => cases h
  | cons x xs ih =>
    rcases List.mem_append.mp h with hHead | hRest
    · exact ⟨[], x, xs, rfl, by simpa using hHead⟩
    · obtain ⟨pre, z, post, rfl, hMem⟩ := ih hRest
      exact ⟨x :: pre, z, post, rfl, by simpa using hMem⟩

/-- A body is the one of the program or of a procedure among its declarations. -/
theorem Program.mem_allBodies {program : Program} {b : Body} (h : b ∈ program.allBodies) :
    b = program.mainBody ∨
      ∃ before proc after, program.decls = before ++ .proc proc :: after ∧
        b = proc.toBody before := by
  rcases List.mem_append.mp h with hProc | hMain
  · right
    obtain ⟨before, decl, after, hDecls, hMem⟩ := mem_flatMapAfter hProc
    cases decl with
    | var decl => cases hMem
    | proc proc => exact ⟨before, proc, after, hDecls, List.mem_singleton.mp hMem⟩
  · exact .inl (List.mem_singleton.mp hMain)

theorem NamedDecls.append {ns : List String} {xs ys : List Decl} :
    NamedDecls ns (xs ++ ys) ↔
      NamedDecls ns xs ∧ NamedDecls ((xs.map (·.name)).reverse ++ ns) ys := by
  induction xs generalizing ns with
  | nil => simp [NamedDecls]
  | cons decl xs ih =>
    cases decl <;> simp [NamedDecls, ih, Decl.name, and_assoc]

mutual

/-- The order within an assignment does not change what is accessed. -/
theorem mem_accesses_iff (order order' : AssignOrder) (stmt : Stmt) {a : Access × Ident} :
    a ∈ stmt.accesses order ↔ a ∈ stmt.accesses order' := by
  cases stmt with
  | block stmts span => exact mem_accessesOfStmts_iff order order' stmts
  | assign target value =>
    cases order <;> cases order' <;>
      simp [Stmt.accesses, AssignOrder.arrange, or_comm]
  | call name args => exact Iff.rfl
  | ifThen cond yes span =>
    simp only [Stmt.accesses, List.mem_append, mem_accesses_iff order order' yes]
  | ifElse cond yes no span =>
    simp only [Stmt.accesses, List.mem_append, mem_accesses_iff order order' yes,
      mem_accesses_iff order order' no]

theorem mem_accessesOfStmts_iff (order order' : AssignOrder) (stmts : List Stmt)
    {a : Access × Ident} :
    a ∈ accessesOfStmts order stmts ↔ a ∈ accessesOfStmts order' stmts := by
  cases stmts with
  | nil => exact Iff.rfl
  | cons stmt stmts =>
    simp only [accessesOfStmts, List.mem_append, mem_accesses_iff order order' stmt,
      mem_accessesOfStmts_iff order order' stmts]

end

/-- In whichever order, a program has the same names. -/
theorem Program.mem_uses_iff (program : Program) (order order' : AssignOrder) {u : Use} :
    u ∈ program.uses order ↔ u ∈ program.uses order' := by
  simp only [Program.uses, List.mem_flatMap, Body.uses, Reach.uses, List.mem_map]
  refine exists_congr fun b => and_congr_right fun _ => exists_congr fun a => ?_
  rw [mem_accessesOfStmts_iff order order']

/-! ### Bindings by key -/

section Keys

variable {α β : Type} {xs : List β} {key : β → String}

theorem get?_map (xs : List β) (key : β → String) (value : β → α) (name : String) :
    Bindings.get? (xs.map fun x => (key x, value x)) name =
      (xs.find? fun x => key x = name).map value := by
  induction xs with
  | nil => rfl
  | cons x xs ih => by_cases h : key x = name <;> simp [Bindings.get?, h, ih]

theorem find?_of_nodup {κ : Type} [DecidableEq κ] {key : β → κ} (h : (xs.map key).Nodup) {x : β}
    (hx : x ∈ xs) : (xs.find? fun y => key y = key x) = some x := by
  induction xs with
  | nil => cases hx
  | cons y ys ih =>
    rw [List.map_cons, List.nodup_cons] at h
    rcases List.mem_cons.mp hx with rfl | hMem
    · simp
    · have hNe : key y ≠ key x := fun hEq => h.1 (hEq ▸ List.mem_map_of_mem hMem)
      simp [hNe, ih h.2 hMem]

theorem eq_of_nodup_map {κ : Type} [DecidableEq κ] {key : β → κ} (h : (xs.map key).Nodup)
    {x y : β} (hx : x ∈ xs) (hy : y ∈ xs) (hKey : key x = key y) : x = y := by
  have hFind := find?_of_nodup h hx
  rw [hKey, find?_of_nodup h hy] at hFind
  exact (Option.some.inj hFind).symm

theorem Bindings.set_map_of_notMem {value : β → α} {name : String} (h : name ∉ xs.map key)
    {x : α} :
    Bindings.set (xs.map fun y => (key y, value y)) name x =
      (xs.map fun y => (key y, value y)) ++ [(name, x)] := by
  induction xs with
  | nil => rfl
  | cons y ys ih =>
    simp only [List.map_cons, List.mem_cons, not_or] at h
    simp [Bindings.set, Ne.symm h.1, ih h.2]

theorem Bindings.set_map_of_nodup {value : β → α} {name : String} (h : (xs.map key).Nodup)
    (hName : name ∈ xs.map key) {x : α} :
    Bindings.set (xs.map fun y => (key y, value y)) name x =
      xs.map fun y => (key y, if key y = name then x else value y) := by
  induction xs with
  | nil => cases hName
  | cons y ys ih =>
    rw [List.map_cons, List.nodup_cons] at h
    by_cases hy : key y = name
    · have hRest : ∀ z ∈ ys, key z ≠ name := fun z hz hEq =>
        h.1 (hy ▸ hEq ▸ List.mem_map_of_mem hz)
      simp only [List.map_cons, Bindings.set, if_pos hy, List.cons.injEq, true_and]
      exact List.map_congr_left fun z hz => by rw [if_neg (hRest z hz)]
    · have hMem : name ∈ ys.map key := by
        rcases List.mem_cons.mp hName with rfl | hMem
        · exact absurd rfl hy
        · exact hMem
      simp [Bindings.set, hy, ih h.2 hMem]

end Keys

/-! ### Names in reach -/

namespace ProcDecl

theorem map_name_declarations (place : Nat) (proc : ProcDecl) :
    (proc.declarations place).map (·.name) = proc.vars.map (·.name.name) := by
  simp [declarations, vars, Declaration.name, Function.comp_def]

theorem proc?_of_mem_declarations {place : Nat} {proc : ProcDecl} {d : Declaration}
    (h : d ∈ proc.declarations place) : d.proc? = some place := by
  simp only [declarations, List.mem_append, List.mem_map] at h
  obtain ⟨decl, -, rfl⟩ | ⟨decl, -, rfl⟩ := h <;> rfl

end ProcDecl

namespace Reach

variable {r : Reach} {name : String} {d : Declaration}

/-- What a procedure declares is told apart by the place of the procedure. -/
theorem proc?_of_mem_own (h : d ∈ r.own) : ∃ p, r.proc = some p ∧ d.proc? = some p.1 := by
  obtain ⟨globals, _ | ⟨place, proc⟩⟩ := r
  · cases h
  · exact ⟨_, rfl, ProcDecl.proc?_of_mem_declarations h⟩

theorem proc?_of_mem_top (h : d ∈ r.top) : d.proc? = none := by
  simp only [top, List.mem_append, List.mem_map] at h
  obtain ⟨b, -, rfl⟩ | ⟨decl, -, rfl⟩ := h <;> rfl

theorem map_name_top (r : Reach) :
    r.top.map (·.name) = builtinNames ++ r.globals.map (·.name) := by
  simp [top, builtinNames, Declaration.name, Function.comp_def]

/-- A name refers to a variable of the procedure, or there is none of this name and it refers to
something at the top level. -/
theorem find?_cases (h : r.find? name = some d) :
    d.name = name ∧ (d ∈ r.own ∨ name ∉ r.own.map (·.name) ∧ d ∈ r.top) := by
  have hName : d.name = name := by simpa using List.find?_some h
  refine ⟨hName, ?_⟩
  rw [find?, List.find?_append, Option.or_eq_some_iff] at h
  rcases h with hOwn | ⟨hNone, hRest⟩
  · exact .inl (List.mem_of_find?_eq_some hOwn)
  · refine .inr ⟨?_, ?_⟩
    · rintro hMem
      obtain ⟨other, hOther, rfl⟩ := List.mem_map.mp hMem
      simpa using List.find?_eq_none.mp hNone other hOther
    · have hMem := List.mem_of_find?_eq_some hRest
      rw [top]
      exact List.mem_append.mpr (List.mem_append.mp hMem).symm

@[simp] theorem uses_append (r : Reach) (xs ys : List (Access × Ident)) :
    r.uses (xs ++ ys) = r.uses xs ++ r.uses ys :=
  List.map_append

def Sees (r : Reach) (name : String) : Prop := (r.find? name).isSome

theorem sees_iff : r.Sees name ↔ name ∈ r.own.map (·.name) ++ r.top.map (·.name) := by
  simp only [Sees, find?, List.find?_isSome, top, List.mem_append, List.mem_map, decide_eq_true_eq,
    List.map_append]
  grind

/-- Each of the two scopes declares its names once. -/
structure WellNamed (r : Reach) : Prop where
  own : (r.own.map (·.name)).Nodup
  top : (r.top.map (·.name)).Nodup

end Reach

/-! ### Bodies of well-named programs -/

structure Body.WellNamed (b : Body) : Prop where
  reach : b.reach.WellNamed
  stmts : StmtsUse b.reach.Sees b.reach.Sees b.reach.Sees b.stmts

theorem nodup_top {decls : List Decl} (h : NamedDecls builtinNames decls) :
    (builtinNames ++ decls.map (·.name)).Nodup := by
  have hBuiltins : builtinNames.Nodup := by decide
  obtain ⟨hNodup, hApart⟩ := h.nodup
  refine List.nodup_append.mpr ⟨hBuiltins, hNodup, ?_⟩
  rintro name hName _ hOther rfl
  obtain ⟨decl, hDecl, rfl⟩ := List.mem_map.mp hOther
  exact hApart decl hDecl hName

/-- The body of a procedure is well named after the declarations before it and its own. -/
theorem ProcDecl.wellNamed_toBody {before : List Decl} {proc : ProcDecl}
    (h : NamedDecls builtinNames (before ++ [.proc proc])) : (proc.toBody before).WellNamed := by
  obtain ⟨-, -, hProc, -⟩ := NamedDecls.append.mp h
  refine ⟨⟨?_, ?_⟩, ?_⟩
  · show ((proc.declarations before.length).map (·.name)).Nodup
    rw [ProcDecl.map_name_declarations]
    exact hProc.vars.nodup.1
  · rw [Reach.map_name_top]
    exact nodup_top h
  · have hSees : ∀ name, name ∈ (proc.vars.map (·.name.name)).reverse ++
        (proc.name.name :: ((before.map (·.name)).reverse ++ builtinNames)) →
        (proc.toBody before).reach.Sees name := by
      intro name hName
      have hOwn : (proc.toBody before).reach.own.map (·.name) = proc.vars.map (·.name.name) :=
        proc.map_name_declarations before.length
      rw [Reach.sees_iff, Reach.map_name_top, hOwn]
      simp only [toBody, List.map_append, List.map_cons, List.map_nil, List.mem_append,
        List.mem_reverse, List.mem_cons, Decl.name, List.not_mem_nil, or_false] at hName ⊢
      grind
    exact StmtsUse.mono hSees hSees hSees hProc.body

theorem Program.WellNamed.mainBody {program : Program} (h : program.WellNamed) :
    program.mainBody.WellNamed := by
  refine ⟨⟨List.nodup_nil, ?_⟩, ?_⟩
  · rw [Reach.map_name_top]
    exact nodup_top h.decls
  · have hSees : ∀ name, name ∈ (program.decls.map (·.name)).reverse ++ builtinNames →
        program.mainBody.reach.Sees name := by
      intro name hName
      rw [Reach.sees_iff, Reach.map_name_top]
      simp only [Program.mainBody, List.mem_append, List.mem_reverse] at hName ⊢
      grind
    exact StmtsUse.mono hSees hSees hSees h.body

end ChipPascal
