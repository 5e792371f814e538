import ChipPascal.Proofs.SymbolAgreement

/-!
# What a pass leaves behind

The check of kinds and the lowering walk over the declarations of a program, and stop at the first
fault. It may come up anywhere: in the head of a procedure, among its variables or deep in its
body. In any case the global scope is active again afterwards, and binds what was declared up to
there. Nothing of a procedure is left in it but the procedure.
-/

namespace ChipPascal

open Lowering Line

namespace Decl

def head : Decl → List VarDecl
  | .var decl => [decl]
  | .proc decl => decl.params

def headKnown (decl : Decl) : Bool := decl.head.all (·.valueType?.isSome)

end Decl

def faultOf {α : Type} : Except Fault α → Option Fault
  | .error fault => some fault
  | .ok _ => none

/-! ### How far a pass gets -/

/-- A pass over `decls` with this outcome binds `bound`. `fault?` is the fault that declarations
have by themselves. -/
inductive PassBinds (fault? : List Decl → Option Fault) (outcome : Option Fault)
    (decls : List Decl) : List Decl → Prop
  | all : fault? decls = none → PassBinds fault? outcome decls decls
  /-- The declaration that fails is still bound if its head is in order. A variable has nothing but
  a head. -/
  | upTo {done later : List Decl} {failed : Decl} {fault : Fault} :
      decls = done ++ failed :: later → fault? done = none →
      fault? (done ++ [failed]) = some fault → outcome = some fault →
      (failed.headKnown → ∃ proc, failed = .proc proc) →
      PassBinds fault? outcome decls (done ++ if failed.headKnown then [failed] else [])

/-- The global scope is active. It binds what the pass has come to, the last declaration of a name
being in force, and otherwise what it bound before. -/
structure Restored (fault? : List Decl → Option Fault) (outcome : Option Fault)
    (decls : List Decl) (before : Bindings Symbol) (after : Symbols) : Prop where
  active : after.active = 0
  bound : ∃ bound, PassBinds fault? outcome decls bound ∧ (∀ decl ∈ bound, decl.headKnown) ∧
    ∀ name, (after.bindingsAt 0).get? name =
      ((bound.reverse.find? (·.name = name)).map (·.symbol)).or (before.get? name)

section PassBinds

variable {fault? rest? : List Decl → Option Fault} {outcome outcome' : Option Fault}
  {decls bound : List Decl}

theorem PassBinds.imp (h : PassBinds fault? outcome decls bound)
    (hOutcome : ∀ fault, outcome = some fault → outcome' = some fault) :
    PassBinds fault? outcome' decls bound := by
  cases h with
  | all hNone => exact .all hNone
  | upTo hDecls hDone hFailed hFault hProc =>
    exact .upTo hDecls hDone hFailed (hOutcome _ hFault) hProc

theorem PassBinds.cons (h : PassBinds rest? outcome decls bound) {decl : Decl}
    (hStep : ∀ decls, fault? (decl :: decls) = rest? decls) :
    PassBinds fault? outcome (decl :: decls) (decl :: bound) := by
  cases h with
  | all hNone => exact .all ((hStep decls).trans hNone)
  | upTo hDecls hDone hFailed hFault hProc =>
    exact .upTo (congrArg (decl :: ·) hDecls) ((hStep _).trans hDone) ((hStep _).trans hFailed)
      hFault hProc

end PassBinds

theorem get?_bindDecls_reverse (g : Bindings Symbol) (decls : List Decl) (name : String) :
    (bindDecls g decls).get? name =
      ((decls.reverse.find? (·.name = name)).map (·.symbol)).or (g.get? name) := by
  induction decls generalizing g with
  | nil => rfl
  | cons decl decls ih =>
    have hStep : bindDecls g (decl :: decls) = bindDecls (g.set decl.name decl.symbol) decls := rfl
    rw [hStep, ih, List.reverse_cons, List.find?_append]
    cases decls.reverse.find? (·.name = name) with
    | some last => simp
    | none =>
      by_cases hName : decl.name = name
      · simp [hName, Bindings.get?_set_self]
      · simp [hName, Bindings.get?_set_of_ne _ _ (Ne.symm hName)]

/-! ### Walks over declarations -/

section Walk

variable {σ : Type} {step : σ → Decl → σ × Option Fault} {At : Bindings Symbol → σ → Prop}
  {g : Bindings Symbol} {s : σ}

def walk (step : σ → Decl → σ × Option Fault) (s : σ) : List Decl → σ × Option Fault
  | [] => (s, none)
  | decl :: decls =>
    match (step s decl).2 with
    | some fault => ((step s decl).1, some fault)
    | none => walk step (step s decl).1 decls

theorem walk_of_fault {decl : Decl} {fault : Fault} (h : (step s decl).2 = some fault)
    (decls : List Decl) : walk step s (decl :: decls) = ((step s decl).1, some fault) := by
  simp only [walk, h]

theorem walk_of_none {decl : Decl} (h : (step s decl).2 = none) (decls : List Decl) :
    walk step s (decl :: decls) = walk step (step s decl).1 decls := by
  simp only [walk, h]

/-- A step binds its declaration if the head is in order, and otherwise does nothing. Here `At g`
holds of the states in which the global bindings are `g`. -/
structure BindsDecls (At : Bindings Symbol → σ → Prop) (step : σ → Decl → σ × Option Fault) :
    Prop where
  known : ∀ {g s decl}, decl.headKnown → At g s → At (g.set decl.name decl.symbol) (step s decl).1
  unknown : ∀ {decl}, ¬decl.headKnown → ∀ s, ∃ fault, step s decl = (s, some fault)
  var : ∀ {decl}, (Decl.var decl).headKnown → ∀ s, (step s (.var decl)).2 = none

/-- A walk binds declarations up to the first that fails, and is back at the top level then. -/
theorem BindsDecls.walk (hStep : BindsDecls At step) (hs : At g s) (decls : List Decl) :
    ∃ bound, PassBinds (fun decls => (walk step s decls).2) (walk step s decls).2 decls bound ∧
      (∀ decl ∈ bound, decl.headKnown) ∧ At (bindDecls g bound) (walk step s decls).1 := by
  induction decls generalizing g s with
  | nil => exact ⟨[], .all rfl, nofun, hs⟩
  | cons decl decls ih =>
    cases hFault : (step s decl).2 with
    | some fault =>
      have hOne := walk_of_fault hFault []
      have hBinds : PassBinds (fun decls => (ChipPascal.walk step s decls).2) (some fault)
          (decl :: decls) ([] ++ if decl.headKnown then [decl] else []) := by
        refine @PassBinds.upTo _ _ _ [] decls decl fault rfl rfl (congrArg Prod.snd hOne) rfl ?_
        intro hKnown
        cases decl with
        | proc proc => exact ⟨proc, rfl⟩
        | var var => exact absurd (hStep.var hKnown s) (by rw [hFault]; nofun)
      rw [walk_of_fault hFault decls]
      refine ⟨_, hBinds, ?_⟩
      by_cases hKnown : decl.headKnown
      · rw [if_pos hKnown]
        exact ⟨by simpa using hKnown, hStep.known hKnown hs⟩
      · obtain ⟨_, hSame⟩ := hStep.unknown hKnown s
        rw [if_neg hKnown, hSame]
        exact ⟨nofun, hs⟩
    | none =>
      have hKnown : decl.headKnown := by
        by_cases hKnown : decl.headKnown
        · exact hKnown
        · obtain ⟨fault, hSame⟩ := hStep.unknown hKnown s
          simp [hSame] at hFault
      obtain ⟨bound, hBinds, hAll, hAt⟩ := ih (hStep.known hKnown hs)
      rw [walk_of_none hFault decls]
      refine ⟨decl :: bound, hBinds.cons fun decls => ?_, ?_, hAt⟩
      · rw [walk_of_none hFault decls]
      · exact List.forall_mem_cons.mpr ⟨hKnown, hAll⟩

end Walk

/-! ### Heads -/

theorem VarDecl.exists_error {decl : VarDecl} (h : ¬decl.valueType?.isSome) :
    ∃ fault, decl.valueType = .error fault := by
  have hKeyword : ValueType.ofKeyword? decl.type.name = none := Option.not_isSome_iff_eq_none.mp h
  exact ⟨_, by rw [VarDecl.valueType, hKeyword]⟩

theorem exists_valueTypes_error {decls : List VarDecl}
    (h : ¬∀ decl ∈ decls, decl.valueType?.isSome) : ∃ fault, valueTypes decls = .error fault := by
  induction decls with
  | nil => exact absurd nofun h
  | cons decl decls ih =>
    by_cases hDecl : decl.valueType?.isSome
    · have hRest : ¬∀ decl ∈ decls, decl.valueType?.isSome := fun hAll =>
        h (List.forall_mem_cons.mpr ⟨hDecl, hAll⟩)
      obtain ⟨fault, hFault⟩ := ih hRest
      exact ⟨fault, by simp [valueTypes, VarDecl.valueType_eq hDecl, hFault, Except.map]⟩
    · obtain ⟨fault, hFault⟩ := VarDecl.exists_error hDecl
      exact ⟨fault, by simp [valueTypes, hFault]⟩

theorem Decl.headKnown_var (decl : VarDecl) :
    (Decl.var decl).headKnown = true ↔ decl.valueType?.isSome := by
  simp [headKnown, head]

theorem Decl.headKnown_proc (decl : ProcDecl) :
    (Decl.proc decl).headKnown = true ↔ ∀ param ∈ decl.params, param.valueType?.isSome := by
  simp [headKnown, head]

/-! ### The check of kinds -/

namespace Kinds

variable {syms : Symbols} {g l : Bindings Symbol}

def step (syms : Symbols) (decl : Decl) : Symbols × Option Fault :=
  ((checkDecl syms decl).1, (checkDecl syms decl).2.fault)

theorem walk_step (syms : Symbols) (decls : List Decl) :
    walk step syms decls = ((checkDecls syms decls).1, (checkDecls syms decls).2.fault) := by
  induction decls generalizing syms with
  | nil => rfl
  | cons decl decls ih =>
    have hStep : (step syms decl).2 = (checkDecl syms decl).2.fault := rfl
    cases hFault : (checkDecl syms decl).2.fault with
    | some fault =>
      rw [walk_of_fault (hStep.trans hFault)]
      simp [checkDecls, step, hFault]
    | none =>
      rw [walk_of_none (hStep.trans hFault), ih]
      simp [checkDecls, step, hFault, Findings.append_def, Findings.andThen]

theorem declareVar_of_known {decl : VarDecl} (h : decl.valueType?.isSome) :
    declareVar syms decl = (syms.bindVar decl decl.typeOf, none) := by
  simp only [declareVar, VarDecl.valueType_eq h]

theorem declareVar_of_unknown {decl : VarDecl} (h : ¬decl.valueType?.isSome) (syms : Symbols) :
    ∃ fault, declareVar syms decl = (syms, some fault) := by
  obtain ⟨fault, hFault⟩ := VarDecl.exists_error h
  exact ⟨fault, by simp only [declareVar, hFault]⟩

/-- Variables of a procedure stay in its scope. -/
theorem inside_declareVars (h : syms.Inside g l) (vars : List VarDecl) :
    ∃ l, (declareVars syms vars).1.Inside g l := by
  induction vars generalizing syms l with
  | nil => exact ⟨l, h⟩
  | cons decl vars ih =>
    by_cases hKnown : decl.valueType?.isSome
    · simp only [declareVars, declareVar_of_known hKnown]
      exact ih (h.define decl.name.name _)
    · obtain ⟨fault, hFault⟩ := declareVar_of_unknown hKnown syms
      simp only [declareVars, hFault]
      exact ⟨l, h⟩

/-- A procedure is left again even if its body has a fault. -/
theorem atTop_checkProc (h : syms.AtTop g) {proc : ProcDecl}
    (hKnown : ∀ param ∈ proc.params, param.valueType?.isSome) :
    (checkProc syms proc).1.AtTop (g.set proc.name.name (Decl.proc proc).symbol) := by
  have hDefine := h.define proc.name.name (Decl.proc proc).symbol
  obtain ⟨l, hInside⟩ := inside_declareVars hDefine.openLocal proc.vars
  have hActive : (syms.define proc.name.name (Decl.proc proc).symbol).active = 0 := hDefine.active
  simp only [checkProc, valueTypes_eq hKnown]
  rw [Decl.symbol] at hInside hActive ⊢
  rw [hActive]
  split
  · next syms' fault hVars =>
    rw [hVars] at hInside
    exact hInside.enter
  · next syms' hVars =>
    rw [hVars] at hInside
    exact hInside.enter

/-- Checking kinds binds one declaration at a time. -/
theorem bindsDecls_step : BindsDecls (fun g (syms : Symbols) => syms.AtTop g) step where
  known {g syms decl} hKnown h := by
    cases decl with
    | var decl =>
      rw [Decl.headKnown_var] at hKnown
      have hBind :=
        h.define decl.name.name (.var (.declared decl.typeOf syms.isGlobal decl.isConst))
      rw [h.isGlobal] at hBind
      simp only [step, checkDecl, declareVar_of_known hKnown, Prod.map, Symbols.bindVar, h.isGlobal]
      exact hBind
    | proc proc =>
      rw [Decl.headKnown_proc] at hKnown
      exact atTop_checkProc h hKnown
  unknown {decl} hUnknown syms := by
    cases decl with
    | var decl =>
      rw [Decl.headKnown_var] at hUnknown
      obtain ⟨fault, hFault⟩ := declareVar_of_unknown hUnknown syms
      exact ⟨fault, by simp only [step, checkDecl, hFault, Prod.map, id, Findings.ofFault]⟩
    | proc proc =>
      rw [Decl.headKnown_proc] at hUnknown
      obtain ⟨fault, hFault⟩ := exists_valueTypes_error hUnknown
      exact ⟨fault, by simp only [step, checkDecl, checkProc, hFault, Findings.stop]⟩
  var {decl} hKnown syms := by
    rw [Decl.headKnown_var] at hKnown
    simp only [step, checkDecl, declareVar_of_known hKnown, Prod.map, Findings.ofFault]

/-- The scopes are restored by the check, wherever it was given up. -/
theorem restored (program : Program) :
    Restored (fun decls => (checkDecls .ofBuiltins decls).2.fault) (checkKinds program).2.fault
      program.decls builtinBindings (checkKinds program).1 := by
  have hStart : Symbols.ofBuiltins.AtTop builtinBindings := Scopes.atTop_withBuiltins Builtin.symbol
  obtain ⟨bound, hBinds, hKnown, hTop⟩ := bindsDecls_step.walk hStart program.decls
  simp only [walk_step] at hBinds hTop
  refine ⟨hTop.active, bound, hBinds.imp fun fault hFault => ?_, hKnown, fun name => ?_⟩
  · simp [checkKinds, Findings.append_def, Findings.andThen, hFault]
  · rw [← get?_bindDecls_reverse, ← hTop.bindingsAt]
    rfl

end Kinds

/-! ### Lowering -/

namespace Frames

variable {f : Frames} {slots : List Slot} {last : UInt8}

theorem AtRoot.setLast_zero (h : f.AtRoot) (i : Nat) : (f.setLast i 0).AtRoot := by
  refine ⟨h.active, ?_⟩
  simp only [Frames.setLast, Array.getElem?_modify, h.root]
  split <;> rfl

theorem InFrame.setLast_zero (h : f.InFrame slots last) (i : Nat) :
    ∃ last, (f.setLast i 0).InFrame slots last := by
  have hRoot : (f.setLast i 0).table[0]? = some ⟨none, [], 0⟩ := by
    simp only [Frames.setLast, Array.getElem?_modify, h.root]
    split <;> rfl
  by_cases hi : i = f.active
  · exact ⟨0, h.pos, hRoot, by simp [Frames.setLast, Array.getElem?_modify, hi, h.here]⟩
  · exact ⟨last, h.pos, hRoot, by simp [Frames.setLast, Array.getElem?_modify, hi, h.here]⟩

theorem AtRoot.offset? (h : f.AtRoot) (name : String) : f.offset? name = none := by
  rw [h.shows.offset?, Slot.offset?]

end Frames

namespace Lower

variable {g : Bindings Symbol} {s : State}

def OnTop (g : Bindings Symbol) (s : State) : Prop := s.symbols.AtTop g ∧ s.frames.AtRoot

def InProcedure (g : Bindings Symbol) (s : State) : Prop :=
  (∃ l, s.symbols.Inside g l) ∧ ∃ slots last, s.frames.InFrame slots last

theorem indifferent_onTop : Indifferent (OnTop g) where
  errors _ _ h := h
  branches _ _ h := h
  displaced s i offset hOffset h := by
    rcases hOffset with rfl | ⟨-, name, hName⟩
    · exact ⟨h.1, h.2.setLast_zero i⟩
    · rw [h.2.offset? name] at hName
      cases hName

/-- Being in a procedure does not depend on displacements, errors or branches. -/
theorem indifferent_inProcedure : Indifferent (InProcedure g) where
  errors _ _ h := h
  branches _ _ h := h
  displaced s i offset hOffset h := by
    obtain ⟨hSymbols, slots, last, hFrame⟩ := h
    refine ⟨hSymbols, slots, ?_⟩
    rcases hOffset with rfl | ⟨rfl, -⟩
    · exact hFrame.setLast_zero i
    · exact ⟨offset, hFrame.setLast offset⟩

theorem inProcedure_lowerVar (decl : VarDecl) :
    Keeps (InProcedure g) anyFault (fun _ => True) (lowerVar decl) := by
  unfold lowerVar
  split
  · exact keeps_stop trivial
  · next type hType =>
    refine keeps_update fun s hs => ?_
    obtain ⟨⟨l, hInside⟩, slots, last, hFrame⟩ := hs
    rw [if_neg (by simp [hInside.isGlobal])]
    exact ⟨⟨_, hInside.define decl.name.name _⟩, _, last, hFrame.push decl.name.name type.size⟩

theorem inProcedure_lowerVars (vars : List VarDecl) :
    Keeps (InProcedure g) anyFault (fun _ => True) (lowerVars vars) := by
  induction vars with
  | nil => exact keeps_pure trivial
  | cons decl vars ih => exact (inProcedure_lowerVar decl).bind fun _ _ => ih

/-- Whether or not the step stops in the procedure, the top level is restored. -/
theorem onTop_inScope {x : Lower Fault Unit} (h : Keeps (InProcedure g) anyFault (fun _ => True) x)
    (after : List Line) : Keeps (OnTop g) anyFault (fun _ => True) (inScope x after) := by
  intro s hs
  have hOpen : InProcedure g
      { s with symbols := s.symbols.openLocal, frames := s.frames.openLocal } :=
    ⟨⟨_, hs.1.openLocal⟩, _, _, hs.2.openLocal⟩
  obtain ⟨⟨⟨l, hInside⟩, slots, last, hFrame⟩, -, -⟩ := h _ hOpen
  refine ⟨?_, fun _ _ => trivial, fun _ _ => trivial⟩
  have hSymbols := hs.1.active ▸ hInside.enter
  have hFrames := hs.2.active ▸ hFrame.enter
  exact ⟨hSymbols, hFrames⟩

/-- Lowering a procedure binds it and leaves it, even if the body has a fault. -/
theorem onTop_lowerProc {proc : ProcDecl}
    (hKnown : ∀ param ∈ proc.params, param.valueType?.isSome) (hs : OnTop g s) :
    OnTop (g.set proc.name.name (Decl.proc proc).symbol) (lowerProc proc s).state := by
  have hBody : Keeps (InProcedure (g.set proc.name.name (Decl.proc proc).symbol)) anyFault
      (fun _ => True) (do
        lowerVars proc.vars
        emit [.label (.procedure proc.name.name)]
        lowerBody proc.name proc.body) :=
    (inProcedure_lowerVars proc.vars).bind fun _ _ => (keeps_emit _).bind fun _ _ =>
      indifferent_inProcedure.lowerBody proc.name proc.body
  have hDefine := hs.1.define proc.name.name (Decl.proc proc).symbol
  have hScope := onTop_inScope hBody [plain .ret, blank]
    { s with symbols := s.symbols.define proc.name.name (Decl.proc proc).symbol } ⟨hDefine, hs.2⟩
  simp only [lowerProc, valueTypes_eq hKnown]
  rw [bind_of_ok (x := update _) (a := ()) rfl]
  exact hScope.1

def declStep (s : State) (decl : Decl) : State × Option Fault :=
  ((lowerDecl decl s).state, faultOf (lowerDecl decl s).value)

theorem walk_declStep (s : State) (decls : List Decl) :
    walk declStep s decls = ((lowerDecls decls s).state, faultOf (lowerDecls decls s).value) := by
  induction decls generalizing s with
  | nil => rfl
  | cons decl decls ih =>
    cases hValue : (lowerDecl decl s).value with
    | error fault =>
      have hFault : (declStep s decl).2 = some fault := by rw [declStep, hValue, faultOf]
      rw [walk_of_fault hFault, lowerDecls, bind_of_error hValue, declStep, faultOf]
    | ok a =>
      have hNone : (declStep s decl).2 = none := by rw [declStep, hValue, faultOf]
      rw [walk_of_none hNone, ih, lowerDecls, bind_of_ok hValue, declStep]

theorem lowerVar_of_unknown {decl : VarDecl} (h : ¬decl.valueType?.isSome) :
    ∃ fault, lowerVar decl = stop fault := by
  obtain ⟨fault, hFault⟩ := VarDecl.exists_error h
  exact ⟨fault, by simp only [lowerVar, hFault]⟩

theorem bindsDecls_declStep : BindsDecls OnTop declStep where
  known {g s decl} hKnown hs := by
    cases decl with
    | var decl =>
      rw [Decl.headKnown_var] at hKnown
      have hBind := hs.1.define decl.name.name (decl.symbol true)
      simp only [declStep, lowerDecl, lowerVar, VarDecl.valueType_eq hKnown, update,
        hs.1.isGlobal, if_true, Symbols.bindVar]
      exact ⟨hBind, hs.2⟩
    | proc proc =>
      rw [Decl.headKnown_proc] at hKnown
      exact onTop_lowerProc hKnown hs
  unknown {decl} hUnknown s := by
    cases decl with
    | var decl =>
      rw [Decl.headKnown_var] at hUnknown
      obtain ⟨fault, hFault⟩ := lowerVar_of_unknown hUnknown
      exact ⟨fault, by rw [declStep, lowerDecl, hFault, stop, faultOf]⟩
    | proc proc =>
      rw [Decl.headKnown_proc] at hUnknown
      obtain ⟨fault, hFault⟩ := exists_valueTypes_error hUnknown
      exact ⟨fault, by simp only [declStep, lowerDecl, lowerProc, hFault, stop, faultOf]⟩
  var {decl} hKnown s := by
    rw [Decl.headKnown_var] at hKnown
    simp only [declStep, lowerDecl, lowerVar, VarDecl.valueType_eq hKnown, update, faultOf]

/-- Whatever comes after the declarations, if it binds nothing. -/
theorem exists_onTop_bind (hs : OnTop g s) (decls : List Decl) {rest : Unit → Lower Fault Unit}
    (hRest : ∀ g a, Keeps (OnTop g) anyFault (fun _ => True) (rest a)) :
    ∃ bound, PassBinds (fun decls => faultOf (lowerDecls decls s).value)
        (faultOf ((lowerDecls decls >>= rest) s).value) decls bound ∧
      (∀ decl ∈ bound, decl.headKnown) ∧
      OnTop (bindDecls g bound) ((lowerDecls decls >>= rest) s).state := by
  obtain ⟨bound, hBinds, hKnown, hTop⟩ := bindsDecls_declStep.walk hs decls
  simp only [walk_declStep] at hBinds hTop
  refine ⟨bound, hBinds.imp fun fault hFault => ?_, hKnown, ?_⟩
  · cases hValue : (lowerDecls decls s).value with
    | error e =>
      rw [hValue] at hFault
      rw [bind_of_error hValue]
      exact hFault
    | ok a =>
      rw [hValue] at hFault
      cases hFault
  · cases hValue : (lowerDecls decls s).value with
    | error e =>
      rw [bind_of_error hValue]
      exact hTop
    | ok a =>
      rw [bind_of_ok hValue]
      exact (hRest _ a _ hTop).1

theorem exists_onTop_lowerFrom (hs : OnTop g s) (stackWords : Nat) (program : Program) :
    ∃ bound, PassBinds (fun decls => faultOf (lowerDecls decls s).value)
        (faultOf (lowerFrom s stackWords program).1) program.decls bound ∧
      (∀ decl ∈ bound, decl.headKnown) ∧
      OnTop (bindDecls g bound) (lowerFrom s stackWords program).2 := by
  have hOutcome : faultOf (lowerFrom s stackWords program).1 =
      faultOf (lowerProgram stackWords program s).value := by
    rw [lowerFrom]
    cases (lowerProgram stackWords program s).value <;> rfl
  rw [hOutcome]
  refine exists_onTop_bind hs program.decls fun g _ => ?_
  exact (keeps_emit _).bind fun _ _ =>
    (indifferent_onTop.lowerStmts program.body.stmts).bind fun _ _ =>
      indifferent_onTop.settle.bind fun _ _ => (keeps_emit _).bind fun _ _ =>
        keeps_lowerData (fun _ _ hs => hs) stackWords

end Lower

/-! ### Both passes -/

/-- The state after programs were lowered one after the other, some of them in vain. -/
def Lowering.State.after (stackWords : Nat) (programs : List Program) : State :=
  programs.foldl (fun s program => (lowerFrom s stackWords program).2) .initial

/-- Lowering from `s` restores the scopes and the frame. -/
structure Lowering.Restores (s : State) (stackWords : Nat) (program : Program) : Prop where
  scopes : Restored (fun decls => faultOf (lowerDecls decls s).value)
    (faultOf (lowerFrom s stackWords program).1) program.decls (s.symbols.bindingsAt 0)
    (lowerFrom s stackWords program).2.symbols
  block : (lowerFrom s stackWords program).2.frames.active = 0
  last : (lowerFrom s stackWords program).2.frames.last = 0

/-- Lowering is at the top level between programs, whatever they were. -/
theorem Lower.exists_onTop_after (stackWords : Nat) (programs : List Program) :
    ∃ g, OnTop g (State.after stackWords programs) := by
  have hAll : ∀ (programs : List Program) (g : Bindings Symbol) (s : State), OnTop g s →
      ∃ g, OnTop g (programs.foldl (fun s program => (lowerFrom s stackWords program).2) s) := by
    intro programs
    induction programs with
    | nil => exact fun g _ hs => ⟨g, hs⟩
    | cons program programs ih =>
      intro g s hs
      obtain ⟨bound, -, -, hNext⟩ := exists_onTop_lowerFrom hs stackWords program
      exact ih _ _ hNext
  exact hAll programs builtinBindings .initial
    ⟨Scopes.atTop_withBuiltins Builtin.symbol, Frames.atRoot_empty⟩

/-- Faults or not, both passes end at the top level, with the bindings of what was declared up to
there, also if other programs were lowered before. -/
theorem passes_restored (stackWords : Nat) (earlier : List Program) (program : Program) :
    Restored (fun decls => (Kinds.checkDecls .ofBuiltins decls).2.fault)
        (checkKinds program).2.fault program.decls builtinBindings (checkKinds program).1 ∧
      (State.after stackWords []).symbols.bindingsAt 0 = builtinBindings ∧
      Restores (.after stackWords earlier) stackWords program := by
  refine ⟨Kinds.restored program, ?_, ?_⟩
  · exact (Scopes.atTop_withBuiltins Builtin.symbol).bindingsAt
  · obtain ⟨g, hStart⟩ := Lower.exists_onTop_after stackWords earlier
    obtain ⟨bound, hBinds, hKnown, hSymbols, hFrames⟩ :=
      Lower.exists_onTop_lowerFrom hStart stackWords program
    refine ⟨⟨hSymbols.active, bound, hBinds, hKnown, fun name => ?_⟩, hFrames.active,
      hFrames.shows.last_eq⟩
    rw [hSymbols.bindingsAt, hStart.1.bindingsAt, get?_bindDecls_reverse]

/-- The type of a variable in the first procedure is unknown. -/
def strayType : String :=
  "var x: long; procedure p(n: integer); var k: real; begin k := n end;
   procedure q; begin x := 1 end; begin q end."

example :
    (checkKinds (parse strayType).1).2.fault = some (.unresolvedType "real") ∧
      ["x", "p", "n", "k", "q"].filter (checkKinds (parse strayType).1).1.binds = ["x", "p"] ∧
      (lowerFrom .initial 4 (parse strayType).1).1.toBool = false ∧
      ["x", "p", "n", "k", "q"].filter
        (lowerFrom .initial 4 (parse strayType).1).2.symbols.binds = ["x", "p"] := by
  rw [show parse strayType = _ from parse_ofList _]
  decide +kernel

end ChipPascal
