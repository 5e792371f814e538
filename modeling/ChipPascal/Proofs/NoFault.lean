import ChipPascal.Compiler
import ChipPascal.Proofs.LoweringFaults
import ChipPascal.Proofs.NameCheck
import ChipPascal.Proofs.UsageRecord

/-!
# Compilation does not fault

Main statement: compiling comes to a result for every text. Behind it stand the two promises that
the stages make to each other: no later stage looks a name up in vain once the names have been
checked, and lowering finds everything to be of the right kind once the kinds have been checked.
-/

namespace ChipPascal

def VarDecl.slot (decl : VarDecl) : Slot := ⟨decl.name.name, decl.typeOf.size⟩

/-! ### Symbols of a procedure and of the main body -/

/-- The variables among global symbols have fixed places, and intrinsics are as they were bound
first. -/
structure GlobalSymbols (g : Bindings Symbol) : Prop where
  isGlobal : ∀ name info, g.get? name = some (.var info) →
    info.isGlobal = true ∧ info.storage = .fixed
  intrinsic : ∀ name params intrinsic, g.get? name = some (.proc params) →
    Intrinsic.ofName? name = some intrinsic → params = intrinsic.params

theorem Intrinsic.mem_builtinNames {name : String} {intrinsic : Intrinsic}
    (h : Intrinsic.ofName? name = some intrinsic) : name ∈ builtinNames := by
  have hName : intrinsic.name = name := by simpa using List.find?_some h
  rw [← hName]
  cases intrinsic <;> decide

theorem Bindings.mem_of_get? {α : Type} {g : Bindings α} {name : String} {value : α}
    (h : g.get? name = some value) : (name, value) ∈ g := by
  induction g with
  | nil => simp [get?] at h
  | cons b g ih =>
    obtain ⟨key, first⟩ := b
    by_cases hKey : key = name
    · simp only [get?, hKey, if_true, Option.some.injEq] at h
      simp [hKey, h]
    · simp only [get?, hKey, if_false] at h
      exact List.mem_cons_of_mem _ (ih h)

theorem globalSymbols_builtins : GlobalSymbols builtinBindings := by
  refine ⟨?_, ?_⟩
  · intro name info h
    obtain ⟨b, -, hb⟩ := List.mem_map.mp (Bindings.mem_of_get? h)
    cases b <;> simp [Builtin.symbol] at hb
  · intro name params intrinsic h hIntrinsic
    have hName : intrinsic.name = name := by simpa using List.find?_some hIntrinsic
    subst hName
    cases intrinsic <;>
      simpa [builtinBindings, Builtin.all, Intrinsic.all, Bindings.get?, Builtin.symbol,
        Builtin.name, Intrinsic.name, ValueType.keyword, eq_comm] using h

/-- A declaration that takes no built-in name is global and leaves the built-in names alone. -/
theorem GlobalSymbols.set {g : Bindings Symbol} (hg : GlobalSymbols g) (decl : Decl)
    (h : decl.name ∉ builtinNames) : GlobalSymbols (g.set decl.name decl.symbol) := by
  refine ⟨?_, ?_⟩
  · intro name info hGet
    by_cases hName : name = decl.name
    · subst hName
      rw [Bindings.get?_set_self, Option.some.injEq] at hGet
      cases decl with
      | var decl =>
        cases hGet
        exact ⟨rfl, rfl⟩
      | proc proc => simp [Decl.symbol] at hGet
    · rw [Bindings.get?_set_of_ne _ _ hName] at hGet
      exact hg.isGlobal name info hGet
  · intro name params intrinsic hGet hIntrinsic
    have hName : name ≠ decl.name := by
      rintro rfl
      exact h (Intrinsic.mem_builtinNames hIntrinsic)
    rw [Bindings.get?_set_of_ne _ _ hName] at hGet
    exact hg.intrinsic name params intrinsic hGet hIntrinsic

theorem GlobalSymbols.foldl {decls : List Decl} {g : Bindings Symbol} (hg : GlobalSymbols g)
    (h : ∀ decl ∈ decls, decl.name ∉ builtinNames) : GlobalSymbols (bindDecls g decls) := by
  induction decls generalizing g with
  | nil => exact hg
  | cons decl decls ih =>
    exact ih (hg.set decl (h decl (by simp))) fun d hd => h d (List.mem_cons_of_mem decl hd)

theorem bindVars_get? {vars : List VarDecl} (h : NamedVars [] vars) (name : String) :
    (bindVars [] vars).get? name =
      (vars.find? fun decl => decl.name.name = name).map (·.symbol false) := by
  have := foldl_set_get? (fun decl : VarDecl => decl.name.name) (·.symbol false) vars [] name
    h.nodup.1
  simpa [bindVars, Bindings.get?] using this

open Lowering in
/-- Each local variable of the scope has its slot. -/
theorem NamedVars.furnished {vars : List VarDecl} {g : Bindings Symbol} (h : NamedVars [] vars)
    (hg : GlobalSymbols g) : Furnished (lookIn g (bindVars [] vars)) (vars.map (·.slot)) := by
  refine ⟨?_, ?_, ?_⟩
  · intro name info r hLook
    rw [lookIn, bindVars_get? h] at hLook
    cases hFind : vars.find? fun decl => decl.name.name = name with
    | none =>
      rw [hFind] at hLook
      simp [(hg.isGlobal name info hLook).2]
    | some decl =>
      rw [hFind] at hLook
      cases hLook
      exact VarInfo.storage_declared_ne _ _ _ r
  · intro name info hLook hLocal
    rw [lookIn, bindVars_get? h] at hLook
    cases hFind : vars.find? fun decl => decl.name.name = name with
    | none =>
      rw [hFind] at hLook
      have hGlobal := (hg.isGlobal name info hLook).1
      simp [hLocal] at hGlobal
    | some decl =>
      have hName : decl.name.name = name := by simpa using List.find?_some hFind
      simp only [List.map_map, List.mem_map, Function.comp_apply]
      exact ⟨decl, List.mem_of_find?_eq_some hFind, hName⟩
  · intro name params intrinsic hLook hIntrinsic
    rw [lookIn, bindVars_get? h] at hLook
    cases hFind : vars.find? fun decl => decl.name.name = name with
    | none =>
      rw [hFind] at hLook
      exact hg.intrinsic name params intrinsic hLook hIntrinsic
    | some decl => simp [hFind, VarDecl.symbol] at hLook

open Lowering in
theorem GlobalSymbols.furnished {g : Bindings Symbol} (hg : GlobalSymbols g) :
    Furnished (lookIn g []) [] := by
  have hNone : NamedVars [] [] := trivial
  exact hNone.furnished hg

/-! ### Lowering declarations -/

namespace Lowering

open Lower

variable {g l : Bindings Symbol} {slots : List Slot} {allowed : Fault → Prop} {ns : List String}

def AtTopLevel (g : Bindings Symbol) (s : State) : Prop := s.symbols.AtTop g ∧ s.frames.AtRoot

def InProc (g l : Bindings Symbol) (slots : List Slot) (s : State) : Prop :=
  s.symbols.Inside g l ∧ s.frames.InFrame slots 0

theorem lowerVar_top {s : State} {decl : VarDecl} (hs : AtTopLevel g s)
    (h : decl.valueType?.isSome) :
    lowerVar decl s =
      ⟨[], { s with
        symbols := s.symbols.define decl.name.name (decl.symbol true)
        globals := s.globals ++ [decl.name.name] }, .ok ()⟩ := by
  have hType := VarDecl.valueType_eq h
  simp only [lowerVar, hType, update, hs.1.isGlobal, if_true, Symbols.bindVar, VarDecl.symbol]

theorem lowerVar_inProc {s : State} {decl : VarDecl} (hs : InProc g l slots s)
    (h : decl.valueType?.isSome) :
    lowerVar decl s =
      ⟨[], { s with
        symbols := s.symbols.define decl.name.name (decl.symbol false)
        frames := s.frames.push decl.name.name decl.typeOf.size }, .ok ()⟩ := by
  have hType := VarDecl.valueType_eq h
  simp [lowerVar, hType, update, hs.1.isGlobal, Symbols.bindVar, VarDecl.symbol]

/-- Declaring the variables of a procedure writes nothing, and gives each its slot. -/
theorem lowerVars_inProc {vars : List VarDecl} {s : State} (hs : InProc g l slots s)
    (h : ∀ decl ∈ vars, decl.valueType?.isSome) :
    ∃ s', lowerVars vars s = ⟨[], s', .ok ()⟩ ∧
      InProc g (bindVars l vars) (slots ++ vars.map (·.slot)) s' ∧
      s'.globals = s.globals ∧ s'.branches = s.branches ∧ s'.errors = s.errors := by
  induction vars generalizing s l slots with
  | nil => exact ⟨s, rfl, by simpa [bindVars] using hs, rfl, rfl, rfl⟩
  | cons decl vars ih =>
    have hVar := lowerVar_inProc hs (h decl (by simp))
    have hNext : InProc g (l.set decl.name.name (decl.symbol false)) (slots ++ [decl.slot])
        (lowerVar decl s).state := by
      rw [hVar]
      exact ⟨hs.1.define _ _, hs.2.push _ _⟩
    obtain ⟨s', hRun, hs', hGlobals, hBranches, hErrors⟩ :=
      ih hNext fun d hd => h d (List.mem_cons_of_mem decl hd)
    refine ⟨s', ?_, ?_, ?_, ?_, ?_⟩
    · rw [lowerVars, bind_of_ok (a := ()) (by rw [hVar]), hRun, hVar]
      rfl
    · simpa [bindVars] using hs'
    · rw [hGlobals, hVar]
    · rw [hBranches, hVar]
    · rw [hErrors, hVar]

theorem leads_lowerBody {syms : Symbols} (block : Nat) (hf : Furnished syms.get? slots)
    (name : Ident) {body : Block} (h : LowerableBody allowed syms.get? body.stmts) :
    Leads (AtBody syms block slots) (AtBody syms block slots) allowed (lowerBody name body) := by
  refine Keeps.leads (Q := fun _ => True) (keeps_state.bind fun s _ => ?_)
  dsimp only
  split
  · exact keeps_update fun _ hs => hs
  · exact (keeps_emit _).bind fun _ _ => (keeps_lowerStmts hf _ h).bind fun _ _ =>
      keeps_settle.bind fun _ _ => keeps_emit _

/-- What a body leaves behind is still inside its procedure. -/
theorem AtBody.inFrame {s₀ s : State} (h₀ : InProc g l slots s₀)
    (h : AtBody s₀.symbols s₀.frames.active slots s) :
    s.symbols.Inside g l ∧ ∃ last, s.frames.InFrame slots last := by
  obtain ⟨hSyms, hActive, last, hRoot | hFrame⟩ := h
  · have hPos := h₀.2.pos
    rw [← hActive, hRoot.1.active] at hPos
    exact absurd hPos (Nat.lt_irrefl 0)
  · exact ⟨hSyms ▸ h₀.1, last, hFrame⟩

/-- Lowering a procedure adds its own name to the global symbols. -/
theorem leads_lowerProc {proc : ProcDecl} (hg : GlobalSymbols g)
    (hName : proc.name.name ∉ builtinNames) (hNamed : NamedProc ns proc)
    (hBody : LowerableBody allowed
      (lookIn (g.set proc.name.name (Decl.proc proc).symbol) (bindVars [] proc.vars))
      proc.body.stmts) :
    Leads (AtTopLevel g) (AtTopLevel (g.set proc.name.name (Decl.proc proc).symbol)) allowed
      (lowerProc proc) := by
  have hParams := valueTypes_eq fun decl hd =>
    hNamed.vars.typed decl (List.mem_append_left proc.locals hd)
  have hg' : GlobalSymbols (g.set proc.name.name (Decl.proc proc).symbol) :=
    hg.set (.proc proc) hName
  have hProc : lowerProc proc = (do
      update fun s => { s with
        symbols := s.symbols.define proc.name.name (Decl.proc proc).symbol }
      inScope
        (do
          lowerVars proc.vars
          emit [.label (.procedure proc.name.name)]
          lowerBody proc.name proc.body)
        [Line.plain .ret, Line.blank]) := by
    simp only [lowerProc, hParams, Decl.symbol]
  rw [hProc]
  have hDefine : ∀ s, AtTopLevel g s →
      AtTopLevel (g.set proc.name.name (Decl.proc proc).symbol) { s with
        symbols := s.symbols.define proc.name.name (Decl.proc proc).symbol } :=
    fun s hs => ⟨hs.1.define _ _, hs.2⟩
  refine (leads_update hDefine).bind fun _ s hs => ?_
  obtain ⟨s₁, hVars, hs₁, -⟩ :=
    lowerVars_inProc (s := { s with
      symbols := s.symbols.openLocal, frames := s.frames.openLocal })
      ⟨hs.1.openLocal, hs.2.openLocal⟩ hNamed.vars.typed
  have hLook : s₁.symbols.get? = lookIn _ _ := funext fun name => hs₁.1.get? name
  have hBody' := ((leads_emit [Line.label (.procedure proc.name.name)]).bind fun _ =>
    leads_lowerBody s₁.frames.active (hLook ▸ hNamed.vars.furnished hg') proc.name
      (hLook ▸ hBody)) s₁
      ⟨rfl, rfl, 0, .inr (by simpa using hs₁.2)⟩
  have hRun := bind_of_ok (x := lowerVars proc.vars) (a := ()) (by rw [hVars])
    fun _ => (do
      emit [.label (.procedure proc.name.name)]
      lowerBody proc.name proc.body)
  rw [hVars] at hRun
  simp only [inScope, hRun, hs.1.active, hs.2.active]
  refine ⟨fun a ha => ?_, hBody'.2⟩
  obtain ⟨hInside, last, hFrame⟩ := (hBody'.1 a ha).inFrame (by simpa using hs₁)
  exact ⟨hInside.enter, hFrame.enter⟩

/-- Lowering declarations stays at the top level, and stops only for faults that are allowed. -/
theorem leads_lowerDecls {decls : List Decl} (hg : GlobalSymbols g)
    (hNames : ∀ name ∈ builtinNames, name ∈ ns) (hNamed : NamedDecls ns decls)
    (hBody : EveryBody (LowerableBody allowed) g decls) :
    Leads (AtTopLevel g) (AtTopLevel (bindDecls g decls)) allowed (lowerDecls decls) := by
  induction decls generalizing g ns with
  | nil => exact (keeps_pure (Q := fun _ => True) trivial).leads
  | cons decl decls ih =>
    cases decl with
    | var decl =>
      obtain ⟨hFresh, hType, hRest⟩ := hNamed
      have hStep : Leads (AtTopLevel g)
          (AtTopLevel (g.set decl.name.name (decl.symbol true))) allowed (lowerVar decl) := by
        intro s hs
        rw [lowerVar_top hs hType]
        exact ⟨fun _ _ => ⟨hs.1.define _ _, hs.2⟩, by rintro f ⟨⟩⟩
      exact hStep.bind fun _ => ih (hg.set (.var decl) fun h => hFresh (hNames _ h))
        (fun name h => List.mem_cons_of_mem _ (hNames name h)) hRest hBody
    | proc proc =>
      obtain ⟨hFresh, hProc, hRest⟩ := hNamed
      have hName : proc.name.name ∉ builtinNames := fun h => hFresh (hNames _ h)
      exact (leads_lowerProc hg hName hProc hBody.1).bind fun _ =>
        ih (hg.set (.proc proc) hName)
          (fun name h => List.mem_cons_of_mem _ (hNames name h)) hRest hBody.2

theorem leads_lowerProgram {program : Program} (stackWords : Nat) (hNamed : program.WellNamed)
    (h : program.Bodies (LowerableBody allowed)) :
    Leads (AtTopLevel builtinBindings) (fun _ => True) allowed
      (lowerProgram stackWords program) := by
  have hg := globalSymbols_builtins.foldl fun decl hDecl => (hNamed.decls.nodup).2 decl hDecl
  refine (leads_emit _).bind fun _ =>
    (leads_lowerDecls globalSymbols_builtins (fun _ h => h) hNamed.decls h.decls).bind fun _ =>
      (leads_emit _).bind fun _ s hs => ?_
  have hLook : s.symbols.get? = lookIn _ [] := funext fun name => hs.1.get? name
  have hBody : Leads (AtBody s.symbols s.frames.active []) (AtBody s.symbols s.frames.active [])
      allowed (lowerStmts program.body.stmts) :=
    (keeps_lowerStmts (hLook ▸ hg.furnished) program.body.stmts (hLook ▸ h.body)).leads
  have hRest : Leads (AtBody s.symbols s.frames.active []) (fun _ => True) allowed (do
      settle
      emit [Line.blank, .label .finish, Line.plain (.jump .finish), Line.blank]
      lowerData stackWords) :=
    (keeps_settle (E := allowed)).leads.bind fun _ => (leads_emit _).bind fun _ s _ =>
      ⟨fun _ _ => trivial, by rintro f ⟨⟩⟩
  exact (hBody.bind fun _ => hRest) s ⟨rfl, rfl, 0, hs.2.shows⟩

theorem atTopLevel_initial : AtTopLevel builtinBindings State.initial :=
  ⟨Scopes.atTop_withBuiltins Builtin.symbol, Frames.atRoot_empty⟩

theorem lowerFrom_error {program : Program} {stackWords : Nat} {fault : Fault}
    (hNamed : program.WellNamed) (h : program.Bodies (LowerableBody allowed))
    (hFault : (lowerFrom .initial stackWords program).1 = .error fault) : allowed fault := by
  have hLower := leads_lowerProgram stackWords hNamed h _ atTopLevel_initial
  apply hLower.2
  cases hValue : (lowerProgram stackWords program State.initial).value with
  | ok a => simp [lowerFrom, hValue, Except.map] at hFault
  | error f => simpa [lowerFrom, hValue, Except.map] using hFault

end Lowering

/-! ### The promises of the stages -/

/-- A name that was found turned out to be of the wrong kind. -/
def Fault.IsKind : Fault → Prop
  | .notAVariable _ | .notAProcedure _ => True
  | _ => False

open Lowering

theorem EveryBody.mono {P P' : (String → Option Symbol) → List Stmt → Prop}
    (h : ∀ look stmts, P look stmts → P' look stmts) {g : Bindings Symbol} {decls : List Decl}
    (hBody : EveryBody P g decls) : EveryBody P' g decls := by
  induction decls generalizing g with
  | nil => trivial
  | cons decl decls ih =>
    cases decl with
    | var decl => exact ih hBody
    | proc proc => exact ⟨h _ _ hBody.1, ih hBody.2⟩

theorem Program.Bodies.mono {P P' : (String → Option Symbol) → List Stmt → Prop}
    (h : ∀ look stmts, P look stmts → P' look stmts) {program : Program}
    (hBodies : program.Bodies P) : program.Bodies P' :=
  ⟨hBodies.decls.mono h, h _ _ hBodies.body⟩

/-- If names are bound, only a name of the wrong kind can be a fault. -/
theorem KnownBody.lowerable {look : String → Option Symbol} {stmts : List Stmt}
    (h : KnownBody look stmts) : LowerableBody Fault.IsKind look stmts :=
  StmtsUse.mono (fun _ hx => ⟨hx, .inr trivial⟩) (fun _ hx => ⟨hx, .inr trivial⟩)
    (fun _ hx => ⟨hx, .inr trivial⟩) h

/-- If kinds agree, nothing can be a fault. -/
theorem KindedBody.lowerable {look : String → Option Symbol} {stmts : List Stmt}
    (h : KindedBody look stmts) : LowerableBody (fun _ => False) look stmts := by
  have hKnown : ∀ {name symbol}, look name = some symbol → Known look name :=
    fun hx => Option.isSome_iff_exists.mpr ⟨_, hx⟩
  refine StmtsUse.mono ?_ ?_ ?_ h
  · rintro name ⟨info, hInfo⟩
    exact ⟨hKnown hInfo, .inl ⟨info, hInfo⟩⟩
  · rintro name ⟨info, hInfo, -⟩
    exact ⟨hKnown hInfo, .inl ⟨info, hInfo⟩⟩
  · rintro name ⟨params, hParams⟩
    exact ⟨hKnown hParams, .inl ⟨params, hParams⟩⟩

/-- A program that passes both checks is lowered. -/
theorem lowerFrom_ok {program : Program} (stackWords : Nat) (hNames : nameErrors program = [])
    (hKinds : (checkKinds program).2.reports = []) :
    ∃ lines, (lowerFrom .initial stackWords program).1 = .ok lines := by
  have hNamed := Program.wellNamed_of_nameErrors hNames
  have hKinded := hNamed.checkKinds.2 hKinds
  cases hLower : (lowerFrom .initial stackWords program).1 with
  | ok lines => exact ⟨lines, rfl⟩
  | error fault =>
    exact (lowerFrom_error hNamed (hKinded.mono fun _ _ => KindedBody.lowerable) hLower).elim

theorem Report.eq_nil_of_not_hasErrors {r : Report} {errors : List Error}
    (h : (r.addErrors errors).hasErrors = false) : errors = [] := by
  simp only [Report.hasErrors_eq, Report.errors_addErrors, Bool.not_eq_false',
    List.isEmpty_iff, List.append_eq_nil_iff] at h
  exact h.2

/-- Each stage is entered only with what the stages before it found in order, so none faults. -/
theorem compileProgram_ok (options : CompileOptions) (program : Program) :
    ∃ c, compileProgram options program = .ok c := by
  unfold compileProgram
  dsimp only
  split
  · exact ⟨_, rfl⟩
  next hNoErrors =>
  have hNames := Report.eq_nil_of_not_hasErrors (Bool.not_eq_true _ ▸ hNoErrors)
  have hNamed := Program.wellNamed_of_nameErrors hNames
  split
  · next hKinds =>
    have hFault := hNamed.checkKinds.1
    simp [hKinds] at hFault
  next errors hKinds =>
  split
  · exact ⟨_, rfl⟩
  next hNoErrors' =>
  have hErrors := Report.eq_nil_of_not_hasErrors (Bool.not_eq_true _ ▸ hNoErrors')
  split
  · next hUsage =>
    have hFault := hNamed.usageWarnings_fault
    simp [hUsage] at hFault
  split
  · exact ⟨_, rfl⟩
  obtain ⟨lines, hLines⟩ :=
    lowerFrom_ok options.stackWords hNames (by rw [hKinds]; exact hErrors)
  unfold lowerChecked
  split
  · next hLower => simp [hLower] at hLines
  · exact ⟨_, rfl⟩

/-- Compiling never faults. Once the names of a program are in order, no stage looks a name or a
type up in vain; once its kinds are in order too, lowering finds all names to be of the kind and
in the place that it needs. -/
theorem compile_never_faults :
    (∀ source options, ∃ c, compile source options = .ok c) ∧
    (∀ program, nameErrors program = [] →
      (checkKinds program).2.fault = none ∧ (usageWarnings program).2 = none ∧
      ∀ stackWords fault,
        (lowerFrom .initial stackWords program).1 = .error fault → fault.IsKind) ∧
    (∀ program, nameErrors program = [] → (checkKinds program).2.reports = [] →
      ∀ stackWords, ∃ lines, (lowerFrom .initial stackWords program).1 = .ok lines) := by
  refine ⟨?_, ?_, ?_⟩
  · intro source options
    unfold compile
    dsimp only
    split
    · exact compileProgram_ok options _
    · exact ⟨_, rfl⟩
  · intro program hNames
    have hNamed := Program.wellNamed_of_nameErrors hNames
    refine ⟨hNamed.checkKinds.1, hNamed.usageWarnings_fault, fun stackWords fault hFault => ?_⟩
    exact lowerFrom_error hNamed (hNamed.known.mono fun _ _ => KnownBody.lowerable) hFault
  · intro program hNames hKinds stackWords
    exact lowerFrom_ok stackWords hNames hKinds

end ChipPascal
