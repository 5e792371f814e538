import ChipPascal.Proofs.FrameMemory

/-!
# Two derivations of the symbols

The check of kinds and the lowering each build the symbols of a program for themselves. They come
to the same: both end with the symbols that `Program.scopes` reads off the declarations. The frame
blocks keep step with the scopes, one for each procedure, and give every variable a slot of the size
of its type.
-/

namespace ChipPascal

open Lowering

/-! ### What statements leave alone -/

namespace Frames

def layout (f : Frames) : List (List Slot) := f.table.toList.map (·.slots)

theorem layout_setLast (f : Frames) (i : Nat) (offset : UInt8) :
    (f.setLast i offset).layout = f.layout := by
  apply List.ext_getElem?
  intro j
  simp only [layout, setLast, List.getElem?_map, Array.getElem?_toList, Array.getElem?_modify]
  split
  · cases f.table[j]? <;> rfl
  · rfl

end Frames

namespace Lower

/-- It makes no difference to `I` which errors and branches there were so far, or by how much the
frame bases are displaced: not at all, or in the active block by the offset of a slot. -/
structure Indifferent (I : State → Prop) : Prop where
  errors : ∀ s errors, I s → I { s with errors := errors }
  branches : ∀ s n, I s → I { s with branches := n }
  displaced : ∀ s i offset, offset = 0 ∨ i = s.frames.active ∧
      (∃ name, s.frames.offset? name = some offset) →
    I s → I { s with frames := s.frames.setLast i offset }

section Bodies

variable {I : State → Prop} {α : Type}

abbrev anyFault (_ : Fault) : Prop := True

theorem stopAllowed_any (e : Stop) : stopAllowed anyFault e := by
  cases e <;> trivial

theorem Indifferent.settleFrom (hI : Indifferent I) {s : State} (f : Frames) (i : Nat)
    (h : I { s with frames := f }) : I { s with frames := f.settleFrom i } := by
  fun_induction Frames.settleFrom f i with
  | case1 f i hBlock => exact h
  | case2 f i block hBlock hOuter => exact hI.displaced _ i 0 (.inl rfl) h
  | case3 f i block hBlock j hOuter hLess ih => exact ih (hI.displaced _ i 0 (.inl rfl) h)
  | case4 f i block hBlock j hOuter hLess => exact hI.displaced _ i 0 (.inl rfl) h

theorem Indifferent.settle (hI : Indifferent I) {ε : Type} {E : ε → Prop} :
    Keeps I E (fun _ => True) (settle : Lower ε Unit) :=
  keeps_state.bind fun _ _ => (keeps_emit _).bind fun _ _ =>
    keeps_update fun s hs => hI.settleFrom s.frames s.frames.active hs

theorem keeps_anyVariable (name : Ident) :
    Keeps I anyFault (fun _ => True) (variableInfo name) := by
  refine keeps_state.bind fun s _ => ?_
  cases varInfo s.symbols name with
  | ok info => exact keeps_pure trivial
  | error fault => exact keeps_stop trivial

/-- Pointing at a variable displaces the base to one of its slots. -/
theorem Indifferent.pointAt (hI : Indifferent I) (name : String) (isGlobal : Bool)
    (note : String) : Keeps I anyFault (fun _ => True) (pointAt name isGlobal note) := by
  unfold Lowering.pointAt
  split
  · exact keeps_emit _
  · intro s hs
    rw [bind_of_ok (x := state) (a := s) rfl]
    simp only [state, Frames.offsetFromLast?]
    cases hOffset : s.frames.offset? name with
    | none => exact keeps_stop trivial s hs
    | some offset =>
      have hNext := hI.displaced s s.frames.active offset (.inr ⟨rfl, name, hOffset⟩) hs
      exact ⟨hNext, fun _ _ => trivial, fun _ _ => trivial⟩

theorem Indifferent.address (hI : Indifferent I) (name : String) (info : VarInfo)
    (note : String) : Keeps I anyFault (fun _ => True) (address name info note) := by
  unfold Lowering.address
  cases info.storage with
  | register r => exact keeps_stop trivial
  | stack | fixed => exact hI.pointAt name _ note

theorem Indifferent.lowerExpr (hI : Indifferent I) (mode : Mode) (wide : Bool) (e : Expr) :
    Keeps I (stopAllowed anyFault) (fun _ => True) (lowerExpr mode wide e) := by
  induction e generalizing mode with
  | ref name =>
    exact (keeps_anyVariable name).lift.bind fun info _ =>
      (hI.address _ info _).lift.bind fun _ _ => keeps_emit _
  | int text span =>
    rw [Lowering.lowerExpr]
    split
    · exact keeps_emit _
    · exact keeps_stop (stopAllowed_any _)
  | unary op operand span ih => exact (ih .load).bind fun _ _ => keeps_emit _
  | binary op left right span ihl ihr =>
    rw [Lowering.lowerExpr]
    split
    · exact keeps_stop trivial
    · next mode _ =>
      refine (ihl .load).bind fun _ _ => ?_
      split
      · exact ihr mode
      · exact (keeps_emit _).bind fun _ _ => (ihr .load).bind fun _ _ => keeps_emit _

theorem Indifferent.lowerAssign (hI : Indifferent I) (target : Ident) (value : Expr) :
    Keeps I (stopAllowed anyFault) (fun _ => True) (lowerAssign target value) :=
  (keeps_anyVariable target).lift.bind fun info _ =>
    (hI.lowerExpr .load _ value).bind fun _ _ =>
      (hI.address _ info _).lift.bind fun _ _ => keeps_emit _

theorem Indifferent.lowerArgs (hI : Indifferent I) (args : List (Expr × ValueType)) :
    Keeps I (stopAllowed anyFault) (fun _ => True) (lowerArgs args) := by
  induction args with
  | nil => exact keeps_pure trivial
  | cons arg args ih =>
    exact (hI.lowerExpr .load _ arg.1).bind fun _ _ => (keeps_emit _).bind fun _ _ => ih

theorem Indifferent.lowerIntrinsic (hI : Indifferent I) (intrinsic : Intrinsic)
    (args : List Expr) :
    Keeps I (stopAllowed anyFault) (fun _ => True) (lowerIntrinsic intrinsic args) := by
  unfold Lowering.lowerIntrinsic
  split
  · exact (keeps_emit _).bind fun _ _ => keeps_emit _
  · exact (keeps_emit _).bind fun _ _ => keeps_emit _
  · exact (hI.lowerExpr .load true _).bind fun _ _ => (keeps_emit _).bind fun _ _ => keeps_emit _
  · exact (keeps_stop (Q := fun _ => True) trivial).bind fun _ _ => keeps_emit _
  · exact (keeps_emit _).bind fun _ _ => keeps_emit _
  · exact (keeps_emit _).bind fun _ _ => keeps_emit _

theorem Indifferent.lowerCall (hI : Indifferent I) (name : Ident) (args : List Expr) :
    Keeps I (stopAllowed anyFault) (fun _ => True) (lowerCall name args) := by
  refine keeps_state.bind fun s _ => ?_
  split
  · exact keeps_stop trivial
  · split
    · exact keeps_stop trivial
    · split
      · exact hI.lowerIntrinsic _ args
      · exact (keeps_emit _).bind fun _ _ => (hI.lowerArgs _).bind fun _ _ => keeps_emit _
  · exact keeps_stop trivial

theorem Indifferent.newBranch (hI : Indifferent I) {ε : Type} {E : ε → Prop} :
    Keeps I E (fun _ => True) (newBranch : Lower ε Nat) :=
  keeps_state.bind fun _ _ => (keeps_update fun s hs => hI.branches s _ hs).bind fun _ _ =>
    keeps_pure trivial

theorem Indifferent.lowerCond (hI : Indifferent I) (cond : Expr) (whenZero : Label) :
    Keeps I (stopAllowed anyFault) (fun _ => True) (lowerCond cond whenZero) := by
  refine keeps_state.bind fun s _ => ?_
  split
  · exact keeps_stop (stopAllowed_any _)
  · exact (hI.lowerExpr .load _ cond).bind fun _ _ => hI.settle.bind fun _ _ => keeps_emit _

mutual

/-- Lowering a statement leaves names and slots alone, whatever it stops for. -/
theorem Indifferent.lowerStmt (hI : Indifferent I) (stmt : Stmt) :
    Keeps I anyFault (fun _ => True) (lowerStmt stmt) := by
  cases stmt with
  | block stmts span => exact hI.lowerStmts stmts
  | assign target value => exact (hI.lowerAssign target value).attempt hI.errors
  | call name args => exact (hI.lowerCall name args).attempt hI.errors
  | ifThen cond yes span =>
    refine Keeps.attempt ?_ hI.errors
    exact hI.newBranch.bind fun n _ => (hI.lowerCond cond _).bind fun _ _ =>
      (hI.lowerStmt yes).lift.bind fun _ _ => hI.settle.bind fun _ _ => keeps_emit _
  | ifElse cond yes no span =>
    refine Keeps.attempt ?_ hI.errors
    exact hI.newBranch.bind fun n _ => (hI.lowerCond cond _).bind fun _ _ =>
      (hI.lowerStmt yes).lift.bind fun _ _ => hI.settle.bind fun _ _ =>
        (keeps_emit _).bind fun _ _ => (hI.lowerStmt no).lift.bind fun _ _ =>
          hI.settle.bind fun _ _ => keeps_emit _

theorem Indifferent.lowerStmts (hI : Indifferent I) (stmts : List Stmt) :
    Keeps I anyFault (fun _ => True) (lowerStmts stmts) := by
  cases stmts with
  | nil => exact keeps_pure trivial
  | cons stmt stmts => exact (hI.lowerStmt stmt).bind fun _ _ => hI.lowerStmts stmts

end

/-- A body that is left out because its frame is too large makes no difference either. -/
theorem Indifferent.lowerBody (hI : Indifferent I) (name : Ident) (body : Block) :
    Keeps I anyFault (fun _ => True) (lowerBody name body) := by
  refine keeps_state.bind fun s _ => ?_
  dsimp only
  split
  · exact keeps_update fun s hs => hI.errors s _ hs
  · exact (keeps_emit _).bind fun _ _ => (hI.lowerStmts body.stmts).bind fun _ _ =>
      hI.settle.bind fun _ _ => keeps_emit _

end Bodies

end Lower

/-! ### The tables of scopes and blocks -/

theorem modify_length_append {α : Type} (xs : List α) (x : α) (f : α → α) :
    (xs ++ [x]).modify xs.length f = xs ++ [f x] := by
  induction xs with
  | nil => rfl
  | cons y ys ih => exact congrArg (y :: ·) ih

namespace Scopes

variable {α : Type} (g : Bindings α) (locals : List (Bindings α)) (l : Bindings α)

/-- The global scope is active and binds `g`; the scopes inside it bind `locals`. -/
def outer : Scopes α := ⟨(⟨none, g⟩ :: locals.map fun l => ⟨some 0, l⟩).toArray, 0⟩

/-- As `outer`, but a further scope inside the global one is active, and binds `l`. -/
def inner : Scopes α := ⟨(outer g (locals ++ [l])).table, locals.length + 1⟩

theorem openLocal_outer : (outer g locals).openLocal = inner g locals [] := by
  simp [openLocal, child, enter, outer, inner]

/-- A scope that is left stays in the table. -/
theorem enter_inner : (inner g locals l).enter 0 = outer g (locals ++ [l]) := rfl

theorem define_outer (name : String) (value : α) :
    (outer g locals).define name value = outer (g.set name value) locals := by
  simp [define, defineAt, outer]

theorem define_inner (name : String) (value : α) :
    (inner g locals l).define name value = inner g locals (l.set name value) := by
  have hLast := modify_length_append (locals.map fun l => (⟨some 0, l⟩ : Scope α)) ⟨some 0, l⟩
    fun scope => { scope with bindings := scope.bindings.set name value }
  rw [List.length_map] at hLast
  simp [define, defineAt, outer, inner, hLast]

theorem withBuiltins_eq (value : Builtin → α) :
    withBuiltins value = outer (Builtin.all.map fun b => (b.name, value b)) [] := by
  simp [withBuiltins, outer, Builtin.all, Intrinsic.all, Builtin.name, Intrinsic.name,
    ValueType.keyword, define, defineAt, empty, Bindings.set]

end Scopes

namespace Frames

variable {f : Frames}

theorem layout_openLocal (f : Frames) : f.openLocal.layout = f.layout ++ [[]] := by
  simp [layout, openLocal, enter, child]

/-- A slot is added to the block that was opened last. -/
theorem layout_push {blocks : List (List Slot)} {slots : List Slot}
    (hLayout : f.layout = blocks ++ [slots]) (hActive : f.active = blocks.length) (name : String)
    (size : UInt8) : (f.push name size).layout = blocks ++ [slots ++ [⟨name, size⟩]] := by
  have hModify : (f.push name size).layout =
      f.layout.modify f.active (· ++ [⟨name, size⟩]) := by
    apply List.ext_getElem?
    intro j
    simp only [layout, push, List.getElem?_map, Array.getElem?_toList, Array.getElem?_modify,
      List.getElem?_modify]
    cases f.table[j]? <;> split <;> rfl
  rw [hModify, hLayout, hActive, modify_length_append]

end Frames

/-! ### What the declarations come to -/

def Decl.proc? : Decl → Option ProcDecl
  | .var _ => none
  | .proc decl => some decl

theorem filterMap_proc?_cons (decl : Decl) (decls : List Decl) :
    (decl :: decls).filterMap Decl.proc? = decl.proc?.toList ++ decls.filterMap Decl.proc? := by
  cases decl <;> rfl

theorem Program.procs_eq (program : Program) :
    program.procs = program.decls.filterMap Decl.proc? := rfl

namespace ProcDecl

def scope (proc : ProcDecl) : Bindings Symbol := bindVars [] proc.vars

def slots (proc : ProcDecl) : List Slot := proc.vars.map (·.slot)

end ProcDecl

def symbolsAfter (g : Bindings Symbol) (done : List ProcDecl) : Symbols :=
  .outer g (done.map (·.scope))

def Program.scopes (program : Program) : Symbols :=
  symbolsAfter (bindDecls builtinBindings program.decls) (program.decls.filterMap Decl.proc?)

theorem VarDecl.typeOf_eq {decl : VarDecl} {type : ValueType} (h : decl.valueType = .ok type) :
    type = decl.typeOf := by
  unfold VarDecl.valueType at h
  split at h
  · next hKeyword =>
    cases h
    simp [VarDecl.typeOf, VarDecl.valueType?, hKeyword]
  · cases h

theorem typesOf_eq {decls : List VarDecl} {types : List ValueType}
    (h : valueTypes decls = .ok types) : types = decls.map (·.typeOf) := by
  induction decls generalizing types with
  | nil =>
    cases h
    rfl
  | cons decl decls ih =>
    simp only [valueTypes] at h
    split at h
    · cases h
    · next type hType =>
      cases hRest : valueTypes decls with
      | error fault =>
        rw [hRest] at h
        cases h
      | ok rest =>
        rw [hRest] at h
        cases h
        rw [List.map_cons, ← ih hRest, VarDecl.typeOf_eq hType]

theorem bindVar_outer (g : Bindings Symbol) (done : List ProcDecl) {decl : VarDecl}
    {type : ValueType} (h : decl.valueType = .ok type) :
    (symbolsAfter g done).bindVar decl type =
      symbolsAfter (g.set decl.name.name (decl.symbol true)) done := by
  rw [symbolsAfter, Symbols.bindVar, Scopes.define_outer, VarDecl.typeOf_eq h]
  rfl

theorem bindVar_inner (g : Bindings Symbol) (locals : List (Bindings Symbol))
    (l : Bindings Symbol) {decl : VarDecl} {type : ValueType} (h : decl.valueType = .ok type) :
    Symbols.bindVar (.inner g locals l) decl type =
      .inner g locals (l.set decl.name.name (decl.symbol false)) := by
  rw [Symbols.bindVar, Scopes.define_inner, VarDecl.typeOf_eq h]
  rfl

/-! ### The check of kinds -/

namespace Kinds

variable {g l : Bindings Symbol} {locals : List (Bindings Symbol)} {done : List ProcDecl}

theorem declareVars_inner {vars : List VarDecl}
    (h : (declareVars (.inner g locals l) vars).2 = none) :
    (declareVars (.inner g locals l) vars).1 = .inner g locals (bindVars l vars) := by
  induction vars generalizing l with
  | nil => rfl
  | cons decl vars ih =>
    cases hType : decl.valueType with
    | error fault => simp [declareVars, declareVar, hType] at h
    | ok type =>
      simp only [declareVars, declareVar, hType, bindVar_inner g locals l hType] at h ⊢
      exact ih h

/-- Checking a procedure adds its scope behind those of the procedures before. -/
theorem checkProc_after {proc : ProcDecl}
    (h : (checkProc (symbolsAfter g done) proc).2.fault = none) :
    (checkProc (symbolsAfter g done) proc).1 =
      symbolsAfter (g.set proc.name.name (Decl.proc proc).symbol) (done ++ [proc]) := by
  cases hParams : valueTypes proc.params with
  | error fault => simp [checkProc, hParams, Findings.stop] at h
  | ok params =>
    have hSymbol : (Decl.proc proc).symbol = .proc params := by
      rw [Decl.symbol, typesOf_eq hParams]
    simp only [checkProc, hParams, symbolsAfter, Scopes.define_outer, Scopes.openLocal_outer] at h ⊢
    cases hVars : declareVars (.inner (g.set proc.name.name (.proc params))
        (done.map (·.scope)) []) proc.vars with
    | mk syms fault =>
      cases fault with
      | some fault => simp [hVars, Findings.stop] at h
      | none =>
        have hSyms : (declareVars (.inner (g.set proc.name.name (.proc params))
            (done.map (·.scope)) []) proc.vars).1 = _ := declareVars_inner (by rw [hVars])
        rw [hVars] at hSyms
        cases hSyms
        rw [hSymbol, List.map_append]
        exact Scopes.enter_inner _ _ _

theorem checkDecl_after {decl : Decl} (h : (checkDecl (symbolsAfter g done) decl).2.fault = none) :
    (checkDecl (symbolsAfter g done) decl).1 =
      symbolsAfter (g.set decl.name decl.symbol) (done ++ decl.proc?.toList) := by
  cases decl with
  | var decl =>
    cases hType : decl.valueType with
    | error fault => simp [checkDecl, declareVar, hType, Findings.ofFault] at h
    | ok type =>
      simp only [checkDecl, declareVar, hType, bindVar_outer g done hType, Prod.map, id]
      simp [Decl.name, Decl.symbol, Decl.proc?]
  | proc proc => exact checkProc_after h

/-- Checking declarations adds a scope for each procedure, in order. -/
theorem checkDecls_after {decls : List Decl}
    (h : (checkDecls (symbolsAfter g done) decls).2.fault = none) :
    (checkDecls (symbolsAfter g done) decls).1 =
      symbolsAfter (bindDecls g decls) (done ++ decls.filterMap Decl.proc?) := by
  induction decls generalizing g done with
  | nil => simp [checkDecls, bindDecls]
  | cons decl decls ih =>
    have hHead : (checkDecl (symbolsAfter g done) decl).2.fault = none := by
      cases hFault : (checkDecl (symbolsAfter g done) decl).2.fault with
      | none => rfl
      | some fault => simp [checkDecls, hFault] at h
    have hStep : checkDecls (symbolsAfter g done) (decl :: decls) =
        ((checkDecls (checkDecl (symbolsAfter g done) decl).1 decls).1,
          (checkDecl (symbolsAfter g done) decl).2 ++
            (checkDecls (checkDecl (symbolsAfter g done) decl).1 decls).2) := by
      simp [checkDecls, hHead]
    rw [hStep, checkDecl_after hHead] at h ⊢
    rw [filterMap_proc?_cons, ← List.append_assoc]
    exact ih (Findings.append_fault_eq_none_iff.mp h).2

end Kinds

/-- The table that checking builds is the one read off the program. -/
theorem checkKinds_symbols {program : Program} (h : (checkKinds program).2.fault = none) :
    (checkKinds program).1 = program.scopes := by
  have hStart : Symbols.ofBuiltins = symbolsAfter builtinBindings [] :=
    Scopes.withBuiltins_eq Builtin.symbol
  simp only [checkKinds, hStart] at h ⊢
  exact Kinds.checkDecls_after (Findings.append_fault_eq_none_iff.mp h).1

/-! ### Lowering -/

namespace Lower

variable {g l : Bindings Symbol} {done : List ProcDecl} {slots : List Slot}

def TopAfter (g : Bindings Symbol) (done : List ProcDecl) (s : State) : Prop :=
  s.symbols = symbolsAfter g done ∧ s.frames.layout = [] :: done.map (·.slots)

/-- Lowering stands in a procedure that follows `done`; it has bound `l` and has these slots. -/
def ProcAfter (g : Bindings Symbol) (done : List ProcDecl) (l : Bindings Symbol)
    (slots : List Slot) (s : State) : Prop :=
  s.symbols = .inner g (done.map (·.scope)) l ∧ s.frames.active = done.length + 1 ∧
    s.frames.layout = [] :: done.map (·.slots) ++ [slots]

theorem indifferent_topAfter : Indifferent (TopAfter g done) where
  errors _ _ h := h
  branches _ _ h := h
  displaced s i offset _ h := ⟨h.1, (s.frames.layout_setLast i offset).trans h.2⟩

theorem indifferent_procAfter : Indifferent (ProcAfter g done l slots) where
  errors _ _ h := h
  branches _ _ h := h
  displaced s i offset _ h := ⟨h.1, h.2.1, (s.frames.layout_setLast i offset).trans h.2.2⟩

theorem leads_lowerVar_top (decl : VarDecl) :
    Leads (TopAfter g done) (TopAfter (g.set decl.name.name (decl.symbol true)) done) anyFault
      (lowerVar decl) := by
  unfold lowerVar
  split
  · exact fun _ _ => ⟨by rintro a ⟨⟩, fun _ _ => trivial⟩
  · next type hType =>
    refine leads_update fun s hs => ?_
    have hGlobal : s.symbols.isGlobal = true := by rw [hs.1]; rfl
    rw [if_pos hGlobal]
    exact ⟨by rw [hs.1, bindVar_outer g done hType], hs.2⟩

theorem leads_lowerVar_proc (decl : VarDecl) :
    Leads (ProcAfter g done l slots)
      (ProcAfter g done (l.set decl.name.name (decl.symbol false)) (slots ++ [decl.slot]))
      anyFault (lowerVar decl) := by
  unfold lowerVar
  split
  · exact fun _ _ => ⟨by rintro a ⟨⟩, fun _ _ => trivial⟩
  · next type hType =>
    refine leads_update fun s hs => ?_
    have hLocal : ¬ s.symbols.isGlobal = true := by
      rw [hs.1]
      simp [Scopes.isGlobal, Scopes.inner]
    rw [if_neg hLocal]
    refine ⟨by rw [hs.1, bindVar_inner g _ l hType], hs.2.1, ?_⟩
    have hPush := Frames.layout_push hs.2.2 (by simp [hs.2.1]) decl.name.name type.size
    rw [hPush, VarDecl.typeOf_eq hType, VarDecl.slot]

theorem leads_lowerVars (vars : List VarDecl) :
    Leads (ProcAfter g done l slots)
      (ProcAfter g done (bindVars l vars) (slots ++ vars.map (·.slot))) anyFault
      (lowerVars vars) := by
  induction vars generalizing l slots with
  | nil =>
    rw [List.map_nil, List.append_nil]
    exact (keeps_pure (Q := fun _ => True) trivial).leads
  | cons decl vars ih =>
    have hRest := @ih (l.set decl.name.name (decl.symbol false)) (slots ++ [decl.slot])
    rw [List.append_assoc] at hRest
    exact (leads_lowerVar_proc decl).bind fun _ => hRest

/-- The scope and the block of a procedure are added to the others once it is left. -/
theorem leads_inScope {x : Lower Fault Unit} (proc : ProcDecl) (after : List Line)
    (h : Leads (ProcAfter g done [] []) (ProcAfter g done proc.scope proc.slots) anyFault x) :
    Leads (TopAfter g done) (TopAfter g (done ++ [proc])) anyFault (inScope x after) := by
  intro s hs
  have hOpen : ProcAfter g done [] []
      { s with symbols := s.symbols.openLocal, frames := s.frames.openLocal } := by
    refine ⟨?_, ?_, ?_⟩
    · rw [hs.1, symbolsAfter, Scopes.openLocal_outer]
    · have hSize := congrArg List.length hs.2
      simpa [Frames.layout, Frames.openLocal, Frames.enter] using hSize
    · rw [Frames.layout_openLocal, hs.2]
  refine ⟨fun a ha => ?_, fun _ _ => trivial⟩
  obtain ⟨hSymbols, -, hLayout⟩ := (h _ hOpen).1 a ha
  refine ⟨?_, ?_⟩
  · have hActive : s.symbols.active = 0 := by rw [hs.1]; rfl
    simp only [inScope, hSymbols, hActive, Scopes.enter_inner, symbolsAfter, List.map_append]
    rfl
  · simp only [List.map_append, List.map_cons, List.map_nil]
    exact hLayout

/-- Lowering a procedure adds its scope and its frame behind those of the procedures before. -/
theorem leads_lowerProc_after (proc : ProcDecl) :
    Leads (TopAfter g done)
      (TopAfter (g.set proc.name.name (Decl.proc proc).symbol) (done ++ [proc])) anyFault
      (lowerProc proc) := by
  unfold lowerProc
  split
  · exact fun _ _ => ⟨by rintro a ⟨⟩, fun _ _ => trivial⟩
  · next params hParams =>
    have hDefine : ∀ s, TopAfter g done s →
        TopAfter (g.set proc.name.name (Decl.proc proc).symbol) done
          { s with symbols := s.symbols.define proc.name.name (.proc params) } := by
      intro s hs
      refine ⟨?_, hs.2⟩
      rw [hs.1, symbolsAfter, Scopes.define_outer, Decl.symbol, typesOf_eq hParams]
      rfl
    refine (leads_update hDefine).bind fun _ => leads_inScope proc _ ?_
    exact (leads_lowerVars proc.vars).bind fun _ => (leads_emit _).bind fun _ =>
      (indifferent_procAfter.lowerBody proc.name proc.body).leads

theorem leads_lowerDecl (decl : Decl) :
    Leads (TopAfter g done) (TopAfter (g.set decl.name decl.symbol) (done ++ decl.proc?.toList))
      anyFault (lowerDecl decl) := by
  cases decl with
  | var decl =>
    rw [Decl.proc?, Option.toList_none, List.append_nil]
    exact leads_lowerVar_top decl
  | proc proc => exact leads_lowerProc_after proc

theorem leads_lowerDecls_after (decls : List Decl) :
    Leads (TopAfter g done) (TopAfter (bindDecls g decls) (done ++ decls.filterMap Decl.proc?))
      anyFault (lowerDecls decls) := by
  induction decls generalizing g done with
  | nil =>
    rw [List.filterMap_nil, List.append_nil]
    exact (keeps_pure (Q := fun _ => True) trivial).leads
  | cons decl decls ih =>
    rw [filterMap_proc?_cons, ← List.append_assoc]
    exact (leads_lowerDecl decl).bind fun _ => ih

theorem keeps_lowerData {I : State → Prop}
    (hGlobals : ∀ s globals, I s → I { s with globals := globals }) (stackWords : Nat) :
    Keeps I anyFault (fun _ => True) (lowerData stackWords) := by
  refine keeps_state.bind fun s _ => (keeps_update ?_).bind fun _ _ => keeps_emit _
  exact fun s hs => hGlobals s [] hs

/-- The tables that lowering builds are read off the program. -/
theorem leads_lowerProgram_after (stackWords : Nat) (program : Program) :
    Leads (TopAfter g [])
      (TopAfter (bindDecls g program.decls) (program.decls.filterMap Decl.proc?)) anyFault
      (lowerProgram stackWords program) := by
  refine (leads_emit _).bind fun _ => (leads_lowerDecls_after program.decls).bind fun _ => ?_
  refine Keeps.leads (Q := fun _ => True) ?_
  exact (keeps_emit _).bind fun _ _ =>
    (indifferent_topAfter.lowerStmts program.body.stmts).bind fun _ _ =>
      indifferent_topAfter.settle.bind fun _ _ => (keeps_emit _).bind fun _ _ =>
        keeps_lowerData (fun _ _ hs => hs) stackWords

/-- Whatever mistakes were met, the symbols and the blocks are those of the declarations. -/
theorem lowerFrom_topAfter {stackWords : Nat} {program : Program} {lines : List Line}
    (h : (lowerFrom .initial stackWords program).1 = .ok lines) :
    TopAfter (bindDecls builtinBindings program.decls) (program.decls.filterMap Decl.proc?)
      (lowerFrom .initial stackWords program).2 := by
  have hStart : TopAfter builtinBindings [] State.initial :=
    ⟨Scopes.withBuiltins_eq Builtin.symbol, rfl⟩
  cases hValue : (lowerProgram stackWords program State.initial).value with
  | error fault => simp [lowerFrom, hValue, Except.map] at h
  | ok a => exact (leads_lowerProgram_after stackWords program _ hStart).1 a hValue

end Lower

/-! ### Agreement -/

theorem filter_slots {vars : List VarDecl} (h : (vars.map (·.name.name)).Nodup)
    {decl : VarDecl} (hDecl : decl ∈ vars) :
    (vars.map (·.slot)).filter (·.name = decl.name.name) = [decl.slot] := by
  induction vars with
  | nil => cases hDecl
  | cons first vars ih =>
    rw [List.map_cons, List.nodup_cons] at h
    rw [List.map_cons, List.filter_cons]
    rcases List.mem_cons.mp hDecl with rfl | hMem
    · have hRest : (vars.map (·.slot)).filter (·.name = decl.name.name) = [] := by
        rw [List.filter_eq_nil_iff]
        rintro slot hSlot hName
        obtain ⟨other, hOther, rfl⟩ := List.mem_map.mp hSlot
        exact h.1 (List.mem_map.mpr ⟨other, hOther, of_decide_eq_true hName⟩)
      have hSlot : decl.slot.name = decl.name.name := rfl
      rw [if_pos (decide_eq_true hSlot), hRest]
    · have hName : ¬ first.name.name = decl.name.name := fun hEq =>
        h.1 (hEq ▸ List.mem_map_of_mem hMem)
      have hSlot : ¬ first.slot.name = decl.name.name := hName
      rw [if_neg (fun hEq => hSlot (of_decide_eq_true hEq))]
      exact ih h.2 hMem

theorem get?_scope {proc : ProcDecl} (h : (proc.vars.map (·.name.name)).Nodup) {decl : VarDecl}
    (hDecl : decl ∈ proc.vars) :
    proc.scope.get? decl.name.name = some (decl.symbol false) := by
  have hFind : (proc.vars.find? fun other => other.name.name = decl.name.name) = some decl :=
    findVar_of_mem h hDecl
  have hGet := foldl_set_get? (fun decl : VarDecl => decl.name.name) (·.symbol false) proc.vars []
    decl.name.name h
  rw [hFind] at hGet
  exact hGet

/-- The two derivations give equal tables of scopes: the global scope, and one for each procedure.
The blocks of the frames keep step with them, and each variable of a procedure that declares no
name twice has one slot, whose size is that of the type on record. -/
theorem derivations_agree {program : Program} {stackWords : Nat} {lines : List Line}
    (hKinds : (checkKinds program).2.fault = none)
    (hLower : (lowerFrom .initial stackWords program).1 = .ok lines) :
    (lowerFrom .initial stackWords program).2.symbols = (checkKinds program).1 ∧
      (checkKinds program).1.table.size = program.procs.length + 1 ∧
      (lowerFrom .initial stackWords program).2.frames.table.size = program.procs.length + 1 ∧
      ∀ i proc, program.procs[i]? = some proc → ∃ bindings block,
        (checkKinds program).1.table[i + 1]? = some ⟨some 0, bindings⟩ ∧
          (lowerFrom .initial stackWords program).2.frames.table[i + 1]? = some block ∧
          ((proc.vars.map (·.name.name)).Nodup → ∀ decl ∈ proc.vars, ∃ info,
            bindings.get? decl.name.name = some (.var info) ∧
              block.slots.filter (·.name = decl.name.name) =
                [⟨decl.name.name, info.type.size⟩]) := by
  have hChecked := checkKinds_symbols hKinds
  obtain ⟨hSymbols, hLayout⟩ := Lower.lowerFrom_topAfter hLower
  refine ⟨hSymbols.trans hChecked.symm, ?_, ?_, ?_⟩
  · rw [hChecked]
    simp [Program.scopes, symbolsAfter, Scopes.outer, Program.procs_eq]
  · have hSize := congrArg List.length hLayout
    simpa [Frames.layout, Program.procs_eq] using hSize
  · intro i proc hProc
    rw [Program.procs_eq] at hProc
    have hBlock := congrArg (·[i + 1]?) hLayout
    simp only [Frames.layout, List.getElem?_map, Array.getElem?_toList, List.getElem?_cons_succ,
      hProc, Option.map_some, Option.map_eq_some_iff] at hBlock
    obtain ⟨block, hBlock, hSlots⟩ := hBlock
    refine ⟨proc.scope, block, ?_, hBlock, ?_⟩
    · rw [hChecked]
      simp [Program.scopes, symbolsAfter, Scopes.outer, hProc]
    · intro hNodup decl hDecl
      refine ⟨_, get?_scope hNodup hDecl, ?_⟩
      rw [hSlots, ProcDecl.slots, filter_slots hNodup hDecl]
      rfl

/-- A name is declared twice at the top level and another one among parameters, a constant is
assigned to, a call lacks an argument, and there is no multiplication. -/
def muddled : String :=
  "var x: long; const x: integer; procedure p(n: integer; n: long); begin n := n * 2 end;
   procedure q(x: integer); var k: long; begin x := 1; k := x end;
   begin x := 2; p(1); q(x) end."

theorem muddled_derivations_agree :
    (checkKinds (parse muddled).1).2.fault = none ∧
      (checkKinds (parse muddled).1).2.reports.length = 1 ∧
      (lowerFrom .initial 4 (parse muddled).1).2.errors.length = 2 ∧
      (lowerFrom .initial 4 (parse muddled).1).2.symbols = (checkKinds (parse muddled).1).1 ∧
      (checkKinds (parse muddled).1).1.table.size = 3 ∧
      ∃ block, (lowerFrom .initial 4 (parse muddled).1).2.frames.table[2]? = some block ∧
        block.slots.filter (·.name = "k") = [⟨"k", 2⟩] := by
  have hChecks : (checkKinds (parse muddled).1).2.fault = none ∧
      (checkKinds (parse muddled).1).2.reports.length = 1 ∧
      (lowerFrom .initial 4 (parse muddled).1).2.errors.length = 2 ∧
      (lowerFrom .initial 4 (parse muddled).1).1.toBool = true ∧
      (parse muddled).1.procs.length = 2 ∧
      ((checkKinds (parse muddled).1).1.bindingsAt 2).get? "k" =
        some (.var (.declared .long false false)) ∧
      ∃ proc ∈ (parse muddled).1.procs[1]?, (proc.vars.map (·.name.name)).Nodup ∧
        ∃ decl ∈ proc.vars, decl.name.name = "k" := by
    decide +kernel
  obtain ⟨hFault, hReports, hErrors, hOk, hProcs, hType, proc, hProc, hNodup, decl, hDecl, hName⟩ :=
    hChecks
  cases hLower : (lowerFrom .initial 4 (parse muddled).1).1 with
  | error fault =>
    rw [hLower] at hOk
    cases hOk
  | ok lines =>
    obtain ⟨hSymbols, hSize, -, hEach⟩ := derivations_agree hFault hLower
    obtain ⟨bindings, block, hScope, hBlock, hSlots⟩ := hEach 1 proc hProc
    obtain ⟨info, hInfo, hSlot⟩ := hSlots hNodup decl hDecl
    have hBindings : (checkKinds (parse muddled).1).1.bindingsAt 2 = bindings := by
      rw [Scopes.bindingsAt, hScope]
    rw [hBindings, ← hName, hInfo] at hType
    cases hType
    rw [hName] at hSlot
    exact ⟨hFault, hReports, hErrors, hSymbols, by rw [hSize, hProcs], block, hBlock, hSlot⟩

end ChipPascal
