import ChipPascal.Proofs.Code
import ChipPascal.Proofs.Identifiers

/-!
# The listing of a program

A source text for which compiling returns a listing is a well-named program, and the listing is
the code of its parts in order. In such a listing no label occurs twice, every label that is
referred to occurs, and all names are identifiers.
-/

namespace ChipPascal

open Lowering Line

/-! ### Programs and their parts -/

namespace Program

variable (program : Program)

def symbols : Bindings Symbol := bindDecls builtinBindings program.decls

def env (vars : List VarDecl) : Env :=
  ⟨lookIn program.symbols (bindVars [] vars), vars.map (·.slot)⟩

end Program

theorem ValueType.toNat_size (type : ValueType) : type.size.toNat = type.bytes := by
  cases type <;> rfl

theorem Slot.total_map_slot (vars : List VarDecl) :
    Slot.total (vars.map (·.slot)) = varBytes vars := by
  induction vars with
  | nil => rfl
  | cons decl vars ih =>
    have hSize : decl.slot.size.toNat = decl.typeOf.bytes := ValueType.toNat_size _
    simp [Slot.total, varBytes, hSize, ih]

/-- `ProcCode program proc n lines n'`: the lines are the procedure, from its label to its
return. -/
inductive ProcCode (program : Program) (proc : ProcDecl) (n : Nat) : List Line → Nat → Prop
  | mk {body last n'} (hSize : proc.frameSize ≤ maxFrame)
    (hBody : StmtsCode (program.env proc.vars) proc.body.stmts 0 n body last n') :
    ProcCode program proc n
      (.label (.procedure proc.name.name) :: (enterFrame (UInt8.ofNat proc.frameSize) ++
        (body ++ (settleCode last ++ (leaveFrame ++ [plain .ret, blank]))))) n'

inductive DeclsCode (program : Program) : List Decl → Nat → List Line → Nat → Prop
  | nil (n : Nat) : DeclsCode program [] n [] n
  | var {decl decls n lines n'} (h : DeclsCode program decls n lines n') :
    DeclsCode program (.var decl :: decls) n lines n'
  | proc {proc decls n first n₁ second n₂} (hProc : ProcCode program proc n first n₁)
    (hDecls : DeclsCode program decls n₁ second n₂) :
    DeclsCode program (.proc proc :: decls) n (first ++ second) n₂

def finishCode : List Line := [blank, .label .finish, plain (.jump .finish), blank]

inductive ProgramCode (program : Program) (stackWords : Nat) : List Line → Prop
  | mk {decls n main last n'} (hDecls : DeclsCode program program.decls 0 decls n)
    (hMain : StmtsCode (program.env []) program.body.stmts 0 n main last n') :
    ProgramCode program stackWords
      (preamble program.name.name ++ (decls ++ (.label .entry :: (main ++ (settleCode last ++
        (finishCode ++ dataSection (program.globals.map (·.name.name)) stackWords))))))

/-! ### From lowering to code -/

namespace Lowering

open Lower

variable {s s' : State} {lines : List Line} {g l : Bindings Symbol}

theorem gives_inScope {ε : Type} {x : Lower ε Unit} {out : List Line} {u : Unit} :
    Gives (inScope x out) s lines s' u ↔
      ∃ inner r, Gives x { s with symbols := s.symbols.openLocal, frames := s.frames.openLocal }
          inner r u ∧ lines = inner ++ out ∧
        s' = { r with
          symbols := r.symbols.enter s.symbols.active
          frames := r.frames.enter s.frames.active } := by
  constructor
  · intro h
    simp only [Gives, inScope, Result.mk.injEq] at h
    obtain ⟨hLines, hState, hValue⟩ := h
    exact ⟨_, _, by rw [Gives, ← hValue], hLines.symm, hState.symm⟩
  · rintro ⟨inner, r, hx, rfl, rfl⟩
    rw [Gives] at hx
    simp only [Gives, inScope, hx]

theorem gives_of_eq {ε α : Type} {x : Lower ε α} {r : State} {a b : α} {out : List Line}
    (hx : x s = ⟨out, r, .ok a⟩) (h : Gives x s lines s' b) : lines = out ∧ r = s' ∧ b = a := by
  rw [Gives, hx] at h
  cases h
  exact ⟨rfl, rfl, rfl⟩

/-- What is bound already stays in force while names that are not bound yet are declared. -/
theorem bindDecls_get?_of_get? {ns : List String} {decls : List Decl}
    (hDecls : NamedDecls ns decls) (hg : g.Keys ns) {name : String} {symbol : Symbol}
    (h : g.get? name = some symbol) : (bindDecls g decls).get? name = some symbol := by
  refine (foldl_set_get?_of_notMem (·.name) (·.symbol) decls g ?_).trans h
  intro hMem
  obtain ⟨decl, hDecl, rfl⟩ := List.mem_map.mp hMem
  have hUnbound := (hg.get?_eq_none_iff decl.name).mpr (hDecls.nodup.2 decl hDecl)
  rw [hUnbound] at h
  cases h

theorem lookIn_mono {g' : Bindings Symbol}
    (h : ∀ {name symbol}, g.get? name = some symbol → g'.get? name = some symbol)
    {name : String} {symbol : Symbol} (hLook : lookIn g l name = some symbol) :
    lookIn g' l name = some symbol := by
  unfold lookIn at hLook ⊢
  cases hLocal : l.get? name with
  | some own => simpa [hLocal] using hLook
  | none =>
    rw [hLocal] at hLook
    simpa using h (by simpa using hLook)

variable {program : Program}

/-- No variable and no procedure takes the name of a built-in procedure. -/
theorem Program.env_intrinsicsKept {vars : List VarDecl} (hNamed : program.WellNamed)
    (hVars : NamedVars [] vars) : Env.IntrinsicsKept (program.env vars) := by
  have hg := globalSymbols_builtins.foldl fun decl hDecl => (hNamed.decls.nodup).2 decl hDecl
  exact (hVars.furnished hg).intrinsic

/-- The body of a procedure between the making and the dropping of its frame. -/
theorem code_lowerBody {env : Env} (hEnv : Env.IntrinsicsKept env) {name : Ident} {body : Block}
    {u : Unit} (hs : Stands env 0 s) (h : Gives (lowerBody name body) s lines s' u)
    (hErrors : s'.errors = []) :
    ∃ code last n', Slot.total env.slots ≤ maxFrame ∧
      StmtsCode env body.stmts 0 s.branches code last n' ∧
      lines = enterFrame (UInt8.ofNat (Slot.total env.slots)) ++
        (code ++ (settleCode last ++ leaveFrame)) ∧
      Moved env s s' 0 n' := by
  rw [lowerBody, gives_state_bind] at h
  simp only [hs.shows.size] at h
  split at h
  · obtain ⟨-, rfl⟩ := gives_update.mp h
    simp at hErrors
  · next hSize =>
    obtain ⟨_, hBody, rfl⟩ := gives_emit_bind.mp h
    obtain ⟨_, _, s₁, _, hStmts, hRest, rfl⟩ := gives_bind.mp hBody
    obtain ⟨_, _, s₂, _, hSettle, hEmit, rfl⟩ := gives_bind.mp hRest
    obtain ⟨rfl, rfl⟩ := gives_emit.mp hEmit
    have hErrors₁ := remembers_settle.errors_eq_nil hSettle hErrors
    obtain ⟨last, n', hCode, hMoved⟩ := code_lowerStmts hEnv body.stmts hs hStmts hErrors₁
    obtain ⟨rfl, hMoved₂⟩ := code_settle (hs.move hMoved) hSettle
    rw [hMoved.branches] at hMoved₂
    exact ⟨_, last, n', Nat.le_of_not_lt hSize, hCode, rfl, hMoved.trans hMoved₂⟩

/-- What a body leaves behind is back at the outermost level after its procedure. -/
theorem InProc.leave {env : Env} {slots : List Slot} {last : UInt8} {n : Nat}
    (h : InProc g l slots s) (hSlots : env.slots = slots) (hMoved : Moved env s s' last n) :
    AtTopLevel g { s' with symbols := s'.symbols.enter 0, frames := s'.frames.enter 0 } := by
  obtain ⟨frames, hActive, hShows, rfl⟩ := hMoved
  rw [hSlots] at hShows
  rcases hShows with ⟨hRoot, -, -⟩ | hFrame
  · have hPos := h.2.pos
    rw [← hActive, hRoot.active] at hPos
    exact absurd hPos (Nat.lt_irrefl 0)
  · exact ⟨h.1.enter, hFrame.enter⟩

/-- A procedure is lowered to its code, and leaves lowering at the top level again with the
procedure bound. -/
theorem code_lowerProc {proc : ProcDecl} {u : Unit} (hNamed : program.WellNamed)
    (hVars : NamedVars [] proc.vars) (hs : AtTopLevel g s)
    (hSub : ∀ {name symbol},
      (g.set proc.name.name (Decl.proc proc).symbol).get? name = some symbol →
        program.symbols.get? name = some symbol)
    (h : Gives (lowerProc proc) s lines s' u) (hErrors : s'.errors = []) :
    ProcCode program proc s.branches lines s'.branches ∧
      AtTopLevel (g.set proc.name.name (Decl.proc proc).symbol) s' ∧ s'.globals = s.globals := by
  have hParams := valueTypes_eq fun decl hd => hVars.typed decl (List.mem_append_left proc.locals hd)
  simp only [lowerProc, hParams] at h
  rw [gives_update_bind] at h
  obtain ⟨inner, r, hInner, rfl, rfl⟩ := gives_inScope.mp h
  have hTop : AtTopLevel (g.set proc.name.name (Decl.proc proc).symbol) { s with
      symbols := s.symbols.define proc.name.name (Decl.proc proc).symbol } :=
    ⟨hs.1.define _ _, hs.2⟩
  obtain ⟨s₁, hVarsRun, hs₁, hGlobals, hBranches, -⟩ := lowerVars_inProc
    (s := { s with
      symbols := (s.symbols.define proc.name.name (Decl.proc proc).symbol).openLocal
      frames := s.frames.openLocal })
    ⟨hTop.1.openLocal, hTop.2.openLocal⟩ hVars.typed
  obtain ⟨_, _, _, _, hDeclared, hBody, rfl⟩ := gives_bind.mp hInner
  obtain ⟨rfl, rfl, -⟩ := gives_of_eq hVarsRun hDeclared
  obtain ⟨_, hLowered, rfl⟩ := gives_emit_bind.mp hBody
  have hStands : Stands (program.env proc.vars) 0 s₁ := by
    refine ⟨?_, .inr hs₁.2⟩
    intro name symbol hGet
    rw [hs₁.1.get?] at hGet
    exact lookIn_mono hSub hGet
  obtain ⟨code, last, n', hSize, hCode, rfl, hMoved⟩ :=
    code_lowerBody (Program.env_intrinsicsKept hNamed hVars) hStands hLowered hErrors
  have hActive : (s.symbols.define proc.name.name
      (.proc (proc.params.map (·.typeOf)))).active = 0 := hTop.1.active
  have hRoot : s.frames.active = 0 := hTop.2.active
  refine ⟨?_, ?_, ?_⟩
  · have hTotal : Slot.total (program.env proc.vars).slots = proc.frameSize :=
      Slot.total_map_slot proc.vars
    rw [hTotal] at hSize ⊢
    rw [hBranches] at hCode
    have hCount : r.branches = n' := hMoved.branches
    simpa [hCount] using ProcCode.mk hSize hCode
  · simp only [hActive, hRoot]
    exact hs₁.leave rfl hMoved
  · obtain ⟨frames, -, -, rfl⟩ := hMoved
    exact hGlobals

theorem remembers_inScope {ε : Type} {x : Lower ε Unit} (hx : Remembers x) (out : List Line) :
    Remembers (inScope x out) :=
  fun _ hs => hx _ hs

theorem remembers_lowerVar (decl : VarDecl) : Remembers (lowerVar decl) := by
  unfold lowerVar
  split
  · exact remembers_stop _
  · refine remembers_update fun s => ?_
    split <;> rfl

theorem remembers_lowerVars (decls : List VarDecl) : Remembers (lowerVars decls) := by
  induction decls with
  | nil => exact remembers_pure _
  | cons decl decls ih => exact (remembers_lowerVar decl).bind fun _ => ih

theorem remembers_lowerBody (name : Ident) (body : Block) : Remembers (lowerBody name body) := by
  refine remembers_state.bind fun s => ?_
  dsimp only
  split
  · intro s hs
    simp [update]
  · exact (remembers_emit _).bind fun _ => (remembers_lowerStmts _).bind fun _ =>
      remembers_settle.bind fun _ => remembers_emit _

theorem remembers_lowerDecls (decls : List Decl) : Remembers (lowerDecls decls) := by
  induction decls with
  | nil => exact remembers_pure _
  | cons decl decls ih =>
    refine Remembers.bind ?_ fun _ => ih
    cases decl with
    | var decl => exact remembers_lowerVar decl
    | proc proc =>
      simp only [lowerDecl, lowerProc]
      split
      · exact remembers_stop _
      · refine Remembers.bind (remembers_update ?_) fun _ => remembers_inScope ?_ _
        · intro _
          rfl
        · exact (remembers_lowerVars _).bind fun _ => (remembers_emit _).bind fun _ =>
            remembers_lowerBody _ _

theorem code_lowerDecls {decls : List Decl} {ns : List String} {u : Unit}
    (hNamed : program.WellNamed) (hDecls : NamedDecls ns decls) (hg : g.Keys ns)
    (hSymbols : program.symbols = bindDecls g decls) (hs : AtTopLevel g s)
    (h : Gives (lowerDecls decls) s lines s' u) (hErrors : s'.errors = []) :
    DeclsCode program decls s.branches lines s'.branches ∧ AtTopLevel (bindDecls g decls) s' ∧
      s'.globals = s.globals ++ decls.filterMap fun
        | .var decl => some decl.name.name
        | .proc _ => none := by
  induction decls generalizing g ns s lines with
  | nil =>
    obtain ⟨rfl, rfl, -⟩ := gives_pure.mp h
    exact ⟨.nil _, hs, by simp⟩
  | cons decl decls ih =>
    rw [lowerDecls] at h
    obtain ⟨_, _, s₁, _, hDecl, hRest, rfl⟩ := gives_bind.mp h
    have hErrors₁ := (remembers_lowerDecls decls).errors_eq_nil hRest hErrors
    cases decl with
    | var decl =>
      obtain ⟨-, hType, hMore⟩ := hDecls
      obtain ⟨rfl, rfl, -⟩ := gives_of_eq (lowerVar_top hs hType) hDecl
      have hNext : AtTopLevel (g.set decl.name.name (decl.symbol true)) { s with
          symbols := s.symbols.define decl.name.name (decl.symbol true)
          globals := s.globals ++ [decl.name.name] } := ⟨hs.1.define _ _, hs.2⟩
      obtain ⟨hCode, hTop, hGlobals⟩ := ih hMore (hg.set decl.name.name (decl.symbol true))
        hSymbols hNext hRest
      refine ⟨.var hCode, hTop, ?_⟩
      rw [hGlobals]
      simp
    | proc proc =>
      obtain ⟨hFresh, hProc, hMore⟩ := hDecls
      have hKeys := hg.set proc.name.name (Decl.proc proc).symbol
      have hSub : ∀ {name symbol},
          (g.set proc.name.name (Decl.proc proc).symbol).get? name = some symbol →
            program.symbols.get? name = some symbol := by
        intro name symbol hGet
        rw [hSymbols]
        exact bindDecls_get?_of_get? hMore hKeys hGet
      obtain ⟨hCode₁, hTop₁, hGlobals₁⟩ :=
        code_lowerProc hNamed hProc.vars hs hSub hDecl hErrors₁
      obtain ⟨hCode₂, hTop₂, hGlobals₂⟩ := ih hMore hKeys hSymbols hTop₁ hRest
      refine ⟨.proc hCode₁ hCode₂, hTop₂, ?_⟩
      rw [hGlobals₂, hGlobals₁]
      simp

theorem globals_names (program : Program) :
    (program.decls.filterMap fun
      | .var decl => some decl.name.name
      | .proc _ => none) = program.globals.map (·.name.name) := by
  rw [Program.globals, List.map_filterMap]
  congr 1
  funext decl
  cases decl <;> rfl

/-- A program that was lowered without a mistake has been lowered to its code. -/
theorem code_lowerProgram {stackWords : Nat} {u : Unit} (hNamed : program.WellNamed)
    (h : Gives (lowerProgram stackWords program) State.initial lines s' u)
    (hErrors : s'.errors = []) : ProgramCode program stackWords lines := by
  obtain ⟨_, hAll, rfl⟩ := gives_emit_bind.mp h
  obtain ⟨_, _, s₁, _, hDecls, hRest, rfl⟩ := gives_bind.mp hAll
  obtain ⟨_, hBody, rfl⟩ := gives_emit_bind.mp hRest
  obtain ⟨_, _, s₂, _, hStmts, hFinish, rfl⟩ := gives_bind.mp hBody
  obtain ⟨_, _, s₃, _, hSettle, hEnd, rfl⟩ := gives_bind.mp hFinish
  obtain ⟨_, hData, rfl⟩ := gives_emit_bind.mp hEnd
  rw [lowerData, gives_state_bind, gives_update_bind, gives_emit] at hData
  obtain ⟨rfl, rfl⟩ := hData
  have hErrors₂ : s₂.errors = [] := remembers_settle.errors_eq_nil hSettle hErrors
  have hErrors₁ := (remembers_lowerStmts _).errors_eq_nil hStmts hErrors₂
  obtain ⟨hCode, hTop, hGlobals⟩ := code_lowerDecls hNamed hNamed.decls
    (keys_builtins Builtin.symbol) rfl atTopLevel_initial hDecls hErrors₁
  have hNone : NamedVars [] [] := trivial
  have hStands : Stands (program.env []) 0 s₁ := by
    refine ⟨?_, hTop.2.shows⟩
    intro name symbol hGet
    rw [hTop.1.get?] at hGet
    exact hGet
  obtain ⟨last, n', hMain, hMoved⟩ := code_lowerStmts
    (Program.env_intrinsicsKept hNamed hNone) _ hStands hStmts hErrors₂
  obtain ⟨rfl, hMoved'⟩ := code_settle (hStands.move hMoved) hSettle
  have hNames : s₃.globals = program.globals.map (·.name.name) := by
    obtain ⟨_, -, -, rfl⟩ := hMoved.trans hMoved'
    rw [← globals_names]
    exact hGlobals
  rw [hNames]
  exact .mk hCode hMain

end Lowering

/-! ### Names and their declarations -/

section

variable {program : Program} {vars : List VarDecl} {name : String} {info : VarInfo}

/-- Names are declared once, so the table has the one declaration of a name there is. -/
theorem Program.symbols_get? (hNamed : program.WellNamed) (name : String) :
    program.symbols.get? name =
      ((program.decls.find? fun decl => decl.name = name).map (·.symbol)).or
        (builtinBindings.get? name) :=
  foldl_set_get? Decl.name Decl.symbol program.decls builtinBindings name hNamed.decls.nodup.1

theorem builtinBindings_get? {symbol : Symbol} (h : builtinBindings.get? name = some symbol) :
    (∃ type, symbol = .type type) ∨ ∃ intrinsic, Intrinsic.ofName? name = some intrinsic := by
  obtain ⟨b, -, hb⟩ := List.mem_map.mp (Bindings.mem_of_get? h)
  obtain ⟨rfl, rfl⟩ := Prod.mk.inj hb
  cases b with
  | type type => exact .inl ⟨type, rfl⟩
  | intrinsic intrinsic =>
    refine .inr ⟨intrinsic, ?_⟩
    cases intrinsic <;> rfl

theorem findVar_globals {decl : VarDecl}
    (h : (program.decls.find? fun decl => decl.name = name) = some (.var decl)) :
    findVar program.globals name = some decl := by
  unfold Program.globals findVar
  generalize program.decls = decls at h ⊢
  induction decls with
  | nil => simp at h
  | cons first decls ih =>
    by_cases hName : first.name = name
    · simp only [List.find?_cons, hName, decide_true, Option.some.injEq] at h
      subst h
      have hDecl : decl.name.name = name := hName
      simp [hDecl]
    · simp only [List.find?_cons, hName, decide_false] at h
      cases first with
      | var other =>
        have hOther : other.name.name ≠ name := hName
        simpa [hOther] using ih h
      | proc proc => simpa using ih h

theorem find?_procs {proc : ProcDecl}
    (h : (program.decls.find? fun decl => decl.name = name) = some (.proc proc)) :
    (program.procs.find? fun proc => proc.name.name = name) = some proc := by
  unfold Program.procs
  generalize program.decls = decls at h ⊢
  induction decls with
  | nil => simp at h
  | cons first decls ih =>
    by_cases hName : first.name = name
    · simp only [List.find?_cons, hName, decide_true, Option.some.injEq] at h
      subst h
      have hProc : proc.name.name = name := hName
      simp [hProc]
    · simp only [List.find?_cons, hName, decide_false] at h
      cases first with
      | var other => simpa using ih h
      | proc other =>
        have hOther : other.name.name ≠ name := hName
        simpa [hOther] using ih h

/-- Local variables hide what is declared outside. -/
theorem look_eq (hVars : NamedVars [] vars) (name : String) :
    (program.env vars).look name =
      ((findVar vars name).map (·.symbol false)).or (program.symbols.get? name) := by
  show lookIn program.symbols (bindVars [] vars) name = _
  rw [lookIn, bindVars_get? hVars]
  rfl

/-- A variable that is not global is declared in the procedure. -/
theorem look_local (hNamed : program.WellNamed) (hVars : NamedVars [] vars)
    (h : (program.env vars).look name = some (.var info)) (hLocal : info.isGlobal = false) :
    ∃ decl, findVar vars name = some decl ∧ info.type = decl.typeOf := by
  rw [look_eq hVars] at h
  cases hFind : findVar vars name with
  | some decl =>
    simp only [hFind, Option.map_some, Option.some_or, Option.some.injEq, VarDecl.symbol,
      Symbol.var.injEq] at h
    exact ⟨decl, rfl, by rw [← h, VarInfo.type_declared]⟩
  | none =>
    simp only [hFind, Option.map_none, Option.none_or] at h
    have hg := globalSymbols_builtins.foldl fun decl hDecl => (hNamed.decls.nodup).2 decl hDecl
    simp [(hg.isGlobal name info h).1] at hLocal

/-- A global variable is declared outside procedures, and in the procedure its name stands for
nothing else. -/
theorem look_global (hNamed : program.WellNamed) (hVars : NamedVars [] vars)
    (h : (program.env vars).look name = some (.var info)) (hGlobal : info.isGlobal = true) :
    findVar vars name = none ∧
      ∃ decl, findVar program.globals name = some decl ∧ info.type = decl.typeOf := by
  rw [look_eq hVars] at h
  cases hFind : findVar vars name with
  | some decl =>
    simp only [hFind, Option.map_some, Option.some_or, Option.some.injEq, VarDecl.symbol,
      Symbol.var.injEq] at h
    simp [← h] at hGlobal
  | none =>
    refine ⟨rfl, ?_⟩
    simp only [hFind, Option.map_none, Option.none_or, Program.symbols_get? hNamed] at h
    cases hDecl : program.decls.find? fun decl => decl.name = name with
    | none =>
      simp only [hDecl, Option.map_none, Option.none_or] at h
      obtain ⟨b, -, hb⟩ := List.mem_map.mp (Bindings.mem_of_get? h)
      cases b <;> simp [Builtin.symbol] at hb
    | some decl =>
      simp only [hDecl, Option.map_some, Option.some_or, Option.some.injEq] at h
      cases decl with
      | proc proc => simp [Decl.symbol] at h
      | var decl =>
        simp only [Decl.symbol, VarDecl.symbol, Symbol.var.injEq] at h
        exact ⟨decl, findVar_globals hDecl, by rw [← h, VarInfo.type_declared]⟩

/-- A procedure that is not an intrinsic is declared in the program. -/
theorem look_proc (hNamed : program.WellNamed) (hVars : NamedVars [] vars)
    {params : List ValueType} (h : (program.env vars).look name = some (.proc params))
    (hName : Intrinsic.ofName? name = none) :
    ∃ proc, (program.procs.find? fun proc => proc.name.name = name) = some proc ∧
      params = proc.params.map (·.typeOf) := by
  rw [look_eq hVars] at h
  cases hFind : findVar vars name with
  | some decl => simp [hFind, VarDecl.symbol] at h
  | none =>
    simp only [hFind, Option.map_none, Option.none_or, Program.symbols_get? hNamed] at h
    cases hDecl : program.decls.find? fun decl => decl.name = name with
    | none =>
      simp only [hDecl, Option.map_none, Option.none_or] at h
      rcases builtinBindings_get? h with ⟨type, hType⟩ | ⟨intrinsic, hIntrinsic⟩
      · simp at hType
      · simp [hName] at hIntrinsic
    | some decl =>
      simp only [hDecl, Option.map_some, Option.some_or, Option.some.injEq] at h
      cases decl with
      | var decl => simp [Decl.symbol, VarDecl.symbol] at h
      | proc proc =>
        simp only [Decl.symbol, Symbol.proc.injEq] at h
        exact ⟨proc, find?_procs hDecl, h.symm⟩

end

/-! ### Compiled texts -/

/-- The lines are the code of a program in which every name is an identifier that was declared. -/
structure Compiled (program : Program) (stackWords : Nat) (lines : List Line) : Prop where
  named : program.WellNamed
  spelled : program.Spelled
  code : ProgramCode program stackWords lines

theorem gives_of_lowerFrom {s s' : State} {stackWords : Nat} {program : Program}
    {lines : List Line} (h : lowerFrom s stackWords program = (.ok lines, s')) :
    Lower.Gives (lowerProgram stackWords program) s lines s' () := by
  simp only [lowerFrom, Prod.mk.injEq] at h
  obtain ⟨hValue, rfl⟩ := h
  cases hRun : lowerProgram stackWords program s with
  | mk out state value =>
    rw [hRun] at hValue
    cases value with
    | error fault => simp [Except.map] at hValue
    | ok a =>
      simp only [Except.map, Except.ok.injEq] at hValue
      rw [← hValue]
      exact hRun

theorem lowerChecked_listing {options : CompileOptions} {program : Program} {report : Report}
    {c : Compilation} {lines : List Line} (hNamed : program.WellNamed)
    (h : lowerChecked options program report = .ok c) (hLines : c.listing = some lines) :
    ProgramCode program options.stackWords lines := by
  unfold lowerChecked at h
  split at h
  · cases h
  · next lines' s hLower =>
    cases h
    simp only at hLines
    split at hLines
    · cases hLines
    · next hErrors =>
      obtain rfl := Option.some.inj hLines
      have hNone := Report.eq_nil_of_not_hasErrors (Bool.not_eq_true _ ▸ hErrors)
      exact code_lowerProgram hNamed (gives_of_lowerFrom hLower) hNone

/-- A text for which compiling returns a listing is a program that was lowered to it. -/
theorem compile_listing {source : String} {options : CompileOptions} {c : Compilation}
    {lines : List Line} (h : compile source options = .ok c) (hLines : c.listing = some lines) :
    Compiled (parse source).1 options.stackWords lines := by
  unfold compile at h
  dsimp only at h
  split at h
  · unfold compileProgram at h
    dsimp only at h
    split at h
    · cases h
      cases hLines
    next hNoErrors =>
    have hNames := Report.eq_nil_of_not_hasErrors (Bool.not_eq_true _ ▸ hNoErrors)
    have hNamed := Program.wellNamed_of_nameErrors hNames
    split at h
    · cases h
    split at h
    · cases h
      cases hLines
    split at h
    · cases h
    split at h
    · cases h
      cases hLines
    exact ⟨hNamed, parse_spelled source, lowerChecked_listing hNamed h hLines⟩
  · cases h
    cases hLines

/-- Compiling a given text returns a listing of which a test tells something. -/
theorem exists_listing {source : String} {options : CompileOptions} {p : List Line → Bool}
    (h : ((compile source options).toOption.bind (·.listing)).any p = true) :
    ∃ c lines, compile source options = .ok c ∧ c.listing = some lines ∧ p lines = true := by
  cases hCompile : compile source options with
  | error fault => simp [hCompile, Except.toOption] at h
  | ok c =>
    cases hLines : c.listing with
    | none => simp [hCompile, hLines, Except.toOption] at h
    | some lines =>
      refine ⟨c, lines, rfl, hLines, ?_⟩
      simpa [hCompile, hLines, Except.toOption] using h

/-! ### Texts by their characters -/

/-- Reads a program from its characters, which takes less to evaluate than to take them from the
text. -/
def parseChars (text : List Char) : Program × List Error :=
  let placed := Lexer.place 0 (Lexer.lexemes text)
  let (program, s) :=
    Cursor.readProgram ⟨placed.filterMap Lexer.token?, byteLength text, .nowhere, []⟩
  (program, placed.filterMap Lexer.error? ++ s.errors.reverse)

theorem parse_ofList (text : List Char) : parse (String.ofList text) = parseChars text := by
  simp only [parse, tokenize, parseChars, String.toList_ofList]

def compileChars (text : List Char) (options : CompileOptions) : Except Fault Compilation :=
  let (program, errors) := parseChars text
  if errors.isEmpty then compileProgram options program
  else .ok ⟨none, Report.empty.addErrors errors⟩

/-- Compiling a text that is given by its characters, in a form that evaluates. -/
theorem compile_ofList (text : List Char) (options : CompileOptions) :
    compile (String.ofList text) options = compileChars text options := by
  simp only [compile, parse_ofList, compileChars]

end ChipPascal
