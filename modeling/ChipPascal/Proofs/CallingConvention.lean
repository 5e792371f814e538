import ChipPascal.Proofs.Preservation

/-!
# The calling convention

A call lays its arguments where the callee has its parameters, whatever their types, and brings the
stack pointer, the displaced base and the bytes of the stack back as they were. This is shown from
any state of the machine in which the frame of the caller is live, whether or not the program gets
there; what the callee does is limited only by the height of the stack. All calls of a run that the
stack can hold are made from such states.
-/

namespace ChipPascal

open Machine Line
open Lowering hiding State

/-! ### Call statements in a listing -/

section

variable {env : Env} {name : Ident} {args : List Expr}

/-- The code of a call stands somewhere among the lines. -/
def HasCall (env : Env) (name : Ident) (args : List Expr) (lines : List Line) : Prop :=
  ∃ last code last', CallCode env name last args code last' ∧ code <:+: lines

theorem HasCall.mono {a b : List Line} (h : HasCall env name args a) (hInfix : a <:+: b) :
    HasCall env name args b := by
  obtain ⟨last, code, last', hCode, hIn⟩ := h
  exact ⟨last, code, last', hCode, hIn.trans hInfix⟩

mutual

/-- Each call of a statement has its code among the lines of the statement. -/
theorem StmtCode.hasCall {last last' : UInt8} {lines : List Line} {n n' : Nat} (stmt : Stmt)
    (h : StmtCode env stmt last n lines last' n') (hCall : (name, args) ∈ stmt.calls) :
    HasCall env name args lines := by
  cases stmt with
  | block stmts span =>
    cases h with
    | block h => exact StmtsCode.hasCall stmts h (by simpa [Stmt.calls] using hCall)
  | assign target value => simp [Stmt.calls] at hCall
  | call name args =>
    cases h with
    | call h =>
      simp only [Stmt.calls, List.mem_singleton, Prod.mk.injEq] at hCall
      obtain ⟨rfl, rfl⟩ := hCall
      exact ⟨_, _, _, h, List.infix_refl _⟩
  | ifThen cond yes span =>
    cases h with
    | @ifThen _ _ _ _ _ test body last₁ _ hCond hYes =>
    have hBody := StmtCode.hasCall yes hYes (by simpa [Stmt.calls] using hCall)
    exact hBody.mono ⟨test, settleCode last₁ ++ [.label (.elseBranch n)], by simp⟩
  | ifElse cond yes no span =>
    cases h with
    | @ifElse _ _ _ _ _ _ test first last₁ n₁ second last₂ _ hCond hYes hNo =>
    rcases List.mem_append.mp (by simpa only [Stmt.calls] using hCall) with hCall | hCall
    · exact (StmtCode.hasCall yes hYes hCall).mono ⟨test, _, List.append_assoc ..⟩
    · refine (StmtCode.hasCall no hNo hCall).mono ⟨test ++ (first ++ (settleCode last₁ ++
        [plain (.jump (.endBranch n)), .label (.elseBranch n)])),
          settleCode last₂ ++ [.label (.endBranch n)], by simp⟩

theorem StmtsCode.hasCall {last last' : UInt8} {lines : List Line} {n n' : Nat}
    (stmts : List Stmt) (h : StmtsCode env stmts last n lines last' n')
    (hCall : (name, args) ∈ callsIn stmts) : HasCall env name args lines := by
  cases stmts with
  | nil => simp [callsIn] at hCall
  | cons stmt stmts =>
    cases h with
    | @cons _ _ _ _ first last₁ n₁ second _ _ hStmt hStmts =>
    rcases List.mem_append.mp (by simpa only [callsIn] using hCall) with hCall | hCall
    · exact (StmtCode.hasCall stmt hStmt hCall).mono (List.prefix_append first second).isInfix
    · exact (StmtsCode.hasCall stmts hStmts hCall).mono (List.suffix_append first second).isInfix

end

end

/-- Every call of a program has its code in the listing. -/
theorem ProgramCode.hasCall {program : Program} {stackWords : Nat} {lines : List Line}
    (h : ProgramCode program stackWords lines) {vars : List VarDecl} {stmts : List Stmt}
    (hBody : (vars, stmts) ∈ program.bodies) {name : Ident} {args : List Expr}
    (hCall : (name, args) ∈ callsIn stmts) : HasCall (program.env vars) name args lines := by
  cases h with
  | @mk decls n main last n' hDecls hMain =>
  generalize hTail : settleCode last ++ _ = tail
  have hMainIn : main <:+: preamble program.name.name ++ (decls ++ (.label .entry :: (main ++ tail))) :=
    ⟨preamble program.name.name ++ (decls ++ [.label .entry]), tail, by simp⟩
  have hDeclsIn :
      decls <:+: preamble program.name.name ++ (decls ++ (.label .entry :: (main ++ tail))) :=
    ⟨preamble program.name.name, .label .entry :: (main ++ tail), by simp⟩
  rcases List.mem_cons.mp hBody with hMainBody | hProcBody
  · cases hMainBody
    exact (StmtsCode.hasCall _ hMain hCall).mono hMainIn
  · obtain ⟨proc, hProc, hEq⟩ := List.mem_map.mp hProcBody
    cases hEq
    obtain ⟨m, code, m', rest, hCode, hSuffix⟩ :=
      hDecls.proc_suffix (Program.mem_procs.mp hProc)
    have hCodeIn := ((List.prefix_append code rest).isInfix.trans hSuffix.isInfix).trans hDeclsIn
    cases hCode with
    | @mk body last' _ hSize hBody =>
    refine ((StmtsCode.hasCall _ hBody hCall).mono ?_).mono hCodeIn
    exact ⟨.label (.procedure proc.name.name) :: enterFrame (UInt8.ofNat proc.frameSize),
      settleCode last' ++ (leaveFrame ++ [plain .ret, blank]), by simp⟩

/-! ### Returning from a call -/

namespace Machine

variable {image : Image} {t u r v v' : State} {k : Nat}

/-- The call made in state `t` returns in state `v`; all the while before, it is in progress. -/
structure ReturnsTo (image : Image) (t v : State) : Prop where
  pc : v.pc = t.pc + 2
  calls : v.calls = t.calls
  first : ∃ n, 0 < n ∧ after image n t = some v ∧
    ∀ m u, 0 < m → m < n → after image m t = some u → t.calls.length < u.calls.length

/-- A call comes back in at most one state. -/
theorem ReturnsTo.unique (h : ReturnsTo image t v) (h' : ReturnsTo image t v') : v = v' := by
  obtain ⟨n, hPos, hn, hBefore⟩ := h.first
  obtain ⟨n', hPos', hn', hBefore'⟩ := h'.first
  rcases Nat.lt_trichotomy n n' with hlt | rfl | hlt
  · have hDepth := hBefore' n v hPos hlt hn
    rw [h.calls] at hDepth
    omega
  · exact Option.some.inj (hn.symm.trans hn')
  · have hDepth := hBefore n' v' hPos' hlt hn'
    rw [h'.calls] at hDepth
    omega

theorem ReturnsTo.of_path (hCall : step image t = .ok (.running u))
    (hDepth : t.calls.length < u.calls.length) (hPath : Path image u.calls.length k u r)
    (hRet : step image r = .ok (.running v)) (hPc : v.pc = t.pc + 2) (hCalls : v.calls = t.calls) :
    ReturnsTo image t v := by
  obtain ⟨n, hn, -, hAll⟩ := hPath
  refine ⟨hPc, hCalls, n + 1 + 1, Nat.succ_pos _, ?_, ?_⟩
  · rw [after_succ hCall, after_add hn, after_succ hRet]
    rfl
  · intro m x hPos hm hx
    obtain ⟨m, rfl⟩ := Nat.exists_eq_succ_of_ne_zero (Nat.ne_of_gt hPos)
    rw [after_succ hCall] at hx
    exact Nat.lt_of_lt_of_le hDepth (hAll m (by omega) x hx)

/-- The world as memory holds it, before any call. -/
def State.world (s : State) (program : Program) (addr : Label → UInt16) : World where
  globals name :=
    match findVar program.globals name with
    | some decl => s.valueAt (addr (.global name)).toNat decl.typeOf.isWide
    | none => 0
  bcdLow := s.digitsAt (addr .bcdLow).toNat
  bcdHigh := s.digitsAt (addr .bcdHigh).toNat
  entered := 0

def State.locals (s : State) (addr : Label → UInt16) (vars : List VarDecl) (b : Nat) : Store :=
  fun name =>
    match findVar vars name with
    | some decl => s.valueAt (zone addr + b + varOffset vars name) decl.typeOf.isWide
    | none => 0

end Machine

theorem holdsWorld_world (program : Program) (addr : Label → UInt16) (s : State) :
    HoldsWorld program addr (s.world program addr) s := by
  refine ⟨?_, rfl, rfl⟩
  intro name decl hFind
  simp only [State.world, hFind]

theorem holdsLocals_locals (addr : Label → UInt16) (vars : List VarDecl) (b : Nat) (s : State) :
    HoldsLocals addr vars b (s.locals addr vars b) s := by
  intro name decl hFind
  simp only [State.locals, hFind]

theorem world_eq_initial {program : Program} {addr : Label → UInt16} {s : State}
    (h : ∀ a, s.byte a = 0) : s.world program addr = World.initial := by
  simp only [State.world, State.valueAt, State.digitsAt, h, World.initial]
  congr 1
  funext name
  split <;> simp [word]

theorem locals_eq_zero {addr : Label → UInt16} {vars : List VarDecl} {b : Nat} {s : State}
    (h : ∀ a, s.byte a = 0) : s.locals addr vars b = fun _ => 0 := by
  funext name
  simp only [State.locals, State.valueAt, h]
  split <;> simp [word]

/-! ### Before and after a call -/

/-- No more bytes of the stack are ever needed for a call than the stack pointer can count. -/
def CallFits (program : Program) (image : Image) (vars : List VarDecl) (b : Nat) (name : String)
    (args : List Expr) (s : State) : Prop :=
  ∃ start, StartsFrom program image s start ∧
    ∀ fuel, runCall program (runProc program start fuel) vars (s.reg .stack).toNat name args
      (s.world program image.addr) (s.locals image.addr vars b) ≠ .error .overflow

/-- The call instruction that is carried out in state `t` leads to the first line of the body of
`proc`, reached in state `e`. -/
structure Enters (lines : List Line) (image : Image) (proc : ProcDecl) (t e : State) : Prop where
  path : Path image t.calls.length 1 t e
  calls : e.calls = (t.pc + 2) :: t.calls
  pc : ∃ body, (.label (.procedure proc.name.name) ::
    (enterFrame (UInt8.ofNat proc.frameSize) ++ body)) <:+ lines ∧ At lines body e.pc

/-- Each parameter has the value of its argument, cut to its type, in its slot of the frame that
the base register points at. -/
def HoldsArgs (addr : Label → UInt16) (proc : ProcDecl) (args : List Expr) (store : Store)
    (e : State) : Prop :=
  ∀ (i : Nat) param arg, proc.params[i]? = some param → args[i]? = some arg →
    ∃ offset, Slot.offset? param.name.name (proc.vars.map (·.slot)) = some offset ∧
      e.valueAt (zone addr + (e.reg .base).toNat + offset.toNat) param.typeOf.isWide =
        arg.valueAs store param.typeOf

/-- A call from state `s`, the instruction of which is carried out in state `t`, keeps to the
convention. -/
structure KeepsConvention (lines : List Line) (image : Image) (proc : ProcDecl) (args : List Expr)
    (store : Store) (s t : State) : Prop where
  path : Path image s.calls.length 0 s t
  calls : t.calls = s.calls
  pc : ∃ rest, At lines (plain (.call (.procedure proc.name.name)) :: rest) t.pc
  ones : t.reg .ones = 0xFF
  stack : t.reg .stack = s.reg .stack
  same : SameStack image.addr (s.reg .stack).toNat s t
  enters : ∃ e, Enters lines image proc t e ∧ HoldsArgs image.addr proc args store e
  returns : ∃ v, ReturnsTo image t v
  restores : ∀ v, ReturnsTo image t v → v.reg .stack = t.reg .stack ∧ v.reg .base = t.reg .base ∧
    v.reg .ones = 0xFF ∧ SameStack image.addr (t.reg .stack).toNat t v

section

variable {program : Program} {lines rest : List Line} {image : Image} {vars : List VarDecl}
  {b live : Nat} {last last' : UInt8} {w w' : World} {locals store : Store} {o s t u : State}
  {start : Nat → Store} {proc : ProcDecl} {args : List Expr} {values : List Nat}

/-- The staged values are those of the arguments in the caller's variables, none of which changes on
the way. -/
theorem stageArgs_eq {args : List (Expr × ValueType)}
    (h : stageArgs store live args = .ok values) :
    values = args.map fun arg => arg.1.valueAs store arg.2 := by
  induction args generalizing live values with
  | nil =>
    cases h
    rfl
  | cons arg rest ih =>
    obtain ⟨-, h⟩ := eq_ok_of_fits h
    obtain ⟨-, h⟩ := eq_ok_of_fits h
    obtain ⟨others, hRest, rfl⟩ := exists_of_bind_pure h
    rw [ih hRest]
    rfl

/-- A state in a body is one of the simulation, with the world and the locals that are read off it.
-/
theorem InBody.matches (h : InBody vars b last s) (program : Program) (addr : Label → UInt16) :
    Matches program addr vars b (s.reg .stack).toNat (s.world program addr)
      (s.locals addr vars b) last s :=
  ⟨h.ones, h.base, UInt8.ofNat_toNat.symm, holdsWorld_world program addr s,
    holdsLocals_locals addr vars b s⟩

theorem InBody.framed (h : InBody vars b last s) (hLoaded : Loaded program lines image)
    (hVars : NamedVars [] vars) :
    Framed program image.addr vars b (s.reg .stack).toNat :=
  ⟨hLoaded.named, hVars, hLoaded.data, hLoaded.room, h.live,
    Nat.le_of_lt_succ (s.reg .stack).toNat_lt⟩

/-- What the caller has laid on the stack is what the callee finds in the slots of its
parameters. -/
theorem AtEntry.holdsArgs (h : AtEntry program image o start proc values live w u)
    (hVars : NamedVars [] proc.vars) (hFits : live + 1 + proc.frameSize ≤ stackLimit)
    (hValues : values =
      (args.zip (proc.params.map (·.typeOf))).map fun arg => arg.1.valueAs store arg.2)
    (ht : Matches program image.addr proc.vars (live + 1) (live + 1 + proc.frameSize) w'
      (proc.startLocals (start w.entered) values) 0 t) :
    HoldsArgs image.addr proc args store t := by
  intro i param arg hParam hArg
  have hLimit : live + 1 + proc.frameSize ≤ 255 := hFits
  have hStack : (u.reg .stack).toNat = live := by
    rw [h.stack]
    exact UInt8.toNat_ofNat_of_lt' (by show live < 256; omega)
  have hValue : values[i]? = some (arg.valueAs store param.typeOf) := by
    have hZip : (args.zip (proc.params.map (·.typeOf)))[i]? = some (arg, param.typeOf) :=
      List.getElem?_zip_eq_some.mpr ⟨hArg, by simp [hParam]⟩
    rw [hValues, List.getElem?_map, hZip]
    rfl
  have hNodup : ((proc.params ++ proc.locals).map (·.name.name)).Nodup := hVars.nodup.1
  have hMem : param ∈ proc.vars := List.mem_append_left _ (List.mem_of_getElem? hParam)
  have hFind : findVar proc.vars param.name.name = some param := findVar_of_mem hNodup hMem
  have hSize : varOffset proc.vars param.name.name + param.typeOf.bytes ≤ proc.frameSize :=
    varOffset_add_le hFind
  have hOffset : (UInt8.ofNat (varOffset proc.vars param.name.name)).toNat =
      varOffset proc.vars param.name.name :=
    UInt8.toNat_ofNat_of_lt' (by show _ < 256; omega)
  have hBase : (t.reg .base).toNat = live + 1 := by
    rw [ht.base, UInt8.add_zero]
    exact UInt8.toNat_ofNat_of_lt' (by show live + 1 < 256; omega)
  refine ⟨UInt8.ofNat (varOffset proc.vars param.name.name), ?_, ?_⟩
  · rw [Slot.offset?_eq, place?_slot hFind]
    rfl
  · -- the value at the entry is that of the argument, and the frame is made around it
    have hLaid := h.laid.param hNodup hParam hValue
    have hEntered := h.laid.holdsLocals hStack h.left _ _ hFind
    have hHeld := ht.held _ _ hFind
    rw [hOffset, hBase, hHeld, ← hEntered]
    exact hLaid

theorem Loaded.enters (h : Loaded program lines image) (hProc : proc ∈ program.procs)
    (hPath : Path image t.calls.length 1 t u) (hCalls : u.calls = (t.pc + 2) :: t.calls)
    (hEntry : AtEntry program image o start proc values live w u)
    (hFits : live + 1 + proc.frameSize ≤ stackLimit)
    (hValues : values =
      (args.zip (proc.params.map (·.typeOf))).map fun arg => arg.1.valueAs store arg.2) :
    ∃ e, Enters lines image proc t e ∧ HoldsArgs image.addr proc args store e := by
  obtain ⟨hVars, n, code, n', rest, hCode, hSuffix⟩ := h.proc proc hProc
  cases hCode with
  | @mk body last _ hSize hBody =>
  simp only [List.cons_append, List.append_assoc] at hSuffix
  obtain ⟨e, hPath', hAt, hCalls', he, -, -⟩ := h.path_enter hEntry hFits hSuffix
  refine ⟨e, ⟨?_, hCalls'.trans hCalls, _, hSuffix, hAt⟩, hEntry.holdsArgs hVars hFits hValues he⟩
  refine hPath.trans (hPath'.mono ?_)
  rw [hCalls]
  exact Nat.le_succ _

/-- A procedure that comes to its end returns to its caller. -/
theorem Loaded.returnsTo (h : Loaded program lines image)
    (hStart : StartsFrom program image o start) (hProc : proc ∈ program.procs)
    (hStep : step image t = .ok (.running u)) (hCalls : u.calls = (t.pc + 2) :: t.calls)
    (hEntry : AtEntry program image o start proc values live w u) {fuel : Nat}
    (hRun : runProc program start fuel proc values live w = .ok w') :
    ∃ v, ReturnsTo image t v ∧ v.reg .stack = u.reg .stack ∧ v.reg .base = u.reg .base ∧
      v.reg .ones = 0xFF ∧ SameStack image.addr live u v := by
  have hServed := h.serves hStart fuel proc hProc values live w u hEntry
  rw [hRun] at hServed
  obtain ⟨k, r, hRoute, -, hReturn⟩ := hServed
  obtain ⟨rest, hAt⟩ := hReturn.pc
  have hRet := h.assembled.step_ret hAt (hReturn.calls.trans hCalls)
  have hDepth : t.calls.length < u.calls.length := by
    rw [hCalls]
    exact Nat.lt_succ_self _
  refine ⟨_, .of_path hStep hDepth hRoute.path hRet rfl rfl, hReturn.stack, hReturn.base,
    hReturn.ones, ?_⟩
  exact hReturn.same

/-- What a call that comes to an end amounts to. -/
theorem runCall_eq_ok {call : ProcDecl → List Nat → Nat → World → Except Halt World}
    {name : String} (hName : Intrinsic.ofName? name = none)
    (hFind : (program.procs.find? fun proc => proc.name.name = name) = some proc)
    (h : runCall program call vars live name args w locals = .ok w') :
    live + 1 ≤ stackLimit ∧ ∃ values,
      stageArgs (storeIn vars w.globals locals) (live + 1)
        (args.zip (proc.params.map (·.typeOf))) = .ok values ∧
      call proc values live w = .ok w' := by
  simp only [runCall, hName, hFind] at h
  obtain ⟨hFits, h⟩ := eq_ok_of_fits h
  refine ⟨hFits, ?_⟩
  cases hValues : stageArgs (storeIn vars w.globals locals) (live + 1)
      (args.zip (proc.params.map (·.typeOf))) with
  | error e =>
    rw [hValues] at h
    cases h
  | ok values =>
    rw [hValues] at h
    exact ⟨values, rfl, h⟩

/-- A call for which the stack is high enough comes to an end. -/
theorem CallFits.run_eq_ok {name : String} (h : CallFits program image vars b name args s) :
    ∃ start w', StartsFrom program image s start ∧
      runCall program (runProc program start (stackLimit + 1)) vars (s.reg .stack).toNat name args
        (s.world program image.addr) (s.locals image.addr vars b) = .ok w' := by
  obtain ⟨start, hStart, hFits⟩ := h
  have hLasts : Lasts (runCall program (runProc program start (stackLimit + 1)) vars
      (s.reg .stack).toNat name args (s.world program image.addr) (s.locals image.addr vars b)) :=
    runCall_lasts (fun hLive proc values w =>
      runProc_lasts start (Nat.le_of_succ_le hLive) (by omega) proc values w) _ _ _ _
  cases hRun : runCall program (runProc program start (stackLimit + 1)) vars
      (s.reg .stack).toNat name args (s.world program image.addr) (s.locals image.addr vars b) with
  | ok w' => exact ⟨start, w', hStart, hRun⟩
  | error e =>
    rw [hRun] at hLasts
    cases e with
    | outOfFuel => exact hLasts.elim
    | overflow => exact absurd hRun (hFits _)

/-- From the code of a call on, the machine keeps to the convention. -/
theorem Loaded.keepsConvention (h : Loaded program lines image) (hVars : NamedVars [] vars)
    {name : Ident} {code : List Line} (hName : Intrinsic.ofName? name.name = none)
    (hCode : CallCode (program.env vars) name last args code last')
    (hAt : At lines (code ++ rest) s.pc) (hs : InBody vars b last s)
    (hFits : CallFits program image vars b name.name args s) :
    ∃ proc ∈ program.procs, ∃ t, proc.name.name = name.name ∧ args.length = proc.params.length ∧
      t.reg .base = UInt8.ofNat b + last' ∧
      KeepsConvention lines image proc args
        (storeIn vars (s.world program image.addr).globals (s.locals image.addr vars b)) s t := by
  cases hCode with
  | bcd hIntrinsic hArg => simp [hName] at hIntrinsic
  | intrinsic hIntrinsic hOther => simp [hName] at hIntrinsic
  | @user params args code last' _ hLook hCount hArgs =>
  have hFrame := hs.framed h hVars
  have hMatches := hs.matches program image.addr
  obtain ⟨proc, hFind, rfl⟩ := look_proc h.named hVars hLook hName
  have hProc : proc ∈ program.procs := List.mem_of_find?_eq_some hFind
  have hProcName : proc.name.name = name.name := by simpa using List.find?_some hFind
  obtain ⟨start, w', hStart, hRun⟩ := hFits.run_eq_ok
  obtain ⟨hLive, values, hValues, hCalled⟩ := runCall_eq_ok hName hFind hRun
  have hTop := (eq_ok_of_fits hCalled).1
  have hTypes : (args.zip (proc.params.map (·.typeOf))).map (·.2) = proc.params.map (·.typeOf) :=
    map_snd_zip hCount
  rw [← hProcName, ← hTypes] at hAt
  obtain ⟨t, hPath, hAtCall, hCalls, ht, hSame, hLaid⟩ :=
    h.path_staged hFrame hMatches hArgs hLive hValues hAt
  rw [hTypes] at hLaid
  have hReached : Reached image s 0 t := Reached.path ⟨0, rfl, rfl⟩ hPath
  obtain ⟨u, hStep, hPath₁, hCalls₁, hBase, hByte, hEntry⟩ :=
    h.path_call hStart ht hProc hLaid hReached hAtCall
  obtain ⟨v, hReturns, hStack', hBase', hOnes', hSame'⟩ :=
    h.returnsTo hStart hProc hStep hCalls₁ hEntry hCalled
  have hStack : t.reg .stack = s.reg .stack := ht.stack.trans UInt8.ofNat_toNat
  refine ⟨proc, hProc, t, hProcName, by simpa using hCount, ht.base, hPath, hCalls, ⟨_, hAtCall⟩,
    ht.ones, hStack, hSame, ?_, ⟨v, hReturns⟩, ?_⟩
  · exact h.enters hProc hPath₁ hCalls₁ hEntry hTop (stageArgs_eq hValues)
  · intro v' hReturns'
    obtain rfl := hReturns.unique hReturns'
    refine ⟨?_, hBase'.trans hBase, hOnes', ?_⟩
    · rw [hStack', hEntry.stack, ht.stack]
    · rw [hStack]
      exact fun a ha ha' => (hSame' a ha ha').trans (hByte a)

end

theorem Program.scope_of_mem_bodies {program : Program} {vars : List VarDecl} {stmts : List Stmt}
    (h : (vars, stmts) ∈ program.bodies) : program.Scope vars := by
  rcases List.mem_cons.mp h with hMain | hProc
  · cases hMain
    exact .inl rfl
  · obtain ⟨proc, hMem, hEq⟩ := List.mem_map.mp hProc
    cases hEq
    exact .inr ⟨proc, Program.mem_procs.mp hMem, rfl⟩

/-- In a run for which the stack is high enough, every call is made from the code of a call of the
program, which the machine has come to with the frame of the caller live. -/
theorem called_of_run {source : String} {options : CompileOptions} {c : Compilation}
    {lines : List Line} {image : Image} {z : UInt16} (hCompile : compile source options = .ok c)
    (hLines : c.listing = some lines) (hImage : assemble? (listingText lines) = some image)
    (hZone : image.labels.get? Label.stackZone.text = some z) (hRoom : z.toNat + 256 ≤ 0xFFF)
    {start : Nat → Store} (hStart : StartsFrom (parse source).1 image initial start) {fuel : Nat}
    {w : World} (hRun : (parse source).1.run start fuel = .ok w) {n : Nat} {t u : State}
    (hAfter : after image n initial = some t) (hStep : step image t = .ok (.running u))
    (hCall : t.calls.length < u.calls.length) : Called (parse source).1 lines image initial t := by
  obtain ⟨k, s, hRoute, hHalts⟩ :=
    (compile_listing hCompile hLines).run_route hImage (hasRoom_of_get? hZone hRoom) hStart hRun
  exact hRoute.of_halted hHalts.halts hAfter hStep hCall

/-- Every call of a procedure has its code in the listing, and from there on the machine keeps to
the convention, if the stack is high enough for all that the call leads to. -/
theorem calls_keep_convention {source : String} {options : CompileOptions} {c : Compilation}
    {lines : List Line} {image : Image} {z : UInt16} (hCompile : compile source options = .ok c)
    (hLines : c.listing = some lines) (hImage : assemble? (listingText lines) = some image)
    (hZone : image.labels.get? Label.stackZone.text = some z) (hRoom : z.toNat + 256 ≤ 0xFFF)
    {vars : List VarDecl} {stmts : List Stmt} (hBody : (vars, stmts) ∈ (parse source).1.bodies)
    {name : Ident} {args : List Expr} (hCall : (name, args) ∈ callsIn stmts)
    (hName : Intrinsic.ofName? name.name = none) :
    HasCall ((parse source).1.env vars) name args lines ∧
      ∀ last code last' rest b s,
        CallCode ((parse source).1.env vars) name last args code last' →
        At lines (code ++ rest) s.pc → InBody vars b last s →
        CallFits (parse source).1 image vars b name.name args s →
        ∃ proc ∈ (parse source).1.procs, ∃ t, proc.name.name = name.name ∧
          args.length = proc.params.length ∧ t.reg .base = UInt8.ofNat b + last' ∧
          KeepsConvention lines image proc args (storeIn vars
            (s.world (parse source).1 image.addr).globals (s.locals image.addr vars b)) s t := by
  have h := compile_listing hCompile hLines
  refine ⟨h.code.hasCall hBody hCall, ?_⟩
  intro last code last' rest b s hCode hAt hs hFits
  have hVars := h.named.namedVars (Program.scope_of_mem_bodies hBody)
  exact (h.loaded hImage (hasRoom_of_get? hZone hRoom)).keepsConvention hVars hName hCode hAt hs
    hFits

/-- A call with parameters of both types: one argument is cut to a byte, the other extended. -/
def mixed : String :=
  "var x: long; procedure g(a: integer; b: long); begin x := a + b end;
   procedure f(n: integer); begin g(513, n) end; begin f(7) end."

set_option maxRecDepth 1000 in
theorem exists_mixed_call : ∃ vars stmts name args w, (vars, stmts) ∈ (parse mixed).1.bodies ∧
    (name, args) ∈ callsIn stmts ∧ Intrinsic.ofName? name.name = none ∧ varBytes vars = 1 ∧
    runCall (parse mixed).1 (runProc (parse mixed).1 (fun _ _ => 0) 1) vars 2 name.name args
      World.initial (fun _ => 0) = .ok w := by
  have hTest : (parse mixed).1.bodies.any (fun body => varBytes body.1 = 1 ∧
      (callsIn body.2).any fun call => Intrinsic.ofName? call.1.name = none ∧
        (runCall (parse mixed).1 (runProc (parse mixed).1 (fun _ _ => 0) 1) body.1 2 call.1.name
          call.2 World.initial fun _ => 0).isOk) = true := by
    rw [show parse mixed = _ from parse_ofList _]
    decide +kernel
  obtain ⟨body, hBody, hTest⟩ := List.any_eq_true.mp hTest
  obtain ⟨hSize, hTest⟩ := of_decide_eq_true hTest
  obtain ⟨call, hCall, hTest⟩ := List.any_eq_true.mp hTest
  obtain ⟨hName, hOk⟩ := of_decide_eq_true hTest
  cases hRun : runCall (parse mixed).1 (runProc (parse mixed).1 (fun _ _ => 0) 1) body.1 2
      call.1.name call.2 World.initial fun _ => 0 with
  | error e => simp [hRun, Except.isOk, Except.toBool] at hOk
  | ok w => exact ⟨body.1, body.2, call.1, call.2, w, hBody, hCall, hName, hSize, hRun⟩

set_option maxRecDepth 1000 in
theorem mixed_keeps_convention : ∃ c lines image vars stmts name args last code last' rest s,
    compile mixed ⟨4, false⟩ = .ok c ∧ c.listing = some lines ∧
    assemble? (listingText lines) = some image ∧ (vars, stmts) ∈ (parse mixed).1.bodies ∧
    (name, args) ∈ callsIn stmts ∧
    CallCode ((parse mixed).1.env vars) name last args code last' ∧
    At lines (code ++ rest) s.pc ∧ InBody vars 1 last s ∧
    CallFits (parse mixed).1 image vars 1 name.name args s ∧
    ∃ proc t, KeepsConvention lines image proc args (storeIn vars
      (s.world (parse mixed).1 image.addr).globals (s.locals image.addr vars 1)) s t := by
  obtain ⟨c, lines, hCompile, hLines, hTest⟩ :=
    exists_listing (p := fun lines => cellAddress (cellCount lines) + 256 ≤ 0xFFF)
      (by
        rw [show compile mixed _ = _ from compile_ofList _ _]
        decide +kernel : ((compile mixed ⟨4, false⟩).toOption.bind (·.listing)).any _ = true)
  have hCompiled := compile_listing hCompile hLines
  obtain ⟨image, z, hImage, hZone, hRoom⟩ := hCompiled.exists_image (of_decide_eq_true hTest)
  obtain ⟨vars, stmts, name, args, w, hBody, hCall, hName, hSize, hRun⟩ := exists_mixed_call
  obtain ⟨⟨last, code, last', hCode, pre, rest, hSplit⟩, hKeeps⟩ :=
    calls_keep_convention hCompile hLines hImage hZone hRoom hBody hCall hName
  let s := (({ initial with pc := place pre }.setReg .ones 0xFF).setReg .stack 2).setReg .base
    (UInt8.ofNat 1 + last)
  have hAt : At lines (code ++ rest) s.pc := ⟨pre, by rw [← hSplit, List.append_assoc], rfl⟩
  have hStack : (s.reg .stack).toNat = 2 := by simp +decide [s]
  have hBase : s.reg .base = UInt8.ofNat 1 + last := by simp +decide [s]
  have hOnes : s.reg .ones = 0xFF := by simp +decide [s]
  have hs : InBody vars 1 last s := ⟨hOnes, hBase, by omega⟩
  have hStart : StartsFrom (parse mixed).1 image s fun _ _ => 0 := by
    refine startsFrom_of_no_locals ?_
    rw [show parse mixed = _ from parse_ofList _]
    decide +kernel
  have hZero : ∀ a, s.byte a = 0 := initial_byte
  have hFits : CallFits (parse mixed).1 image vars 1 name.name args s := by
    refine ⟨_, hStart, fun fuel => ?_⟩
    rw [hStack, world_eq_initial hZero, locals_eq_zero hZero]
    exact runCall_ne_overflow hRun fuel
  obtain ⟨proc, -, t, -, -, -, hConvention⟩ :=
    hKeeps last code last' rest 1 s hCode hAt hs hFits
  exact ⟨c, lines, image, vars, stmts, name, args, last, code, last', rest, s, hCompile, hLines,
    hImage, hBody, hCall, hCode, hAt, hs, hFits, proc, t, hConvention⟩

end ChipPascal
