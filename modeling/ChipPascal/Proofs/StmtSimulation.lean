import ChipPascal.Proofs.FrameMemory
import ChipPascal.Proofs.Fuel

/-!
# The machine follows the meaning of programs

If a run of the reference semantics ends, the machine gets to the end of the code with the same
values in memory. If the fuel of the reference run does not last, the machine makes at least as
many calls. Nothing is said of a run for which the stack is too small.
-/

namespace ChipPascal

open Machine Line
open Lowering hiding State

/-! ### Programs in memory -/

/-- The image holds the code of the program, and there is room for its data. -/
structure Loaded (program : Program) (lines : List Line) (image : Image) : Prop where
  assembled : Assembled lines image
  named : program.WellNamed
  data : DataMap image.addr (program.globals.map (·.name.name))
  room : HasRoom image.addr
  proc : ∀ proc ∈ program.procs, NamedVars [] proc.vars ∧
    ∃ n code n' rest, ProcCode program proc n code n' ∧ (code ++ rest) <:+ lines

/-- The variables of the procedure that are not parameters have the values `start`, each cut to its
type, where their slots will be. -/
def LocalsLeft (addr : Label → UInt16) (proc : ProcDecl) (start : Store) (s : State) : Prop :=
  ∀ decl ∈ proc.locals, start decl.name.name % decl.typeOf.modulus =
    s.valueAt (zone addr + (s.reg .stack).toNat + 1 + varOffset proc.vars decl.name.name)
      decl.typeOf.isWide

/-- `start` tells for each call on the way from `o` what the variables of the procedure called
find in their slots. -/
def StartsFrom (program : Program) (image : Image) (o : State) (start : Nat → Store) : Prop :=
  ∀ k s t, Reached image o k s → step image s = .ok (.running t) →
    t.calls.length = s.calls.length + 1 → ∀ proc ∈ program.procs,
      t.pc = image.addr (.procedure proc.name.name) → LocalsLeft image.addr proc (start k) t

/-- The machine makes at least `n` calls without coming back from those in progress. -/
def CallsOn (image : Image) (n : Nat) (s : State) : Prop :=
  ∃ k t, n ≤ k ∧ Path image s.calls.length k s t

theorem CallsOn.of_path {image : Image} {n k : Nat} {s t : State}
    (hPath : Path image s.calls.length k s t) (hCalls : s.calls.length ≤ t.calls.length)
    (h : CallsOn image n t) : CallsOn image n s := by
  obtain ⟨j, u, hn, hPath'⟩ := h
  exact ⟨k + j, u, by omega, hPath.trans (hPath'.mono hCalls)⟩

/-- The machine is in a body with the local variables `vars`. The frame starts `b` bytes up the
stack, all of it is live, and the base register is displaced by `last`. -/
structure InBody (vars : List VarDecl) (b : Nat) (last : UInt8) (s : State) : Prop where
  ones : s.reg .ones = 0xFF
  base : s.reg .base = UInt8.ofNat b + last
  live : b + varBytes vars ≤ (s.reg .stack).toNat

/-- The machine stands at the code of a call of a procedure, in a body of the program. -/
def AtCall (program : Program) (lines : List Line) (s : State) : Prop :=
  ∃ vars b name args last code last' rest, program.HasSite vars (name, args) ∧
    Intrinsic.ofName? name.name = none ∧ CallCode (program.env vars) name last args code last' ∧
    At lines (code ++ rest) s.pc ∧ InBody vars b last s

/-- The machine has got from `o` to the code of a call, and through it to state `t`. -/
def Called (program : Program) (lines : List Line) (image : Image) (o t : State) : Prop :=
  ∃ k s, Reached image o k s ∧ AtCall program lines s ∧ Path image s.calls.length 0 s t

/-- A procedure has been called and is about to make its frame. -/
structure AtEntry (program : Program) (image : Image) (o : State) (start : Nat → Store)
    (proc : ProcDecl) (values : List Nat) (live : Nat) (w : World) (s : State) : Prop where
  pc : s.pc = image.addr (.procedure proc.name.name)
  ones : s.reg .ones = 0xFF
  stack : s.reg .stack = UInt8.ofNat live
  world : HoldsWorld program image.addr w s
  laid : Laid s (zone image.addr + live + 1) (proc.params.map (·.typeOf)) values
  left : LocalsLeft image.addr proc (start w.entered) s
  reached : Reached image o (w.entered + 1) s

structure AtReturn (program : Program) (lines : List Line) (image : Image) (live : Nat)
    (w' : World) (s t : State) : Prop where
  pc : ∃ rest, At lines (plain .ret :: rest) t.pc
  calls : t.calls = s.calls
  ones : t.reg .ones = 0xFF
  stack : t.reg .stack = s.reg .stack
  base : t.reg .base = s.reg .base
  world : HoldsWorld program image.addr w' t
  same : SameStack image.addr live s t

/-- The machine does for procedures what `call` does. -/
def Serves (program : Program) (lines : List Line) (image : Image) (o : State)
    (start : Nat → Store) (n : Nat)
    (call : ProcDecl → List Nat → Nat → World → Except Halt World) : Prop :=
  ∀ proc ∈ program.procs, ∀ values live w s,
    AtEntry program image o start proc values live w s →
      RunOutcome (call proc values live w)
        (fun w' => ∃ k t, Route image (Called program lines image o) s.calls.length k s t ∧
          w'.entered = w.entered + 1 + k ∧ AtReturn program lines image live w' s t)
        (CallsOn image n s)

/-- The machine gets from `s` to where `rest` begins, with the world and the locals `r`. -/
def GetsTo (program : Program) (lines : List Line) (image : Image) (o : State)
    (vars : List VarDecl) (b live : Nat) (rest : List Line) (last : UInt8) (w : World) (s : State)
    (r : World × Store) : Prop :=
  ∃ k t, Route image (Called program lines image o) s.calls.length k s t ∧
    r.1.entered = w.entered + k ∧ At lines rest t.pc ∧ t.calls = s.calls ∧
    Matches program image.addr vars b live r.1 r.2 last t ∧ SameStack image.addr b s t

section

variable {program : Program} {lines : List Line} {image : Image} {o : State}
  {start : Nat → Store} {n : Nat} {vars : List VarDecl} {b live : Nat} {rest : List Line}
  {last last' : UInt8} {w w' : World} {locals locals' : Store} {s t : State}

theorem Loaded.getsTo_of_run (h : Loaded program lines image) {code : List Line}
    (hs : At lines (code ++ rest) s.pc) (hRun : runLines image.addr code s = some t)
    (hEntered : w'.entered = w.entered)
    (ht : Matches program image.addr vars b live w' locals' last t)
    (hSame : SameStack image.addr b s t) :
    GetsTo program lines image o vars b live rest last w s (w', locals') := by
  obtain ⟨hPath, hAt, hCalls⟩ := runLines_path h.assembled hs hRun
  exact ⟨0, t, hPath.route, hEntered, hAt, hCalls, ht, hSame⟩

/-! ### Conditions -/

theorem typeIn_eq (hNamed : program.WellNamed) (hVars : NamedVars [] vars) {name : String}
    {info : VarInfo} (h : (program.env vars).look name = some (.var info)) :
    program.typeIn vars name = info.type := by
  cases hGlobal : info.isGlobal with
  | true =>
    obtain ⟨hNone, decl, hFind, hType⟩ := look_global hNamed hVars h hGlobal
    simp [Program.typeIn, hNone, hFind, hType]
  | false =>
    obtain ⟨decl, hFind, hType⟩ := look_local hNamed hVars h hGlobal
    simp [Program.typeIn, hFind, hType]

/-- The meaning compares a condition in as many bytes as its code does. -/
theorem isLong_eq (hNamed : program.WellNamed) (hVars : NamedVars [] vars) {mode : Mode}
    {wide : Bool} {e : Expr} {code : List Line}
    (h : ExprCode (program.env vars) mode wide e last code last') :
    e.isLong (program.env vars).typeOf = e.isLong (program.typeIn vars) := by
  induction h with
  | ref hInfo hAddress =>
    simp only [Expr.isLong, typeIn_eq hNamed hVars hInfo, Env.typeOf, hInfo]
  | int hRead => rfl
  | unary hOperand ih => exact ih
  | fused hOp hLeaf hLeft hRight ihLeft ihRight => simp only [Expr.isLong, ihLeft, ihRight]
  | spilled hOp hLeaf hLeft hRight ihLeft ihRight => simp only [Expr.isLong, ihLeft, ihRight]

theorem isWide_condType (typeOf : String → ValueType) (e : Expr) :
    (e.condType typeOf).isWide = e.isLong typeOf := by
  unfold Expr.condType
  split <;> simp_all [ValueType.isWide]

/-- Both halves of a word are tested at once. -/
theorem word_eq_zero_iff (low high : UInt8) : word low high = 0 ↔ low ||| high = 0 := by
  rw [UInt8.or_eq_zero_iff, ← UInt8.toNat_inj, ← UInt8.toNat_inj, word]
  show _ ↔ low.toNat = 0 ∧ high.toNat = 0
  omega

/-- Both halves of the accumulator are merged before they are tested. -/
theorem run_merge (addr : Label → UInt16) (wide : Bool) (s : State) :
    ∃ t, runLines addr (if wide then [noted (.or .accLow .accHigh) "merge condition halves"]
        else []) s = some t ∧
      Spares Everywhere s t ∧ t.reg .base = s.reg .base ∧
      (t.reg .accLow = 0 ↔ s.acc wide = 0) := by
  cases wide with
  | false =>
    refine ⟨s, rfl, Spares.iff.mpr (by simp), rfl, ?_⟩
    rw [State.acc, word_eq_zero_iff]
    simp
  | true => simp +decide [Spares.iff, State.acc, word_eq_zero_iff]

/-- Where the machine stands in the code is of no concern. -/
theorem Matches.move (hs : Matches program image.addr vars b live w locals last s)
    (pc : UInt16) (calls : List UInt16) :
    Matches program image.addr vars b live w locals last { s with pc := pc, calls := calls } :=
  ⟨hs.ones, hs.base, hs.stack, ⟨hs.world.global, hs.world.bcdLow, hs.world.bcdHigh⟩, hs.held⟩

/-- A condition leads past the label if it is zero. -/
theorem Loaded.sim_cond (h : Loaded program lines image)
    (hFrame : Framed program image.addr vars b live)
    (hs : Matches program image.addr vars b live w locals last s) {cond : Expr} {l : Label}
    {code mid after : List Line} (hCode : CondCode (program.env vars) cond l last code)
    (hAt : At lines (code ++ (mid ++ .label l :: after)) s.pc) :
    RunOutcome (runCond program vars live cond w locals)
      (fun holds => ∃ t, Path image s.calls.length 0 s t ∧ t.calls = s.calls ∧
        Matches program image.addr vars b live w locals 0 t ∧ SameStack image.addr live s t ∧
        At lines (if holds then mid ++ .label l :: after else after) t.pc)
      False := by
  refine RunOutcome.fits fun hFits => ?_
  obtain ⟨hCond⟩ := hCode
  next code last' =>
  rw [isLong_eq hFrame.named hFrame.vars_named hCond, ← isWide_condType] at hCond hAt
  generalize cond.condType (program.typeIn vars) = type at hCond hAt hFits ⊢
  obtain ⟨t, hRun, ht, hSame, hAcc⟩ := hFrame.run_value hs hCond hFits
  obtain ⟨u, hRun', hu, hSame', hAcc'⟩ := hFrame.run_settle ht
  obtain ⟨v, hRun'', hSpares, hBase, hZero⟩ := run_merge image.addr type.isWide u
  obtain ⟨hv, hSame''⟩ := hu.of_spares hFrame hSpares.of_everywhere (hBase.trans hu.base)
  rw [hAcc', hAcc] at hZero
  have hSameAll := (hSame.trans hSame').trans hSame''
  have hAll := (runLines_append hRun).trans ((runLines_append hRun').trans hRun'')
  have hAt' : At lines ((code ++ (settleCode last' ++ (if type.isWide then
      [noted (.or .accLow .accHigh) "merge condition halves"] else []))) ++
        (noted (.skipNe .accLow 0) "if" :: plain (.jump l) :: (mid ++ .label l :: after))) s.pc := by
    simpa [testCode] using hAt
  obtain ⟨hPath, hTest, hCalls⟩ := runLines_path h.assembled hAt' hAll
  by_cases hValue : cond.valueAs (storeIn vars w.globals locals) type = 0
  · obtain ⟨hPath₁, hJump⟩ := h.assembled.path_noSkip hTest (hZero.mpr hValue)
    obtain ⟨hPath₂, hAfter⟩ := h.assembled.path_jump hJump
    have hPath₃ := (hPath₁.trans hPath₂).mono (Nat.le_of_eq (by rw [hCalls]))
    exact ⟨_, hPath.trans hPath₃, hCalls, hv.move _ _, hSameAll, by simpa [hValue] using hAfter⟩
  · obtain ⟨hPath₁, hBody⟩ := h.assembled.path_skip hTest fun hReg => hValue (hZero.mp hReg)
    have hPath₂ := hPath₁.mono (Nat.le_of_eq (by rw [hCalls]))
    exact ⟨_, hPath.trans hPath₂, hCalls, hv.move _ _, hSameAll, by simpa [hValue] using hBody⟩

/-! ### Calls -/

theorem foldl_size (types : List ValueType) (x : UInt8) :
    types.foldl (fun bytes type => bytes + type.size) x = x + UInt8.ofNat (typeBytes types) := by
  induction types generalizing x with
  | nil => exact (UInt8.add_zero x).symm
  | cons type types ih =>
    have hSize : type.size = UInt8.ofNat type.bytes := by cases type <;> rfl
    rw [List.foldl_cons, ih, hSize, UInt8.add_assoc, ← UInt8.ofNat_add]
    rfl

/-- The stack pointer comes down by as much as the arguments took it up. -/
theorem stack_staged {x : UInt8} {types : List ValueType}
    (h : x.toNat = live + 1 + typeBytes types) : x + -stagedBytes types = UInt8.ofNat live := by
  have hx : x = UInt8.ofNat live + (1 + UInt8.ofNat (typeBytes types)) := by
    rw [← UInt8.ofNat_toNat (x := x), h, UInt8.ofNat_add, UInt8.ofNat_add, UInt8.add_assoc]
    rfl
  rw [stagedBytes, foldl_size, ← UInt8.sub_eq_add_neg, hx, UInt8.add_sub_cancel]

/-- Up to the call itself: the arguments are laid where the callee will look for them, and the
stack is as high as before. -/
theorem Loaded.path_staged (h : Loaded program lines image)
    (hFrame : Framed program image.addr vars b live)
    (hs : Matches program image.addr vars b live w locals last s)
    {args : List (Expr × ValueType)} {code : List Line} {l : Label} {note : String}
    {values : List Nat} (hArgs : ArgsCode (program.env vars) args last code last')
    (hFits : live + 1 ≤ stackLimit)
    (hValues : stageArgs (storeIn vars w.globals locals) (live + 1) args = .ok values)
    (hAt : At lines (([noted (.addByte .stack 1) note] ++ (code ++
      [plain (.addByte .stack (-stagedBytes (args.map (·.2)))), plain (.call l), blank])) ++ rest)
        s.pc) :
    ∃ t, Path image s.calls.length 0 s t ∧ At lines (plain (.call l) :: blank :: rest) t.pc ∧
      t.calls = s.calls ∧ Matches program image.addr vars b live w locals last' t ∧
      SameStack image.addr live s t ∧
      Laid t (zone image.addr + live + 1) (args.map (·.2)) values := by
  have hSize := hFrame.size
  have hLimit : live + 1 ≤ 255 := hFits
  have hUp : (UInt8.ofNat live + 1).toNat = live + 1 := by
    rw [UInt8.toNat_add, hFrame.toNat_live]
    show (live + 1) % 256 = live + 1
    omega
  obtain ⟨r, hFirst, hStack, hOnes, hBase, hByte⟩ : ∃ r,
      runLines image.addr [noted (.addByte .stack 1) note] s = some r ∧
        r.reg .stack = UInt8.ofNat live + 1 ∧ r.reg .ones = s.reg .ones ∧
        r.reg .base = s.reg .base ∧ ∀ a, r.byte a = s.byte a := by
    simp +decide [hs.stack]
  have hReady : Ready (program.env vars) image.addr b live (storeIn vars w.globals locals) last r := by
    refine (hs.ready hFrame).of_bytes hFrame.placed (fun a _ => hByte a) hOnes
      (hBase.trans hs.base) ?_
    rw [hStack, hUp, hs.stack, hFrame.toNat_live]
    exact Nat.le_succ live
  rw [← hUp, ← hStack] at hValues
  obtain ⟨t, hRun, hTop, hOnes', hBase', hByte', hLaid⟩ :=
    run_args hFrame.placed hArgs hReady hValues
  rw [hStack, hUp] at hTop hByte' hLaid
  obtain ⟨u, hLast, hDown, hOnes'', hBase'', hByte''⟩ : ∃ u,
      runLines image.addr [plain (.addByte .stack (-stagedBytes (args.map (·.2))))] t = some u ∧
        u.reg .stack = UInt8.ofNat live ∧ u.reg .ones = t.reg .ones ∧
        u.reg .base = t.reg .base ∧ ∀ a, u.byte a = t.byte a := by
    simp +decide [stack_staged hTop]
  have hAll := (runLines_append hFirst).trans ((runLines_append hRun).trans hLast)
  have hSame : ∀ a < zone image.addr + (live + 1), u.byte a = s.byte a :=
    fun a ha => (hByte'' a).trans ((hByte' a ha).trans (hByte a))
  have hAt' : At lines (([noted (.addByte .stack 1) note] ++ (code ++
      [plain (.addByte .stack (-stagedBytes (args.map (·.2))))])) ++
        (plain (.call l) :: blank :: rest)) s.pc := by
    simpa using hAt
  obtain ⟨hPath, hCall, hCalls⟩ := runLines_path h.assembled hAt' hAll
  refine ⟨u, hPath, hCall, hCalls, ⟨?_, hBase''.trans hBase', hDown, ?_, ?_⟩, ?_, ?_⟩
  · exact hOnes''.trans (hOnes'.trans (hOnes.trans hs.ones))
  · exact hs.world.of_bytes h.data fun a ha => hSame a (by omega)
  · exact hs.held.of_bytes fun a _ ha => hSame a (by omega)
  · exact fun a _ ha => hSame a (by omega)
  · exact hLaid.of_bytes fun c _ _ => hByte'' c

/-- From the call instruction into the procedure. -/
theorem Loaded.path_call (h : Loaded program lines image)
    (hStart : StartsFrom program image o start)
    (hs : Matches program image.addr vars b live w locals last s)
    {proc : ProcDecl} {values : List Nat} (hProc : proc ∈ program.procs)
    (hLaid : Laid s (zone image.addr + live + 1) (proc.params.map (·.typeOf)) values)
    (hReached : Reached image o w.entered s)
    (hAt : At lines (plain (.call (.procedure proc.name.name)) :: rest) s.pc) :
    ∃ t, step image s = .ok (.running t) ∧ Path image s.calls.length 1 s t ∧
      t.calls = (s.pc + 2) :: s.calls ∧ t.reg .base = s.reg .base ∧ (∀ a, t.byte a = s.byte a) ∧
      AtEntry program image o start proc values live w t := by
  have hStep := h.assembled.step_call hAt
  have hPath := Path.single hStep (Nat.le_refl _) (Nat.le_succ s.calls.length)
  have hOne : (s.calls.length + 1) - s.calls.length = 1 := by omega
  simp only [List.length_cons, hOne] at hPath
  refine ⟨_, hStep, hPath, rfl, rfl, fun _ => rfl, rfl, hs.ones, hs.stack, ?_, ?_, ?_, ?_⟩
  · exact ⟨hs.world.global, hs.world.bcdLow, hs.world.bcdHigh⟩
  · exact hLaid.of_bytes fun _ _ _ => rfl
  · exact hStart _ _ _ hReached hStep rfl proc hProc rfl
  · exact hReached.path hPath

/-- A call of a procedure stages its arguments, enters, and comes back with what the meaning says.
-/
theorem Loaded.sim_userCall (h : Loaded program lines image)
    (hStart : StartsFrom program image o start)
    {call : ProcDecl → List Nat → Nat → World → Except Halt World}
    (hCall : Serves program lines image o start n call)
    (hFrame : Framed program image.addr vars b live)
    (hs : Matches program image.addr vars b live w locals last s)
    (hReached : Reached image o w.entered s) (hSite : AtCall program lines s) {proc : ProcDecl}
    (hProc : proc ∈ program.procs) {args : List (Expr × ValueType)} {code : List Line}
    {note : String} (hArgs : ArgsCode (program.env vars) args last code last')
    (hTypes : args.map (·.2) = proc.params.map (·.typeOf))
    (hAt : At lines (([noted (.addByte .stack 1) note] ++ (code ++
      [plain (.addByte .stack (-stagedBytes (proc.params.map (·.typeOf)))),
        plain (.call (.procedure proc.name.name)), blank])) ++ rest) s.pc) :
    RunOutcome (do
        fits (live + 1)
        let values ← stageArgs (storeIn vars w.globals locals) (live + 1) args
        call proc values live w)
      (fun w' => ∃ k t, Route image (Called program lines image o) s.calls.length k s t ∧
        w'.entered = w.entered + k ∧ At lines rest t.pc ∧ t.calls = s.calls ∧
        Matches program image.addr vars b live w' locals last' t ∧ SameStack image.addr live s t)
      (CallsOn image (n + 1) s) := by
  have hSize := hFrame.size
  refine RunOutcome.fits fun hFits => ?_
  have hLasts := congruent_lasts.stageArgs (storeIn vars w.globals locals) args (live + 1)
  cases hValues : stageArgs (storeIn vars w.globals locals) (live + 1) args with
  | error e =>
    rw [hValues] at hLasts
    cases e with
    | overflow => trivial
    | outOfFuel => exact hLasts.elim
  | ok values =>
    rw [← hTypes] at hAt
    obtain ⟨t, hPath, hAtCall, hCalls, ht, hSame, hLaid⟩ :=
      h.path_staged hFrame hs hArgs hFits hValues hAt
    rw [hTypes] at hLaid
    obtain ⟨u, hStep₁, hPath₁, hCalls₁, hBase, hByte, hEntry⟩ :=
      h.path_call hStart ht hProc hLaid (hReached.path hPath) hAtCall
    have hDepth : s.calls.length ≤ u.calls.length := by
      rw [hCalls₁, hCalls]
      exact Nat.le_succ _
    have hRoute₁ : Route image (Called program lines image o) s.calls.length 1 t u := by
      have hCalled : Called program lines image o t := ⟨_, s, hReached, hSite, hPath⟩
      have hSingle := Route.single (Q := Called program lines image o) hStep₁
        (Nat.le_of_eq (by rw [hCalls])) hDepth fun _ => hCalled
      simpa [hCalls₁] using hSingle
    have hRoute₂ := hPath.route.trans hRoute₁
    have hServed := hCall proc hProc values live w u hEntry
    show RunOutcome (call proc values live w) _ _
    cases hRun : call proc values live w with
    | error e =>
      rw [hRun] at hServed
      cases e with
      | overflow => trivial
      | outOfFuel =>
        obtain ⟨k, v, hk, hPath₃⟩ := hServed
        exact ⟨0 + 1 + k, v, by omega, hRoute₂.path.trans (hPath₃.mono hDepth)⟩
    | ok w' =>
      rw [hRun] at hServed
      obtain ⟨k, v, hRoute₃, hEntered, hReturn⟩ := hServed
      obtain ⟨rest', hRet⟩ := hReturn.pc
      have hStep := h.assembled.step_ret hRet (hReturn.calls.trans hCalls₁)
      have hBack : s.calls.length ≤ v.calls.length := by
        rw [hReturn.calls]
        exact hDepth
      have hPath₄ := Path.single hStep hBack (Nat.le_of_eq (by rw [hCalls]))
      have hNone : t.calls.length - v.calls.length = 0 := by
        rw [hReturn.calls, hCalls₁]
        simp
      simp only [hNone] at hPath₄
      have hSame₁ : SameStack image.addr live t v :=
        fun a ha ha' => (hReturn.same a ha ha').trans (hByte a)
      have hv : Matches program image.addr vars b live w' locals last' v := by
        refine ⟨hReturn.ones, ?_, hReturn.stack.trans hEntry.stack, hReturn.world, ?_⟩
        · rw [hReturn.base, hBase, ht.base]
        · exact ht.held.of_bytes fun a ha ha' => hSame₁ a (by omega) (by omega)
      refine ⟨_, _, (hRoute₂.trans (hRoute₃.mono hDepth)).trans hPath₄.route, ?_, ?_, hCalls,
        hv.move _ _, hSame.trans hSame₁⟩
      · omega
      · exact At.pass rfl (At.next rfl hAtCall)

/-! ### Statements -/

theorem Program.hasSite_of_proc {proc : ProcDecl} (hProc : proc ∈ program.procs)
    {call : Ident × List Expr} (h : call ∈ callsIn proc.body.stmts) :
    program.HasSite proc.vars call :=
  ⟨_, List.mem_cons_of_mem _ (List.mem_map_of_mem hProc), h⟩

/-- A state that matches is in a body, as the calling convention has it. -/
theorem Matches.inBody (hs : Matches program image.addr vars b live w locals last s)
    (hFrame : Framed program image.addr vars b live) : InBody vars b last s := by
  refine ⟨hs.ones, hs.base, ?_⟩
  rw [hs.stack, hFrame.toNat_live]
  exact hFrame.size

theorem map_snd_zip {args : List Expr} {types : List ValueType}
    (h : args.length = types.length) : (args.zip types).map (·.2) = types :=
  List.map_snd_zip (Nat.le_of_eq h.symm)

/-- A call does what it means, whether it is to a built-in procedure or to one of the program. -/
theorem Loaded.sim_call (h : Loaded program lines image)
    (hStart : StartsFrom program image o start)
    {call : ProcDecl → List Nat → Nat → World → Except Halt World}
    (hCall : Serves program lines image o start n call)
    (hFrame : Framed program image.addr vars b live)
    (hs : Matches program image.addr vars b live w locals last s)
    (hReached : Reached image o w.entered s) {name : Ident} {args : List Expr}
    (hSite : program.HasSite vars (name, args)) {code : List Line}
    (hCode : CallCode (program.env vars) name last args code last') (hAt : At lines (code ++ rest) s.pc) :
    RunOutcome (runCall program call vars live name.name args w locals)
      (fun w' => GetsTo program lines image o vars b live rest last' w s (w', locals))
      (CallsOn image (n + 1) s) := by
  have hSize := hFrame.size
  cases hCode with
  | @bcd arg code last' hName hArg =>
    simp only [runCall, hName, runIntrinsic]
    refine RunOutcome.fits fun hFits => ?_
    have hWide : ExprCode (program.env vars) .load ValueType.long.isWide arg last code last' := hArg
    obtain ⟨t, hRun, ht, hSame, hAcc⟩ := hFrame.run_value hs hWide hFits
    obtain ⟨u, hRun', hu, hSame'⟩ := hFrame.run_bcd ht hAcc
    exact h.getsTo_of_run hAt ((runLines_append hRun).trans hRun') rfl hu
      ((hSame.trans hSame').mono (by omega))
  | @intrinsic intrinsic hName hOther =>
    have hNothing : runCall program call vars live name.name [] w locals = .ok w := by
      simp only [runCall, hName]
      cases intrinsic <;> rfl
    rw [hNothing]
    obtain ⟨t, hRun, ht, hSame⟩ := hFrame.run_intrinsic hs intrinsic
    exact h.getsTo_of_run hAt hRun rfl ht (hSame.mono (by omega))
  | @user params args code last' hName hProc hCount hArgs =>
    have hAtCall : AtCall program lines s :=
      ⟨vars, b, name, args, last, _, last', rest, hSite, hName, .user hName hProc hCount hArgs, hAt,
        hs.inBody hFrame⟩
    obtain ⟨proc, hFind, rfl⟩ := look_proc hFrame.named hFrame.vars_named hProc hName
    obtain ⟨hMem, hProcName⟩ : proc ∈ program.procs ∧ proc.name.name = name.name :=
      ⟨List.mem_of_find?_eq_some hFind, by simpa using List.find?_some hFind⟩
    simp only [runCall, hName, hFind]
    rw [← hProcName] at hAt
    have hSim := h.sim_userCall hStart hCall hFrame hs hReached hAtCall hMem hArgs
      (map_snd_zip hCount) hAt
    refine hSim.mono ?_ id
    rintro w' ⟨k, t, hRoute, hEntered, hAt', hCalls, ht, hSame⟩
    exact ⟨k, t, hRoute, hEntered, hAt', hCalls, ht, hSame.mono (by omega)⟩

theorem entered_assignVar (vars : List VarDecl) (name : String) (value : Nat) (w : World)
    (locals : Store) : (assignVar vars name value w locals).1.entered = w.entered := by
  unfold assignVar
  split <;> rfl

/-- What is true of a run from `t` is true from `s`, if the machine gets from `s` to `t`. -/
theorem RunOutcome.of_route {x : Except Halt (World × Store)} {k : Nat}
    (hRoute : Route image (Called program lines image o) s.calls.length k s t)
    (hCalls : t.calls = s.calls) (hSame : SameStack image.addr b s t)
    (hEntered : w'.entered = w.entered + k)
    (h : RunOutcome x (GetsTo program lines image o vars b live rest last w' t)
      (CallsOn image n t)) :
    RunOutcome x (GetsTo program lines image o vars b live rest last w s) (CallsOn image n s) := by
  have hDepth : s.calls.length ≤ t.calls.length := Nat.le_of_eq (by rw [hCalls])
  refine h.mono ?_ (CallsOn.of_path hRoute.path hDepth)
  rintro r ⟨j, u, hRoute', hEntered', hAt, hCalls', hu, hSame'⟩
  exact ⟨k + j, u, hRoute.trans (hRoute'.mono hDepth), by omega, hAt, hCalls'.trans hCalls, hu,
    hSame.trans hSame'⟩

theorem GetsTo.label {l : Label} {r : World × Store}
    (h : GetsTo program lines image o vars b live (.label l :: rest) last w s r) :
    GetsTo program lines image o vars b live rest last w s r := by
  obtain ⟨k, t, hRoute, hEntered, hAt, hEnd⟩ := h
  exact ⟨k, t, hRoute, hEntered, At.pass rfl hAt, hEnd⟩

theorem Loaded.getsTo_settle (h : Loaded program lines image)
    (hFrame : Framed program image.addr vars b live) {r : World × Store}
    (hGets : GetsTo program lines image o vars b live (settleCode last ++ rest) last w s r) :
    GetsTo program lines image o vars b live rest 0 w s r := by
  have hSize := hFrame.size
  obtain ⟨k, t, hRoute, hEntered, hAt, hCalls, ht, hSame⟩ := hGets
  obtain ⟨u, hRun, hu, hSame', -⟩ := hFrame.run_settle ht
  obtain ⟨hPath', hAt', hCalls'⟩ := runLines_path h.assembled hAt hRun
  have hPath'' := hPath'.mono (Nat.le_of_eq (by rw [hCalls]))
  exact ⟨k + 0, u, hRoute.trans hPath''.route, hEntered, hAt', hCalls'.trans hCalls, hu,
    hSame.trans (hSame'.mono (by omega))⟩

theorem Loaded.getsTo_jump (h : Loaded program lines image) {l : Label} {mid after : List Line}
    {r : World × Store}
    (hGets : GetsTo program lines image o vars b live
      (plain (.jump l) :: (mid ++ .label l :: after)) last w s r) :
    GetsTo program lines image o vars b live after last w s r := by
  obtain ⟨k, t, hRoute, hEntered, hAt, hCalls, ht, hSame⟩ := hGets
  obtain ⟨hPath', hAt'⟩ := h.assembled.path_jump hAt
  have hPath'' := hPath'.mono (Nat.le_of_eq (by rw [hCalls]))
  exact ⟨k + 0, _, hRoute.trans hPath''.route, hEntered, hAt', hCalls, ht.move _ _, hSame⟩

mutual

/-- A statement does what it means, by induction on the statement. -/
theorem Loaded.sim_stmt (h : Loaded program lines image)
    (hStart : StartsFrom program image o start)
    {call : ProcDecl → List Nat → Nat → World → Except Halt World}
    (hCall : Serves program lines image o start n call)
    (hFrame : Framed program image.addr vars b live) (stmt : Stmt) {m m' : Nat}
    {rest code : List Line} {last last' : UInt8} {w : World} {locals : Store} {s : State}
    (hCode : StmtCode (program.env vars) stmt last m code last' m')
    (hAt : At lines (code ++ rest) s.pc)
    (hs : Matches program image.addr vars b live w locals last s)
    (hReached : Reached image o w.entered s)
    (hSites : ∀ call ∈ stmt.calls, program.HasSite vars call) :
    RunOutcome (runStmt program call vars live stmt w locals)
      (GetsTo program lines image o vars b live rest last' w s) (CallsOn image (n + 1) s) := by
  have hSize := hFrame.size
  cases stmt with
  | block stmts span =>
    cases hCode with
    | block hStmts =>
    rw [runStmt]
    exact h.sim_stmts hStart hCall hFrame stmts hStmts hAt hs hReached
      (by simpa only [Stmt.calls] using hSites)
  | assign target value =>
    cases hCode with
    | @assign _ _ info _ _ first last₁ second _ hInfo hValue hAddress =>
    rw [runStmt, runAssign, typeIn_eq hFrame.named hFrame.vars_named hInfo]
    refine RunOutcome.fits fun hFits => ?_
    obtain ⟨t, hRun, ht, hSame⟩ := hFrame.run_assign hs hInfo hValue hAddress hFits
    exact h.getsTo_of_run hAt hRun (entered_assignVar _ _ _ _ _) ht hSame
  | call name args =>
    cases hCode with
    | call hCallCode =>
    rw [runStmt]
    have hSite := hSites (name, args) (by simp [Stmt.calls])
    exact (h.sim_call hStart hCall hFrame hs hReached hSite hCallCode hAt).bind (fun _ => id) id
  | ifThen cond yes span =>
    cases hCode with
    | @ifThen _ _ _ _ _ test body last₁ _ hCond hYes =>
    have hAt' : At lines (test ++ ((body ++ settleCode last₁) ++ .label (.elseBranch m) :: rest))
        s.pc := by simpa using hAt
    rw [runStmt]
    refine (h.sim_cond hFrame hs hCond hAt').bind ?_ False.elim
    rintro holds ⟨t, hPath, hCalls, ht, hSame, hBranch⟩
    refine .of_route hPath.route hCalls (hSame.mono (by omega)) rfl ?_
    cases holds with
    | false =>
      exact ⟨0, t, (Machine.Path.refl (Nat.le_refl _)).route, rfl, hBranch, rfl, ht, fun _ _ _ => rfl⟩
    | true =>
      rw [if_pos rfl, List.append_assoc] at hBranch
      exact (h.sim_stmt hStart hCall hFrame yes hYes hBranch ht (hReached.path hPath)
        (by simpa only [Stmt.calls] using hSites)).mono
          (fun _ hGets => (h.getsTo_settle hFrame hGets).label) id
  | ifElse cond yes no span =>
    cases hCode with
    | @ifElse _ _ _ _ _ _ test first last₁ m₁ second last₂ _ hCond hYes hNo =>
    have hAt' : At lines (test ++ ((first ++ (settleCode last₁ ++ [plain (.jump (.endBranch m))])) ++
        .label (.elseBranch m) :: (second ++ (settleCode last₂ ++ .label (.endBranch m) :: rest))))
          s.pc := by simpa using hAt
    rw [runStmt]
    simp only [Stmt.calls, List.forall_mem_append] at hSites
    refine (h.sim_cond hFrame hs hCond hAt').bind ?_ False.elim
    rintro holds ⟨t, hPath, hCalls, ht, hSame, hBranch⟩
    refine .of_route hPath.route hCalls (hSame.mono (by omega)) rfl ?_
    cases holds with
    | false =>
      exact (h.sim_stmt hStart hCall hFrame no hNo hBranch ht (hReached.path hPath) hSites.2).mono
        (fun _ hGets => (h.getsTo_settle hFrame hGets).label) id
    | true =>
      have hFirst : At lines (first ++ (settleCode last₁ ++ (plain (.jump (.endBranch m)) ::
          ((.label (.elseBranch m) :: (second ++ settleCode last₂)) ++
            .label (.endBranch m) :: rest)))) t.pc := by simpa using hBranch
      exact (h.sim_stmt hStart hCall hFrame yes hYes hFirst ht (hReached.path hPath) hSites.1).mono
        (fun _ hGets => h.getsTo_jump (h.getsTo_settle hFrame hGets)) id

theorem Loaded.sim_stmts (h : Loaded program lines image)
    (hStart : StartsFrom program image o start)
    {call : ProcDecl → List Nat → Nat → World → Except Halt World}
    (hCall : Serves program lines image o start n call)
    (hFrame : Framed program image.addr vars b live) (stmts : List Stmt) {m m' : Nat}
    {rest code : List Line} {last last' : UInt8} {w : World} {locals : Store} {s : State}
    (hCode : StmtsCode (program.env vars) stmts last m code last' m')
    (hAt : At lines (code ++ rest) s.pc)
    (hs : Matches program image.addr vars b live w locals last s)
    (hReached : Reached image o w.entered s)
    (hSites : ∀ call ∈ callsIn stmts, program.HasSite vars call) :
    RunOutcome (runStmts program call vars live stmts w locals)
      (GetsTo program lines image o vars b live rest last' w s) (CallsOn image (n + 1) s) := by
  cases stmts with
  | nil =>
    cases hCode
    rw [runStmts]
    exact h.getsTo_of_run hAt rfl rfl hs fun _ _ _ => rfl
  | cons stmt stmts =>
    cases hCode with
    | @cons _ _ _ _ first last₁ m₁ second _ _ hStmt hStmts =>
    rw [runStmts]
    rw [List.append_assoc] at hAt
    simp only [callsIn, List.forall_mem_append] at hSites
    refine (h.sim_stmt hStart hCall hFrame stmt hStmt hAt hs hReached hSites.1).bind ?_ id
    rintro r ⟨k, t, hRoute, hEntered, hAt', hCalls, ht, hSame⟩
    have hReached' := hReached.path hRoute.path
    rw [← hEntered] at hReached'
    exact .of_route hRoute hCalls hSame hEntered
      (h.sim_stmts hStart hCall hFrame stmts hStmts hAt' ht hReached' hSites.2)

end

/-! ### Procedures -/

/-- The arguments and what was left in memory make up the variables of a procedure. -/
theorem Laid.holdsLocals {addr : Label → UInt16} {proc : ProcDecl} {values : List Nat}
    {left : Store} (h : Laid s (zone addr + live + 1) (proc.params.map (·.typeOf)) values)
    (hStack : (s.reg .stack).toNat = live) (hLeft : LocalsLeft addr proc left s) :
    HoldsLocals addr proc.vars (live + 1) (proc.startLocals left values) s := by
  intro name decl hFind
  rcases h.find hFind with ⟨value, hZip, hValue⟩ | ⟨hZip, hLocal⟩
  · simp only [ProcDecl.startLocals, hZip]
    exact hValue
  · obtain ⟨hMem, rfl⟩ := name_of_findVar hLocal
    have hSlot := hLeft decl hMem
    rw [hStack] at hSlot
    simp only [ProcDecl.startLocals, hZip, hLocal]
    exact hSlot.symm

theorem Loaded.framed (h : Loaded program lines image) {proc : ProcDecl}
    (hVars : NamedVars [] proc.vars) (hFits : live + 1 + proc.frameSize ≤ stackLimit) :
    Framed program image.addr proc.vars (live + 1) (live + 1 + proc.frameSize) :=
  ⟨h.named, hVars, h.data, h.room, Nat.le_refl _, hFits⟩

/-- From the entry of a procedure to the start of its body. -/
theorem Loaded.path_enter (h : Loaded program lines image) {proc : ProcDecl} {values : List Nat}
    (hEntry : AtEntry program image o start proc values live w s) {code : List Line}
    (hFits : live + 1 + proc.frameSize ≤ stackLimit)
    (hCode : (.label (.procedure proc.name.name) ::
      (enterFrame (UInt8.ofNat proc.frameSize) ++ code)) <:+ lines) :
    ∃ t, Path image s.calls.length 0 s t ∧ At lines code t.pc ∧ t.calls = s.calls ∧
      Matches program image.addr proc.vars (live + 1) (live + 1 + proc.frameSize)
        { w with entered := w.entered + 1 } (proc.startLocals (start w.entered) values) 0 t ∧
      t.byte (zone image.addr + live) = s.reg .base ∧ SameStack image.addr live s t := by
  have hLimit : live + 1 + proc.frameSize ≤ 255 := hFits
  have hStack : (s.reg .stack).toNat = live := by
    rw [hEntry.stack]
    exact UInt8.toNat_ofNat_of_lt' (by show live < 256; omega)
  have hAt : At lines (enterFrame (UInt8.ofNat proc.frameSize) ++ code) s.pc := by
    rw [hEntry.pc]
    exact h.assembled.at_label hCode
  obtain ⟨t, hRun, hTop, hOnes, hBase, hSaved, hByte⟩ :=
    run_enterFrame (zone_lt h.room (s.reg .stack)) (UInt8.ofNat proc.frameSize)
  rw [hStack] at hSaved hByte
  obtain ⟨hPath, hAt', hCalls⟩ := runLines_path h.assembled hAt hRun
  have hHeld := hEntry.laid.holdsLocals hStack hEntry.left
  have hWorld := hEntry.world.of_bytes h.data fun a ha => hByte a (by omega)
  refine ⟨t, hPath, hAt', hCalls, ⟨?_, ?_, ?_, ?_, ?_⟩, hSaved, ?_⟩
  · exact hOnes.trans hEntry.ones
  · rw [hBase, hEntry.stack, UInt8.ofNat_add, UInt8.add_zero]
    rfl
  · rw [hTop, hEntry.stack, UInt8.ofNat_add, UInt8.ofNat_add]
    rfl
  · exact ⟨hWorld.global, hWorld.bcdLow, hWorld.bcdHigh⟩
  · exact hHeld.of_bytes fun a ha _ => hByte a (by omega)
  · exact fun a _ ha => hByte a (by omega)

/-- From the end of a body to the return of its procedure. -/
theorem Loaded.path_leave (h : Loaded program lines image) {size : Nat}
    (hs : Matches program image.addr vars (live + 1) size w locals 0 s) (hLive : live < 256)
    (hAt : At lines (leaveFrame ++ rest) s.pc) :
    ∃ t, Path image s.calls.length 0 s t ∧ At lines rest t.pc ∧ t.calls = s.calls ∧
      t.reg .ones = 0xFF ∧ t.reg .stack = UInt8.ofNat live ∧
      t.reg .base = s.byte (zone image.addr + live) ∧ ∀ a, t.byte a = s.byte a := by
  have hDown : s.reg .base + 0xFF = UInt8.ofNat live := by
    rw [hs.base, UInt8.add_zero, UInt8.ofNat_add, UInt8.add_assoc]
    exact UInt8.add_zero _
  obtain ⟨t, hRun, hStack, hOnes, hBase, hByte⟩ := run_leaveFrame h.room hDown
  rw [UInt8.toNat_ofNat_of_lt' hLive] at hBase
  obtain ⟨hPath, hAt', hCalls⟩ := runLines_path h.assembled hAt hRun
  exact ⟨t, hPath, hAt', hCalls, hOnes.trans hs.ones, hStack, hBase, hByte⟩

/-- The machine carries procedures out as the reference semantics does, however deep the calls
are nested. -/
theorem Loaded.serves (h : Loaded program lines image)
    (hStart : StartsFrom program image o start) (fuel : Nat) :
    Serves program lines image o start fuel (runProc program start fuel) := by
  induction fuel with
  | zero =>
    intro proc _ values live w s _
    exact ⟨0, s, Nat.le_refl 0, .refl (Nat.le_refl _)⟩
  | succ fuel ih =>
    intro proc hProc values live w s hEntry
    obtain ⟨hVars, n, code, n', rest, hCode, hSuffix⟩ := h.proc proc hProc
    cases hCode with
    | @mk body last _ hSize hBody =>
    refine RunOutcome.fits fun hFits => ?_
    have hFrame := h.framed hVars hFits
    have hLimit : live + 1 + proc.frameSize ≤ 255 := hFits
    obtain ⟨t, hPath, hAt, hCalls, ht, hSaved, hSame⟩ := h.path_enter hEntry hFits
      (by simpa using hSuffix)
    have hDepth : s.calls.length ≤ t.calls.length := Nat.le_of_eq (by rw [hCalls])
    refine (h.sim_stmts hStart ih hFrame proc.body.stmts hBody hAt ht (hEntry.reached.path hPath)
      fun call hMem => Program.hasSite_of_proc hProc hMem).bind ?_ (CallsOn.of_path hPath hDepth)
    rintro r hGets
    obtain ⟨k, u, hRoute₁, hEntered, hAt₁, hCalls₁, hu, hSame₁⟩ := h.getsTo_settle hFrame hGets
    obtain ⟨v, hPath₂, hAt₂, hCalls₂, hOnes, hStack, hBase, hByte⟩ :=
      h.path_leave hu (by omega) hAt₁
    have hSaved' : u.byte (zone image.addr + live) = s.reg .base :=
      (hSame₁ _ (by omega) (by omega)).trans hSaved
    have hWorld := hu.world.of_bytes h.data fun a _ => hByte a
    refine ⟨0 + k + 0, v, ?_, ?_, ⟨_, hAt₂⟩, ?_, hOnes, ?_, ?_, hWorld, ?_⟩
    · refine (hPath.route.trans (hRoute₁.mono hDepth)).trans (hPath₂.route.mono ?_)
      rw [hCalls₁]
      exact hDepth
    · simpa using hEntered
    · rw [hCalls₂, hCalls₁, hCalls]
    · rw [hStack, hEntry.stack]
    · rw [hBase, hSaved']
    · exact hSame.trans fun a ha ha' => (hByte a).trans (hSame₁ a ha (by omega))

end

end ChipPascal
