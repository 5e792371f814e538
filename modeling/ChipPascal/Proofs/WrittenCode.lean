import ChipPascal.Proofs.CompiledProgram

/-!
# What lowering writes in any case

A statement with a mistake is given up halfway, and the lines written for it stay. So a body is
more than the code of its statements: it is made of stretches of code that may break off after any
of their parts, and of branches, which are only given up before they jump. What follows about
labels and about the frame base holds of every listing that lowering returns.
-/

namespace ChipPascal

open Lowering Line

/-! ### Code that may break off -/

def stageCode (type : ValueType) : List Line :=
  [plain (.index .stackZone), plain (.addIndex .stack)] ++ storeAccumulator type
    ++ [plain (.addByte .stack type.size)]

/-- A part that is written as a whole, and is the same in every body. -/
inductive Piece : List Line → Prop
  | literal (mode : Mode) (wide : Bool) (value : UInt16) : Piece (literal mode wide value)
  | unary (op : UnaryOp) (wide : Bool) : Piece (unaryCode op wide)
  | spill (wide : Bool) : Piece (spill wide)
  | reload (mode : Mode) (wide : Bool) : Piece (reload mode wide)
  | stage (type : ValueType) : Piece (stageCode type)
  | intrinsic (intrinsic : Intrinsic) : Piece (intrinsicCode intrinsic)
  | bcd : Piece bcdCode
  | gap : Piece [blank]

/-- Code without labels and jumps, as far as it was written. It takes the displacement of the base
from one value to the other. -/
inductive Strand (env : Env) : UInt8 → List Line → UInt8 → Prop
  | nil (last : UInt8) : Strand env last [] last
  | append {last first last₁ second last₂} (hFirst : Strand env last first last₁)
    (hSecond : Strand env last₁ second last₂) : Strand env last (first ++ second) last₂
  | piece {lines} (h : Piece lines) (last : UInt8) : Strand env last lines last
  | read {mode wide name info last lines last'} (hInfo : env.look name = some (.var info))
    (hAddress : AddressCode env.slots name (mode.mnemonic ++ " " ++ name) info.isGlobal last lines
      last') :
    Strand env last (lines ++ readVar mode wide info.type.isWide) last'
  | write {name info last lines last'} (hInfo : env.look name = some (.var info))
    (hAddress : AddressCode env.slots name ("assign " ++ name) info.isGlobal last lines last') :
    Strand env last (lines ++ storeAccumulator info.type) last'
  | prepare {name params} (hProc : env.look name = some (.proc params)) (last : UInt8) :
    Strand env last [noted (.addByte .stack 1) ("call " ++ name)] last
  | call {name params} (hProc : env.look name = some (.proc params))
    (hName : Intrinsic.ofName? name = none) (last : UInt8) :
    Strand env last [plain (.addByte .stack (-stagedBytes params)), plain (.call (.procedure name))]
      last

/-- The lines of a body, whether or not its statements were given up: they take the displacement
from `last` to `last'`, and the numbers of their branches are from `n` up to `n'`. -/
inductive BodyCode (env : Env) : UInt8 → Nat → List Line → UInt8 → Nat → Prop
  | strand {last lines last'} (h : Strand env last lines last') (n : Nat) :
    BodyCode env last n lines last' n
  /-- A branch that is given up has used its number. -/
  | unused (last : UInt8) (n : Nat) : BodyCode env last n [] last (n + 1)
  | append {last n first last₁ n₁ second last₂ n₂} (hFirst : BodyCode env last n first last₁ n₁)
    (hSecond : BodyCode env last₁ n₁ second last₂ n₂) :
    BodyCode env last n (first ++ second) last₂ n₂
  | ifThen {wide last n cond last₁ body last₂ n'} (hCond : Strand env last cond last₁)
    (hYes : BodyCode env 0 (n + 1) body last₂ n') :
    BodyCode env last n
      (cond ++ (settleCode last₁ ++ testCode wide (.elseBranch n)) ++
        (body ++ (settleCode last₂ ++ [.label (.elseBranch n)]))) 0 n'
  | ifElse {wide last n cond last₁ first last₂ n₁ second last₃ n₂}
    (hCond : Strand env last cond last₁) (hYes : BodyCode env 0 (n + 1) first last₂ n₁)
    (hNo : BodyCode env 0 n₁ second last₃ n₂) :
    BodyCode env last n
      (cond ++ (settleCode last₁ ++ testCode wide (.elseBranch n)) ++
        (first ++ (settleCode last₂ ++ ([plain (.jump (.endBranch n)), .label (.elseBranch n)] ++
          (second ++ (settleCode last₃ ++ [.label (.endBranch n)])))))) 0 n₂

/-- A procedure from its label to its return. A frame that is too large has no body. -/
inductive ProcLines (program : Program) (proc : ProcDecl) (n : Nat) : List Line → Nat → Prop
  | body {body last n'} (hSize : proc.frameSize ≤ maxFrame)
    (hBody : BodyCode (program.env proc.vars) 0 n body last n') :
    ProcLines program proc n
      (.label (.procedure proc.name.name) :: (enterFrame (UInt8.ofNat proc.frameSize) ++
        (body ++ (settleCode last ++ (leaveFrame ++ [plain .ret, blank]))))) n'
  | tooLarge (hSize : maxFrame < proc.frameSize) :
    ProcLines program proc n [.label (.procedure proc.name.name), plain .ret, blank] n

inductive DeclsLines (program : Program) : List Decl → Nat → List Line → Nat → Prop
  | nil (n : Nat) : DeclsLines program [] n [] n
  | var {decl decls n lines n'} (h : DeclsLines program decls n lines n') :
    DeclsLines program (.var decl :: decls) n lines n'
  | proc {proc decls n first n₁ second n₂} (hProc : ProcLines program proc n first n₁)
    (hDecls : DeclsLines program decls n₁ second n₂) :
    DeclsLines program (.proc proc :: decls) n (first ++ second) n₂

inductive ProgramLines (program : Program) (stackWords : Nat) : List Line → Prop
  | mk {decls n main last n'} (hDecls : DeclsLines program program.decls 0 decls n)
    (hMain : BodyCode (program.env []) 0 n main last n') :
    ProgramLines program stackWords
      (preamble program.name.name ++ (decls ++ (.label .entry :: (main ++ (settleCode last ++
        (finishCode ++ dataSection (program.globals.map (·.name.name)) stackWords))))))

/-! ### Code that does not break off -/

section

variable {env : Env} {last last' : UInt8} {lines : List Line}

theorem ExprCode.strand {mode : Mode} {wide : Bool} {e : Expr}
    (h : ExprCode env mode wide e last lines last') : Strand env last lines last' := by
  induction h with
  | ref hInfo hAddress => exact .read hInfo hAddress
  | int hRead => exact .piece (.literal _ _ _) _
  | unary _ ih => exact ih.append (.piece (.unary _ _) _)
  | fused _ _ _ _ ihLeft ihRight => exact ihLeft.append ihRight
  | spilled _ _ _ _ ihLeft ihRight =>
    exact ihLeft.append (.append (.piece (.spill _) _) (ihRight.append (.piece (.reload _ _) _)))

theorem ArgsCode.strand {args : List (Expr × ValueType)}
    (h : ArgsCode env args last lines last') : Strand env last lines last' := by
  induction h with
  | nil last => exact .nil last
  | cons hArg _ ih => exact hArg.strand.append (.append (.piece (.stage _) _) ih)

theorem CallCode.strand {name : Ident} {args : List Expr}
    (h : CallCode env name last args lines last') : Strand env last lines last' := by
  cases h with
  | bcd hName hArg => exact hArg.strand.append (.append (.piece .bcd _) (.piece .gap _))
  | intrinsic hName hOther => exact .append (.piece (.intrinsic _) _) (.piece .gap _)
  | @user params args lines last' hName hProc hCount hArgs =>
    have hCall := Strand.append (.call hProc hName last') (.piece .gap last')
    exact .append (.prepare hProc last) (hArgs.strand.append hCall)

theorem CondCode.strand {cond : Expr} {whenZero : Label} (h : CondCode env cond whenZero last lines) :
    ∃ first last₁ wide, Strand env last first last₁ ∧
      lines = first ++ (settleCode last₁ ++ testCode wide whenZero) := by
  cases h with
  | mk hCond => exact ⟨_, _, _, hCond.strand, rfl⟩

mutual

/-- The code of a statement is one of the bodies that may be written for it. -/
theorem bodyCode_stmt (stmt : Stmt) {last last' : UInt8} {n n' : Nat} {lines : List Line}
    (h : StmtCode env stmt last n lines last' n') : BodyCode env last n lines last' n' := by
  cases h with
  | block h => exact bodyCode_stmts _ h
  | assign hInfo hValue hAddress =>
    have hWrite := Strand.append (.write hInfo hAddress) (.piece .gap _)
    rw [List.append_assoc] at hWrite
    exact .strand (hValue.strand.append hWrite) n
  | call h => exact .strand h.strand n
  | ifThen hCond hYes =>
    obtain ⟨first, last₁, wide, hStrand, rfl⟩ := hCond.strand
    exact .ifThen hStrand (bodyCode_stmt _ hYes)
  | ifElse hCond hYes hNo =>
    obtain ⟨first, last₁, wide, hStrand, rfl⟩ := hCond.strand
    exact .ifElse hStrand (bodyCode_stmt _ hYes) (bodyCode_stmt _ hNo)

theorem bodyCode_stmts (stmts : List Stmt) {last last' : UInt8} {n n' : Nat} {lines : List Line}
    (h : StmtsCode env stmts last n lines last' n') : BodyCode env last n lines last' n' := by
  cases h with
  | nil => exact .strand (.nil last) n
  | cons hStmt hStmts =>
    exact BodyCode.append (bodyCode_stmt _ hStmt) (bodyCode_stmts _ hStmts)

end

variable {program : Program} {n n' : Nat}

theorem DeclsCode.declsLines {decls : List Decl} (h : DeclsCode program decls n lines n') :
    DeclsLines program decls n lines n' := by
  induction h with
  | nil n => exact .nil n
  | var _ ih => exact .var ih
  | proc hProc _ ih =>
    obtain ⟨hSize, hBody⟩ := hProc
    exact .proc (.body hSize (bodyCode_stmts _ hBody)) ih

/-- A program without errors has lines of the shape that any program has. -/
theorem ProgramCode.programLines {stackWords : Nat} (h : ProgramCode program stackWords lines) :
    ProgramLines program stackWords lines := by
  obtain ⟨hDecls, hMain⟩ := h
  exact .mk hDecls.declsLines (bodyCode_stmts _ hMain)

end

/-! ### Steps that may stop -/

namespace Lowering

open Lower

variable {ε α β : Type} {env : Env} {s s' : State} {last : UInt8} {lines : List Line}
  {Q : α → Prop}

/-- Whether it stops or not, the step writes a strand, changes nothing but the displacement, and
gives a value with `Q`. -/
def Weaves (env : Env) (Q : α → Prop) (x : Lower ε α) : Prop :=
  ∀ s last, Stands env last s →
    (∃ last', Strand env last (x s).lines last' ∧ Moved env s (x s).state last' s.branches) ∧
      ∀ a, (x s).value = .ok a → Q a

theorem weaves_pure {a : α} (h : Q a) : Weaves env Q (Pure.pure a : Lower ε α) := by
  intro s last hs
  refine ⟨⟨last, .nil last, hs.moved_self⟩, ?_⟩
  rintro b ⟨⟩
  exact h

theorem weaves_stop (e : ε) : Weaves env Q (stop e : Lower ε α) := by
  intro s last hs
  refine ⟨⟨last, .nil last, hs.moved_self⟩, ?_⟩
  rintro a ⟨⟩

theorem weaves_emit {out : List Line} (h : ∀ last, Strand env last out last) :
    Weaves env (fun _ => True) (emit out : Lower ε Unit) :=
  fun _ last hs => ⟨⟨last, h last, hs.moved_self⟩, fun _ _ => trivial⟩

theorem weaves_piece {out : List Line} (h : Piece out) :
    Weaves env (fun _ => True) (emit out : Lower ε Unit) :=
  weaves_emit fun last => .piece h last

theorem weaves_state :
    Weaves env (fun s => ∀ {name symbol}, s.symbols.get? name = some symbol →
      env.look name = some symbol) (state : Lower ε State) := by
  intro s last hs
  refine ⟨⟨last, .nil last, hs.moved_self⟩, ?_⟩
  rintro a ⟨⟩
  exact hs.look

/-- Strands in a row are a strand, also if the second step is not reached. -/
theorem Weaves.bind {R : β → Prop} {x : Lower ε α} {f : α → Lower ε β} (hx : Weaves env Q x)
    (hf : ∀ a, Q a → Weaves env R (f a)) : Weaves env R (x >>= f) := by
  intro s last hs
  obtain ⟨⟨last₁, hStrand₁, hMoved₁⟩, hValue⟩ := hx s last hs
  cases h : (x s).value with
  | error e =>
    rw [bind_of_error h]
    refine ⟨⟨last₁, hStrand₁, hMoved₁⟩, ?_⟩
    rintro b ⟨⟩
  | ok a =>
    rw [bind_of_ok h]
    obtain ⟨⟨last₂, hStrand₂, hMoved₂⟩, hLast⟩ := hf a (hValue a h) _ last₁ (hs.move hMoved₁)
    rw [hMoved₁.branches] at hMoved₂
    exact ⟨⟨last₂, hStrand₁.append hStrand₂, hMoved₁.trans hMoved₂⟩, hLast⟩

theorem Weaves.lift {x : Lower Fault α} (hx : Weaves env Q x) :
    Weaves env Q (liftM x : Lower Stop α) := by
  intro s last hs
  obtain ⟨hStrand, hValue⟩ := hx s last hs
  refine ⟨hStrand, ?_⟩
  intro a ha
  have hLift : ((liftM x : Lower Stop α) s).value = (x s).value.mapError .fault := rfl
  rw [hLift] at ha
  cases h : (x s).value with
  | error e =>
    rw [h] at ha
    cases ha
  | ok b =>
    rw [h] at ha
    cases ha
    exact hValue _ h

theorem weaves_variableInfo (name : Ident) :
    Weaves env (fun info => env.look name.name = some (.var info)) (variableInfo name) := by
  apply weaves_state.bind
  intro s hLook
  split
  · next info hInfo => exact weaves_pure (hLook (varInfo_ok hInfo))
  · exact weaves_stop _

/-- A step for an address that stops has written nothing. -/
theorem pointAt_gives_or_stops (name : String) (isGlobal : Bool) (note : String) (s : State) :
    (∃ lines s', Gives (pointAt name isGlobal note) s lines s' ()) ∨
      pointAt name isGlobal note s = ⟨[], s, .error (.noFrameSlot name)⟩ := by
  unfold pointAt
  split
  · exact .inl ⟨_, _, rfl⟩
  · rw [bind_of_ok (a := s) rfl]
    cases hOffset : s.frames.offsetFromLast? name with
    | none => exact .inr rfl
    | some found => exact .inl ⟨_, _, gives_state_bind.mpr (by rw [hOffset]; rfl)⟩

theorem address_gives_or_stops (name : String) (info : VarInfo) (note : String) (s : State) :
    (∃ lines s', Gives (address name info note) s lines s' ()) ∨
      ∃ fault, address name info note s = ⟨[], s, .error fault⟩ := by
  unfold address
  cases info.storage with
  | register r => exact .inr ⟨_, rfl⟩
  | stack | fixed => exact (pointAt_gives_or_stops name _ note s).imp_right fun h => ⟨_, h⟩

/-- Pointing `I` at a variable and what follows it are one part: a variable that has no place in
memory is given up before anything is written for it. -/
theorem weaves_address {name note : String} {info : VarInfo} {after : List Line}
    (h : ∀ {last lines last'}, AddressCode env.slots name note info.isGlobal last lines last' →
      Strand env last (lines ++ after) last') :
    Weaves env (fun _ => True)
      ((liftM (address name info note) : Lower Stop Unit) >>= fun _ => emit after) := by
  intro s last hs
  refine ⟨?_, fun _ _ => trivial⟩
  rcases address_gives_or_stops name info note s with ⟨lines, s', hGives⟩ | ⟨fault, hStops⟩
  · obtain ⟨last', hCode, hMoved⟩ := code_address hs hGives
    have hBoth : Gives ((liftM (address name info note) : Lower Stop Unit) >>= fun _ => emit after)
        s (lines ++ after) s' () :=
      gives_bind.mpr ⟨(), lines, s', after, gives_lift.mpr hGives, rfl, rfl⟩
    rw [hBoth]
    exact ⟨last', h hCode, hMoved⟩
  · have hError : ((liftM (address name info note) : Lower Stop Unit) s).value =
        .error (.fault fault) := by
      show (address name info note s).value.mapError _ = _
      rw [hStops]
      rfl
    rw [bind_of_error hError]
    show ∃ last', Strand env last (address name info note s).lines last' ∧
      Moved env s (address name info note s).state last' s.branches
    rw [hStops]
    exact ⟨last, .nil last, hs.moved_self⟩

/-- Lowering an expression writes a strand, wherever it stops. -/
theorem weaves_lowerExpr (mode : Mode) (wide : Bool) (e : Expr) :
    Weaves env (fun _ => True) (lowerExpr mode wide e) := by
  induction e generalizing mode with
  | ref name =>
    apply (weaves_variableInfo name).lift.bind
    intro info hInfo
    exact weaves_address fun hAddress => .read hInfo hAddress
  | int text span =>
    simp only [lowerExpr]
    split
    · exact weaves_piece (.literal _ _ _)
    · exact weaves_stop _
  | unary op operand span ih =>
    apply (ih .load).bind
    intro _ _
    exact weaves_piece (.unary op wide)
  | binary op left right span ihl ihr =>
    simp only [lowerExpr]
    split
    · exact weaves_stop _
    · apply (ihl .load).bind
      intro _ _
      split
      · exact ihr _
      · apply (weaves_piece (.spill wide)).bind
        intro _ _
        exact (ihr .load).bind fun _ _ => weaves_piece (.reload _ wide)

theorem weaves_lowerAssign (target : Ident) (value : Expr) :
    Weaves env (fun _ => True) (lowerAssign target value) := by
  apply (weaves_variableInfo target).lift.bind
  intro info hInfo
  apply (weaves_lowerExpr _ _ _).bind
  intro _ _
  apply weaves_address
  intro last lines last' hAddress
  rw [← List.append_assoc]
  exact .append (.write hInfo hAddress) (.piece .gap last')

theorem weaves_lowerArgs (args : List (Expr × ValueType)) :
    Weaves env (fun _ => True) (lowerArgs args) := by
  induction args with
  | nil => exact weaves_pure trivial
  | cons arg args ih =>
    apply (weaves_lowerExpr _ _ _).bind
    intro _ _
    exact (weaves_piece (.stage arg.2)).bind fun _ _ => ih

theorem weaves_lowerIntrinsic (intrinsic : Intrinsic) (args : List Expr) :
    Weaves env (fun _ => True) (lowerIntrinsic intrinsic args) := by
  have hFixed : ∀ {out}, Piece out →
      Weaves env (fun _ => True) (emit out >>= fun _ => emit [blank] : Lower Stop Unit) :=
    fun h => (weaves_piece h).bind fun _ _ => weaves_piece .gap
  unfold lowerIntrinsic
  split
  · exact hFixed (.intrinsic .cls)
  · exact hFixed (.intrinsic .breakpoint)
  · exact (weaves_lowerExpr _ _ _).bind fun _ _ => hFixed .bcd
  · exact (weaves_stop (Q := fun _ => True) _).bind fun _ _ => weaves_piece .gap
  · exact hFixed (.intrinsic .printBcd)
  · exact hFixed (.intrinsic .printBcdHigh)

theorem weaves_lowerCall (name : Ident) (args : List Expr) :
    Weaves env (fun _ => True) (lowerCall name args) := by
  apply weaves_state.bind
  intro s hLook
  split
  · exact weaves_stop _
  · next params hGet =>
    have hProc := hLook hGet
    split
    · exact weaves_stop _
    · split
      · exact weaves_lowerIntrinsic _ _
      · next hName =>
        apply (weaves_emit fun last => .prepare hProc last).bind
        intro _ _
        apply (weaves_lowerArgs _).bind
        intro _ _
        exact weaves_emit fun last => .append (.call hProc hName last) (.piece .gap last)
  · exact weaves_stop _

/-! ### Statements, given up or not -/

def Passed (env : Env) (s s' : State) (last : UInt8) (n : Nat) : Prop :=
  ∃ t errors, Moved env s t last n ∧ s' = { t with errors := errors }

theorem Moved.passed {n : Nat} (h : Moved env s s' last n) : Passed env s s' last n :=
  ⟨s', s'.errors, h, rfl⟩

theorem Passed.branches {n : Nat} (h : Passed env s s' last n) : s'.branches = n := by
  obtain ⟨t, errors, hMoved, rfl⟩ := h
  exact hMoved.branches

theorem Passed.trans {s'' : State} {last' : UInt8} {n n' : Nat} (h : Passed env s s' last n)
    (h' : Passed env s' s'' last' n') : Passed env s s'' last' n' := by
  obtain ⟨_, errors, ⟨frames, hActive, -, rfl⟩, rfl⟩ := h
  obtain ⟨_, errors', ⟨frames', hActive', hShows', rfl⟩, rfl⟩ := h'
  exact ⟨_, errors', ⟨frames', hActive'.trans hActive, hShows', rfl⟩, rfl⟩

theorem Stands.pass (h : Stands env last s) {last' : UInt8} {n : Nat}
    (hPassed : Passed env s s' last' n) : Stands env last' s' := by
  obtain ⟨t, errors, hMoved, rfl⟩ := hPassed
  have hStands := h.move hMoved
  exact ⟨hStands.look, hStands.shows⟩

/-- An attempt that goes on has either carried the step out or given it up for a mistake. -/
theorem Gives.attempt_cases {x : Lower Stop Unit} {u : Unit} (h : Gives (attempt x) s lines s' u) :
    Gives x s lines s' () ∨ ∃ e t, x s = ⟨lines, t, .error (.user e)⟩ ∧
      s' = { t with errors := t.errors ++ [e] } := by
  cases hValue : (x s).value with
  | ok a =>
    rw [Gives, attempt_of_ok hValue, Result.mk.injEq] at h
    left
    rw [Gives, ← h.1, ← h.2.1, ← hValue]
  | error e =>
    cases e with
    | user e =>
      rw [Gives, attempt_of_user hValue, Result.mk.injEq] at h
      right
      exact ⟨e, (x s).state, by rw [← h.1, ← hValue], h.2.1.symm⟩
    | fault fault =>
      rw [Gives, attempt_of_fault hValue, Result.mk.injEq] at h
      exact absurd h.2.2 (by simp)

/-- A statement that is given up leaves a strand behind. -/
theorem Weaves.attempt {x : Lower Stop Unit} {R : Unit → Prop} {u : Unit} (hx : Weaves env R x)
    (hs : Stands env last s) (h : Gives (attempt x) s lines s' u) :
    ∃ last', Strand env last lines last' ∧ Passed env s s' last' s.branches := by
  obtain ⟨⟨last', hStrand, hMoved⟩, -⟩ := hx s last hs
  rcases Gives.attempt_cases h with hGives | ⟨e, t, hStops, rfl⟩
  · rw [hGives] at hStrand hMoved
    exact ⟨last', hStrand, hMoved.passed⟩
  · rw [hStops] at hStrand hMoved
    exact ⟨last', hStrand, t, _, hMoved, rfl⟩

theorem gives_settle (ε : Type) (hs : Stands env last s) :
    ∃ s', Gives (settle : Lower ε Unit) s (settleCode last) s' () ∧ Moved env s s' 0 s.branches := by
  have hGives : Gives (settle : Lower ε Unit) s _ { s with frames := s.frames.settle } () := rfl
  obtain ⟨hLines, hMoved⟩ := code_settle hs hGives
  rw [hLines] at hGives
  exact ⟨_, hGives, hMoved⟩

/-- A condition is tested, or given up before the test. -/
theorem lowerCond_cases (hs : Stands env last s) (cond : Expr) (whenZero : Label) :
    (∃ first last₁ wide s', Strand env last first last₁ ∧
      Gives (lowerCond cond whenZero) s (first ++ (settleCode last₁ ++ testCode wide whenZero)) s' ()
      ∧ Moved env s s' 0 s.branches) ∨
    ∃ e lines last' s', lowerCond cond whenZero s = ⟨lines, s', .error e⟩ ∧
      Strand env last lines last' ∧ Moved env s s' last' s.branches := by
  cases hWide : isWide s.symbols cond with
  | error e =>
    have hSteps : lowerCond cond whenZero s = (stop e : Lower Stop Unit) s := by
      rw [lowerCond, bind_of_ok (a := s) rfl]
      simp only [hWide]
      rfl
    exact .inr ⟨e, [], last, s, hSteps, .nil last, hs.moved_self⟩
  | ok wide =>
    -- once its width is known, the condition is a plain sequence of steps
    have hSteps : lowerCond cond whenZero s = (lowerExpr .load wide cond >>= fun _ =>
        settle >>= fun _ => emit (testCode wide whenZero) : Lower Stop Unit) s := by
      rw [lowerCond, bind_of_ok (a := s) rfl]
      simp only [hWide]
      rfl
    obtain ⟨⟨last₁, hStrand, hMoved₁⟩, -⟩ := weaves_lowerExpr .load wide cond s last hs
    cases hValue : (lowerExpr .load wide cond s).value with
    | error e =>
      refine .inr ⟨e, _, last₁, _, ?_, hStrand, hMoved₁⟩
      rw [hSteps, bind_of_error hValue]
    | ok u =>
      left
      obtain ⟨s₂, hSettle, hMoved₂⟩ := gives_settle Stop (hs.move hMoved₁)
      rw [hMoved₁.branches] at hMoved₂
      refine ⟨_, last₁, wide, s₂, hStrand, ?_, hMoved₁.trans hMoved₂⟩
      rw [Gives, hSteps]
      refine gives_bind.mpr ⟨u, _, _, _, by rw [Gives, ← hValue], ?_, rfl⟩
      exact gives_bind.mpr ⟨(), _, s₂, _, hSettle, gives_emit.mpr ⟨rfl, rfl⟩, rfl⟩

def Proceeds (x : Lower Stop α) : Prop := ∀ s e, (x s).value ≠ .error (.user e)

theorem proceeds_emit (out : List Line) : Proceeds (emit out) := by
  intro s e h
  cases h

theorem proceeds_settle : Proceeds settle := by
  intro s e h
  cases h

theorem proceeds_lift (x : Lower Fault α) : Proceeds (liftM x : Lower Stop α) := by
  intro s e h
  have hLift : ((liftM x : Lower Stop α) s).value = (x s).value.mapError .fault := rfl
  rw [hLift] at h
  cases hValue : (x s).value <;> rw [hValue] at h <;> cases h

theorem Proceeds.bind {x : Lower Stop α} {f : α → Lower Stop β} (hx : Proceeds x)
    (hf : ∀ a, Proceeds (f a)) : Proceeds (x >>= f) := by
  intro s e h
  cases hValue : (x s).value with
  | error e' =>
    rw [bind_of_error hValue] at h
    cases h
    exact hx s e hValue
  | ok a =>
    rw [bind_of_ok hValue] at h
    exact hf a _ e h

/-- A branch is only given up in its condition; then its number is used, and no label. -/
theorem branch_cases {rest : Nat → Lower Stop Unit} (hRest : ∀ n, Proceeds (rest n)) {cond : Expr}
    {u : Unit} (hs : Stands env last s)
    (h : Gives (attempt (newBranch >>= fun n =>
      lowerCond cond (.elseBranch n) >>= fun _ => rest n)) s lines s' u) :
    (∃ last', BodyCode env last s.branches lines last' (s.branches + 1) ∧
      Passed env s s' last' (s.branches + 1)) ∨
    ∃ first last₁ wide t after, Strand env last first last₁ ∧
      Moved env s t 0 (s.branches + 1) ∧ Gives (rest s.branches) t after s' () ∧
      lines = first ++ (settleCode last₁ ++ testCode wide (.elseBranch s.branches)) ++ after := by
  have hNew := hs.moved_newBranch
  have hNumbered : (newBranch >>= fun n => lowerCond cond (.elseBranch n) >>= fun _ => rest n) s =
      (lowerCond cond (.elseBranch s.branches) >>= fun _ => rest s.branches)
        { s with branches := s.branches + 1 } := rfl
  rcases lowerCond_cases (hs.move hNew) cond (.elseBranch s.branches) with
    ⟨first, last₁, wide, s₁, hStrand, hCond, hMoved⟩ | ⟨e, first, last', s₁, hCond, hStrand, hMoved⟩
  · have hValue := congrArg Result.value hCond
    rcases Gives.attempt_cases h with hGives | ⟨e, t, hStops, rfl⟩
    · right
      rw [Gives, hNumbered] at hGives
      obtain ⟨_, _, _, after, hFirst, hAfter, rfl⟩ := gives_bind.mp hGives
      obtain ⟨rfl, rfl, -⟩ := gives_of_eq hCond hFirst
      exact ⟨first, last₁, wide, s₁, after, hStrand, hNew.trans hMoved, hAfter, rfl⟩
    · rw [hNumbered, bind_of_ok hValue] at hStops
      exact absurd (congrArg Result.value hStops) (hRest _ _ e)
  · have hValue := congrArg Result.value hCond
    rcases Gives.attempt_cases h with hGives | ⟨e', t, hStops, rfl⟩
    · rw [Gives, hNumbered, bind_of_error hValue] at hGives
      exact absurd (congrArg Result.value hGives) (by simp)
    · left
      rw [hNumbered, bind_of_error hValue, hCond] at hStops
      cases hStops
      have hUnused : BodyCode env last s.branches [] last (s.branches + 1) := .unused last _
      exact ⟨last', hUnused.append (.strand hStrand _), s₁, _, hNew.trans hMoved, rfl⟩

mutual

/-- What is written for a statement is the code of a body, whether it is given up or not. -/
theorem written_lowerStmt (stmt : Stmt) {s s' : State} {last : UInt8} {lines : List Line}
    {u : Unit} (hs : Stands env last s) (h : Gives (lowerStmt stmt) s lines s' u) :
    ∃ last' n', BodyCode env last s.branches lines last' n' ∧ Passed env s s' last' n' := by
  cases stmt with
  | block stmts span => exact written_lowerStmts stmts hs h
  | assign target value =>
    obtain ⟨last', hStrand, hPassed⟩ := (weaves_lowerAssign target value).attempt hs h
    exact ⟨last', _, .strand hStrand _, hPassed⟩
  | call name args =>
    obtain ⟨last', hStrand, hPassed⟩ := (weaves_lowerCall name args).attempt hs h
    exact ⟨last', _, .strand hStrand _, hPassed⟩
  | ifThen cond yes span =>
    have hRest : ∀ n, Proceeds ((liftM (lowerStmt yes) : Lower Stop Unit) >>= fun _ =>
        settle >>= fun _ => emit [.label (.elseBranch n)]) := fun n =>
      (proceeds_lift _).bind fun _ => proceeds_settle.bind fun _ => proceeds_emit _
    rcases branch_cases hRest hs h with ⟨last', hBody, hPassed⟩ |
      ⟨first, last₁, wide, t, after, hStrand, hMoved, hAfter, rfl⟩
    · exact ⟨last', _, hBody, hPassed⟩
    have hst := hs.move hMoved
    obtain ⟨_, _, s₃, _, hYes, hRest, rfl⟩ := gives_bind.mp hAfter
    obtain ⟨_, _, s₄, _, hSettle, hEmit, rfl⟩ := gives_bind.mp hRest
    obtain ⟨rfl, rfl⟩ := gives_emit.mp hEmit
    obtain ⟨last₃, n₃, hCode₃, hPassed₃⟩ := written_lowerStmt yes hst (gives_lift.mp hYes)
    obtain ⟨rfl, hMoved₄⟩ := code_settle (hst.pass hPassed₃) hSettle
    rw [hMoved.branches] at hCode₃
    rw [hPassed₃.branches] at hMoved₄
    exact ⟨0, n₃, .ifThen hStrand hCode₃, (hMoved.passed.trans hPassed₃).trans hMoved₄.passed⟩
  | ifElse cond yes no span =>
    have hRest : ∀ n, Proceeds ((liftM (lowerStmt yes) : Lower Stop Unit) >>= fun _ =>
        settle >>= fun _ => emit [plain (.jump (.endBranch n)), .label (.elseBranch n)] >>= fun _ =>
          (liftM (lowerStmt no) : Lower Stop Unit) >>= fun _ => settle >>= fun _ =>
            emit [.label (.endBranch n)]) := fun n =>
      (proceeds_lift _).bind fun _ => proceeds_settle.bind fun _ => (proceeds_emit _).bind fun _ =>
        (proceeds_lift _).bind fun _ => proceeds_settle.bind fun _ => proceeds_emit _
    rcases branch_cases hRest hs h with ⟨last', hBody, hPassed⟩ |
      ⟨first, last₁, wide, t, after, hStrand, hMoved, hAfter, rfl⟩
    · exact ⟨last', _, hBody, hPassed⟩
    have hst := hs.move hMoved
    obtain ⟨_, _, s₃, _, hYes, hRest, rfl⟩ := gives_bind.mp hAfter
    obtain ⟨_, _, s₄, _, hSettle, hElse, rfl⟩ := gives_bind.mp hRest
    obtain ⟨_, hElse', rfl⟩ := gives_emit_bind.mp hElse
    obtain ⟨_, _, s₅, _, hNo, hEnd, rfl⟩ := gives_bind.mp hElse'
    obtain ⟨_, _, s₆, _, hSettle', hEmit, rfl⟩ := gives_bind.mp hEnd
    obtain ⟨rfl, rfl⟩ := gives_emit.mp hEmit
    obtain ⟨last₃, n₃, hCode₃, hPassed₃⟩ := written_lowerStmt yes hst (gives_lift.mp hYes)
    have hs₃ := hst.pass hPassed₃
    obtain ⟨rfl, hMoved₄⟩ := code_settle hs₃ hSettle
    have hs₄ := hs₃.move hMoved₄
    obtain ⟨last₅, n₅, hCode₅, hPassed₅⟩ := written_lowerStmt no hs₄ (gives_lift.mp hNo)
    obtain ⟨rfl, hMoved₆⟩ := code_settle (hs₄.pass hPassed₅) hSettle'
    rw [hMoved.branches] at hCode₃
    rw [hPassed₃.branches] at hMoved₄
    rw [hMoved₄.branches] at hCode₅
    rw [hPassed₅.branches] at hMoved₆
    have hFirst := (hMoved.passed.trans hPassed₃).trans hMoved₄.passed
    exact ⟨0, n₅, .ifElse hStrand hCode₃ hCode₅, (hFirst.trans hPassed₅).trans hMoved₆.passed⟩

theorem written_lowerStmts (stmts : List Stmt) {s s' : State} {last : UInt8} {lines : List Line}
    {u : Unit} (hs : Stands env last s) (h : Gives (lowerStmts stmts) s lines s' u) :
    ∃ last' n', BodyCode env last s.branches lines last' n' ∧ Passed env s s' last' n' := by
  cases stmts with
  | nil =>
    obtain ⟨rfl, rfl, -⟩ := gives_pure.mp h
    exact ⟨last, s'.branches, .strand (.nil last) _, hs.moved_self.passed⟩
  | cons stmt stmts =>
    rw [lowerStmts] at h
    obtain ⟨_, _, s₁, _, hStmt, hStmts, rfl⟩ := gives_bind.mp h
    obtain ⟨last₁, n₁, hCode₁, hPassed₁⟩ := written_lowerStmt stmt hs hStmt
    obtain ⟨last₂, n₂, hCode₂, hPassed₂⟩ := written_lowerStmts stmts (hs.pass hPassed₁) hStmts
    rw [hPassed₁.branches] at hCode₂
    exact ⟨last₂, n₂, .append hCode₁ hCode₂, hPassed₁.trans hPassed₂⟩

end

/-! ### Procedures and programs -/

variable {g : Bindings Symbol} {program : Program}

/-- The body of a procedure, or nothing if its frame is too large. -/
theorem written_lowerBody {name : Ident} {body : Block} {u : Unit} (hs : Stands env 0 s)
    (h : Gives (lowerBody name body) s lines s' u) :
    (maxFrame < Slot.total env.slots ∧ lines = [] ∧ Passed env s s' 0 s.branches) ∨
    ∃ code last n', Slot.total env.slots ≤ maxFrame ∧
      BodyCode env 0 s.branches code last n' ∧
      lines = enterFrame (UInt8.ofNat (Slot.total env.slots)) ++
        (code ++ (settleCode last ++ leaveFrame)) ∧
      Passed env s s' 0 n' := by
  rw [lowerBody, gives_state_bind] at h
  simp only [hs.shows.size] at h
  split at h
  · next hSize =>
    left
    obtain ⟨rfl, rfl⟩ := gives_update.mp h
    exact ⟨hSize, rfl, s, _, hs.moved_self, rfl⟩
  · next hSize =>
    right
    obtain ⟨_, hBody, rfl⟩ := gives_emit_bind.mp h
    obtain ⟨_, _, s₁, _, hStmts, hRest, rfl⟩ := gives_bind.mp hBody
    obtain ⟨_, _, s₂, _, hSettle, hEmit, rfl⟩ := gives_bind.mp hRest
    obtain ⟨rfl, rfl⟩ := gives_emit.mp hEmit
    obtain ⟨last, n', hCode, hPassed⟩ := written_lowerStmts body.stmts hs hStmts
    obtain ⟨rfl, hMoved⟩ := code_settle (hs.pass hPassed) hSettle
    rw [hPassed.branches] at hMoved
    exact ⟨_, last, n', Nat.le_of_not_lt hSize, hCode, rfl, hPassed.trans hMoved.passed⟩

/-- A procedure leaves its lines behind, or none at all if its frame is too large. -/
theorem written_lowerProc {proc : ProcDecl} {u : Unit} (hVars : NamedVars [] proc.vars)
    (hs : AtTopLevel g s)
    (hSub : ∀ {name symbol},
      (g.set proc.name.name (Decl.proc proc).symbol).get? name = some symbol →
        program.symbols.get? name = some symbol)
    (h : Gives (lowerProc proc) s lines s' u) :
    ProcLines program proc s.branches lines s'.branches ∧
      AtTopLevel (g.set proc.name.name (Decl.proc proc).symbol) s' ∧ s'.globals = s.globals := by
  have hParams := valueTypes_eq fun decl hd => hVars.typed decl (List.mem_append_left proc.locals hd)
  simp only [lowerProc, hParams] at h
  rw [gives_update_bind] at h
  obtain ⟨inner, r, hInner, rfl, rfl⟩ := gives_inScope.mp h
  have hTop : AtTopLevel (g.set proc.name.name (Decl.proc proc).symbol) { s with
      symbols := s.symbols.define proc.name.name (Decl.proc proc).symbol } :=
    ⟨hs.1.define _ _, hs.2⟩
  obtain ⟨s₁, hVarsRun, hs₁, hGlobals, hBranches, -⟩ := lowerVars_inProc
    (s := { s with
      symbols := (s.symbols.define proc.name.name (Decl.proc proc).symbol).openLocal
      frames := s.frames.openLocal })
    ⟨hTop.1.openLocal, hTop.2.openLocal⟩ hVars.typed
  obtain ⟨_, _, _, _, hDeclared, hBody, rfl⟩ := gives_bind.mp hInner
  obtain ⟨rfl, rfl, -⟩ := gives_of_eq hVarsRun hDeclared
  obtain ⟨_, hLowered, rfl⟩ := gives_emit_bind.mp hBody
  have hStands : Stands (program.env proc.vars) 0 s₁ := by
    refine ⟨?_, .inr hs₁.2⟩
    intro name symbol hGet
    rw [hs₁.1.get?] at hGet
    exact lookIn_mono hSub hGet
  have hActive : (s.symbols.define proc.name.name
      (.proc (proc.params.map (·.typeOf)))).active = 0 := hTop.1.active
  have hRoot : s.frames.active = 0 := hTop.2.active
  have hLeave : ∀ {last n}, Passed (program.env proc.vars) s₁ r last n →
      AtTopLevel (g.set proc.name.name (Decl.proc proc).symbol)
        { r with symbols := r.symbols.enter 0, frames := r.frames.enter 0 } ∧
      r.globals = s.globals := by
    rintro last n ⟨t, errors, hMoved, rfl⟩
    have hLeft := hs₁.leave rfl hMoved
    refine ⟨⟨hLeft.1, hLeft.2⟩, ?_⟩
    obtain ⟨frames, -, -, rfl⟩ := hMoved
    exact hGlobals
  have hTotal : Slot.total (program.env proc.vars).slots = proc.frameSize :=
    Slot.total_map_slot proc.vars
  simp only [hActive, hRoot]
  have hWritten := written_lowerBody hStands hLowered
  rw [hTotal, hBranches] at hWritten
  rcases hWritten with ⟨hSize, rfl, hPassed⟩ | ⟨code, last, n', hSize, hCode, rfl, hPassed⟩
  · refine ⟨?_, hLeave hPassed⟩
    have hCount : r.branches = s.branches := hPassed.branches
    simpa [hCount] using ProcLines.tooLarge hSize
  · refine ⟨?_, hLeave hPassed⟩
    have hCount : r.branches = n' := hPassed.branches
    simpa [hCount] using ProcLines.body hSize hCode

theorem written_lowerDecls {decls : List Decl} {ns : List String} {u : Unit}
    (hDecls : NamedDecls ns decls) (hg : g.Keys ns)
    (hSymbols : program.symbols = bindDecls g decls) (hs : AtTopLevel g s)
    (h : Gives (lowerDecls decls) s lines s' u) :
    DeclsLines program decls s.branches lines s'.branches ∧ AtTopLevel (bindDecls g decls) s' ∧
      s'.globals = s.globals ++ decls.filterMap fun
        | .var decl => some decl.name.name
        | .proc _ => none := by
  induction decls generalizing g ns s lines with
  | nil =>
    obtain ⟨rfl, rfl, -⟩ := gives_pure.mp h
    exact ⟨.nil _, hs, by simp⟩
  | cons decl decls ih =>
    rw [lowerDecls] at h
    obtain ⟨_, _, s₁, _, hDecl, hRest, rfl⟩ := gives_bind.mp h
    cases decl with
    | var decl =>
      obtain ⟨-, hType, hMore⟩ := hDecls
      obtain ⟨rfl, rfl, -⟩ := gives_of_eq (lowerVar_top hs hType) hDecl
      have hNext : AtTopLevel (g.set decl.name.name (decl.symbol true)) { s with
          symbols := s.symbols.define decl.name.name (decl.symbol true)
          globals := s.globals ++ [decl.name.name] } := ⟨hs.1.define _ _, hs.2⟩
      obtain ⟨hCode, hTop, hGlobals⟩ := ih hMore (hg.set decl.name.name (decl.symbol true))
        hSymbols hNext hRest
      refine ⟨.var hCode, hTop, ?_⟩
      rw [hGlobals]
      simp
    | proc proc =>
      obtain ⟨hFresh, hProc, hMore⟩ := hDecls
      have hKeys := hg.set proc.name.name (Decl.proc proc).symbol
      have hSub : ∀ {name symbol},
          (g.set proc.name.name (Decl.proc proc).symbol).get? name = some symbol →
            program.symbols.get? name = some symbol := by
        intro name symbol hGet
        rw [hSymbols]
        exact bindDecls_get?_of_get? hMore hKeys hGet
      obtain ⟨hCode₁, hTop₁, hGlobals₁⟩ := written_lowerProc hProc.vars hs hSub hDecl
      obtain ⟨hCode₂, hTop₂, hGlobals₂⟩ := ih hMore hKeys hSymbols hTop₁ hRest
      refine ⟨.proc hCode₁ hCode₂, hTop₂, ?_⟩
      rw [hGlobals₂, hGlobals₁]
      simp

/-- A listing has the shape of one whatever was reported. -/
theorem written_lowerProgram {stackWords : Nat} {u : Unit} (hNamed : program.WellNamed)
    (h : Gives (lowerProgram stackWords program) State.initial lines s' u) :
    ProgramLines program stackWords lines := by
  obtain ⟨_, hAll, rfl⟩ := gives_emit_bind.mp h
  obtain ⟨_, _, s₁, _, hDecls, hRest, rfl⟩ := gives_bind.mp hAll
  obtain ⟨_, hBody, rfl⟩ := gives_emit_bind.mp hRest
  obtain ⟨_, _, s₂, _, hStmts, hFinish, rfl⟩ := gives_bind.mp hBody
  obtain ⟨_, _, s₃, _, hSettle, hEnd, rfl⟩ := gives_bind.mp hFinish
  obtain ⟨_, hData, rfl⟩ := gives_emit_bind.mp hEnd
  rw [lowerData, gives_state_bind, gives_update_bind, gives_emit] at hData
  obtain ⟨rfl, rfl⟩ := hData
  obtain ⟨hCode, hTop, hGlobals⟩ := written_lowerDecls hNamed.decls
    (keys_builtins Builtin.symbol) rfl atTopLevel_initial hDecls
  have hStands : Stands (program.env []) 0 s₁ := by
    refine ⟨?_, hTop.2.shows⟩
    intro name symbol hGet
    rw [hTop.1.get?] at hGet
    exact hGet
  obtain ⟨last, n', hMain, hPassed⟩ := written_lowerStmts _ hStands hStmts
  obtain ⟨rfl, hMoved⟩ := code_settle (hStands.pass hPassed) hSettle
  have hNames : s₃.globals = program.globals.map (·.name.name) := by
    obtain ⟨_, _, ⟨_, -, -, rfl⟩, rfl⟩ := hPassed.trans hMoved.passed
    rw [← globals_names]
    exact hGlobals
  rw [hNames]
  exact .mk hCode hMain

/-- Whatever lowering returns for a well-named program is made of such lines. -/
theorem programLines_of_lowerFrom {stackWords : Nat} (hNamed : program.WellNamed)
    (h : (lowerFrom .initial stackWords program).1 = .ok lines) :
    ProgramLines program stackWords lines :=
  written_lowerProgram hNamed (gives_of_lowerFrom (Prod.ext h rfl))

end Lowering

end ChipPascal
