import ChipPascal.Proofs.Decoding
import ChipPascal.Proofs.Meaning
import ChipPascal.Proofs.NoFault

/-!
# The code of expressions and statements

What lowering writes, said without the state it threads: which lines an expression or a statement
can be lowered to where names stand for `look`, the frame has `slots`, and its base is displaced
by `last`. A statement that lowering did not give up has such code.
-/

namespace ChipPascal

open Lowering Line

/-! ### Steps that give a value -/

namespace Lower

variable {ε α β : Type}

/-- From `s` the step writes `lines`, leads to `s'` and gives `a`. -/
def Gives (x : Lower ε α) (s : State) (lines : List Line) (s' : State) (a : α) : Prop :=
  x s = ⟨lines, s', .ok a⟩

section

variable {x : Lower ε α} {s s' : State} {lines : List Line} {a : α} {b : β}

/-- The lines of a later step stand behind those of an earlier one. -/
theorem gives_bind {f : α → Lower ε β} :
    Gives (x >>= f) s lines s' b ↔
      ∃ a first middle rest, Gives x s first middle a ∧ Gives (f a) middle rest s' b ∧
        lines = first ++ rest := by
  constructor
  · intro h
    cases hValue : (x s).value with
    | error e =>
      rw [Gives, bind_of_error hValue] at h
      simp at h
    | ok a =>
      rw [Gives, bind_of_ok hValue] at h
      simp only [Result.mk.injEq] at h
      refine ⟨a, (x s).lines, (x s).state, (f a (x s).state).lines, ?_, ?_, h.1.symm⟩
      · rw [Gives, ← hValue]
      · rw [Gives, ← h.2.1, ← h.2.2]
  · rintro ⟨a, first, middle, rest, hx, hf, rfl⟩
    have hValue : (x s).value = .ok a := by rw [hx]
    rw [Gives, bind_of_ok hValue, hx, hf]

theorem gives_emit {out : List Line} {u : Unit} :
    Gives (emit out : Lower ε Unit) s lines s' u ↔ lines = out ∧ s' = s := by
  simp only [Gives, emit, Result.mk.injEq]
  constructor
  · rintro ⟨h, h', -⟩
    exact ⟨h.symm, h'.symm⟩
  · rintro ⟨rfl, rfl⟩
    exact ⟨rfl, rfl, trivial⟩

theorem gives_update {f : State → State} {u : Unit} :
    Gives (update f : Lower ε Unit) s lines s' u ↔ lines = [] ∧ s' = f s := by
  simp only [Gives, update, Result.mk.injEq]
  constructor
  · rintro ⟨h, h', -⟩
    exact ⟨h.symm, h'.symm⟩
  · rintro ⟨rfl, rfl⟩
    exact ⟨rfl, rfl, trivial⟩

theorem gives_pure {a' : α} :
    Gives (Pure.pure a' : Lower ε α) s lines s' a ↔ lines = [] ∧ s' = s ∧ a = a' := by
  show Gives (Lower.pure a') s lines s' a ↔ _
  simp only [Gives, Lower.pure, Result.mk.injEq, Except.ok.injEq]
  constructor
  · rintro ⟨h, h', h''⟩
    exact ⟨h.symm, h'.symm, h''.symm⟩
  · rintro ⟨rfl, rfl, rfl⟩
    exact ⟨rfl, rfl, rfl⟩

theorem gives_state_bind {f : State → Lower ε β} :
    Gives (state >>= f) s lines s' b ↔ Gives (f s) s lines s' b := by
  rw [Gives, bind_of_ok (a := s) rfl]
  rfl

theorem gives_update_bind {g : State → State} {f : Unit → Lower ε β} :
    Gives (update g >>= f) s lines s' b ↔ Gives (f ()) (g s) lines s' b := by
  rw [Gives, bind_of_ok (a := ()) rfl]
  rfl

theorem gives_emit_bind {out : List Line} {f : Unit → Lower ε β} :
    Gives (emit out >>= f) s lines s' b ↔
      ∃ rest, Gives (f ()) s rest s' b ∧ lines = out ++ rest := by
  rw [gives_bind]
  constructor
  · rintro ⟨_, first, middle, rest, hEmit, hRest, hLines⟩
    obtain ⟨rfl, rfl⟩ := gives_emit.mp hEmit
    exact ⟨rest, hRest, hLines⟩
  · rintro ⟨rest, hRest, hLines⟩
    exact ⟨(), out, s, rest, gives_emit.mpr ⟨rfl, rfl⟩, hRest, hLines⟩

theorem not_gives_stop {e : ε} : ¬ Gives (stop e : Lower ε α) s lines s' a := by
  simp [Gives, stop]

end

theorem gives_lift {x : Lower Fault α} {s s' : State} {lines : List Line} {a : α} :
    Gives (liftM x : Lower Stop α) s lines s' a ↔ Gives x s lines s' a := by
  have hLift : (liftM x : Lower Stop α) s =
      ⟨(x s).lines, (x s).state, (x s).value.mapError .fault⟩ := rfl
  rw [Gives, Gives, hLift]
  cases hx : x s with
  | mk l r value =>
    cases value with
    | error e =>
      constructor <;>
      · intro h
        cases h
    | ok b =>
      constructor <;>
      · intro h
        cases h
        rfl

/-- A step that was attempted and brought up no mistake was not given up. -/
theorem Gives.of_attempt {x : Lower Stop Unit} {s s' : State} {lines : List Line} {u : Unit}
    (h : Gives (attempt x) s lines s' u) (hErrors : s'.errors = []) :
    Gives x s lines s' () := by
  cases hValue : (x s).value with
  | ok a =>
    rw [Gives, attempt_of_ok hValue, Result.mk.injEq] at h
    rw [Gives, ← h.1, ← h.2.1, ← hValue]
  | error e =>
    cases e with
    | user error =>
      rw [Gives, attempt_of_user hValue, Result.mk.injEq] at h
      rw [← h.2.1] at hErrors
      simp at hErrors
    | fault fault =>
      rw [Gives, attempt_of_fault hValue, Result.mk.injEq] at h
      exact absurd h.2.2 (by simp)

/-- A mistake that came up before the step is not forgotten. -/
def Remembers (x : Lower ε α) : Prop := ∀ s, s.errors ≠ [] → (x s).state.errors ≠ []

theorem remembers_pure (a : α) : Remembers (Pure.pure a : Lower ε α) := fun _ hs => hs

theorem remembers_emit (lines : List Line) : Remembers (emit lines : Lower ε Unit) := fun _ hs => hs

theorem remembers_stop (e : ε) : Remembers (stop e : Lower ε α) := fun _ hs => hs

theorem remembers_state : Remembers (state : Lower ε State) := fun _ hs => hs

theorem remembers_update {f : State → State} (h : ∀ s, (f s).errors = s.errors) :
    Remembers (update f : Lower ε Unit) := by
  intro s hs
  show (f s).errors ≠ []
  rw [h s]
  exact hs

theorem Remembers.bind {x : Lower ε α} {f : α → Lower ε β} (hx : Remembers x)
    (hf : ∀ a, Remembers (f a)) : Remembers (x >>= f) := by
  intro s hs
  cases hValue : (x s).value with
  | error e =>
    rw [bind_of_error hValue]
    exact hx s hs
  | ok a =>
    rw [bind_of_ok hValue]
    exact hf a _ (hx s hs)

theorem Remembers.lift {x : Lower Fault α} (hx : Remembers x) :
    Remembers (liftM x : Lower Stop α) := hx

/-- Giving up a statement adds a mistake and drops none. -/
theorem Remembers.attempt {x : Lower Stop Unit} (hx : Remembers x) : Remembers (attempt x) := by
  intro s hs
  cases hValue : (x s).value with
  | ok a =>
    rw [attempt_of_ok hValue]
    exact hx s hs
  | error e =>
    cases e with
    | user error =>
      rw [attempt_of_user hValue]
      simp
    | fault fault =>
      rw [attempt_of_fault hValue]
      exact hx s hs

/-- If no mistake is on record afterwards, there was none before. -/
theorem Remembers.errors_eq_nil {x : Lower ε α} (hx : Remembers x) {s s' : State}
    {lines : List Line} {a : α} (h : Gives x s lines s' a) (hErrors : s'.errors = []) :
    s.errors = [] := by
  refine Classical.byContradiction fun hs => hx s hs ?_
  rw [h]
  exact hErrors

end Lower

/-! ### Code -/

structure Env where
  look : String → Option Symbol
  slots : List Slot

namespace Env

def typeOf (env : Env) (name : String) : ValueType :=
  match env.look name with
  | some (.var info) => info.type
  | _ => .integer

end Env

inductive AddressCode (slots : List Slot) (name note : String) :
    Bool → UInt8 → List Line → UInt8 → Prop
  | global (last : UInt8) :
    AddressCode slots name note true last [noted (.index (.global name)) note] last
  | slot (last offset : UInt8) (h : Slot.offset? name slots = some offset) :
    AddressCode slots name note false last
      ([noted (.index .stackZone) note]
        ++ (if offset - last = 0 then [] else [plain (.addByte .base (offset - last))])
        ++ [plain (.addIndex .base)])
      offset

def unaryCode (op : UnaryOp) (wide : Bool) : List Line :=
  match op with
  | .neg => negate wide
  | .pos => []

/-- `ExprCode env mode wide e last lines last'`: the lines evaluate `e` into the accumulator, and
take the displacement of the base from `last` to `last'`. -/
inductive ExprCode (env : Env) :
    Mode → Bool → Expr → UInt8 → List Line → UInt8 → Prop
  | ref {mode wide name info last lines last'} (hInfo : env.look name.name = some (.var info))
    (hAddress : AddressCode env.slots name.name (mode.mnemonic ++ " " ++ name.name)
      info.isGlobal last lines last') :
    ExprCode env mode wide (.ref name) last (lines ++ readVar mode wide info.type.isWide) last'
  | int {mode wide text span last n} (hRead : Numeral.read 10 0xFFFF text.toList = .ok n) :
    ExprCode env mode wide (.int text span) last (literal mode wide (UInt16.ofNat n)) last
  | unary {mode wide op operand span last lines last'}
    (hOperand : ExprCode env .load wide operand last lines last') :
    ExprCode env mode wide (.unary op operand span) last (lines ++ unaryCode op wide) last'
  | fused {mode wide op opMode left right span last first last₁ second last₂}
    (hOp : Mode.ofOp? op = some opMode) (hLeaf : right.isLeaf = true)
    (hLeft : ExprCode env .load wide left last first last₁)
    (hRight : ExprCode env opMode wide right last₁ second last₂) :
    ExprCode env mode wide (.binary op left right span) last (first ++ second) last₂
  | spilled {mode wide op opMode left right span last first last₁ second last₂}
    (hOp : Mode.ofOp? op = some opMode) (hLeaf : right.isLeaf = false)
    (hLeft : ExprCode env .load wide left last first last₁)
    (hRight : ExprCode env .load wide right last₁ second last₂) :
    ExprCode env mode wide (.binary op left right span) last
      (first ++ (spill wide ++ (second ++ reload opMode wide))) last₂

inductive ArgsCode (env : Env) : List (Expr × ValueType) → UInt8 → List Line → UInt8 → Prop
  | nil (last : UInt8) : ArgsCode env [] last [] last
  | cons {arg type rest last first last₁ second last₂}
    (hArg : ExprCode env .load type.isWide arg last first last₁)
    (hRest : ArgsCode env rest last₁ second last₂) :
    ArgsCode env ((arg, type) :: rest) last
      (first ++ (([plain (.index .stackZone), plain (.addIndex .stack)] ++ storeAccumulator type
        ++ [plain (.addByte .stack type.size)]) ++ second)) last₂

def settleCode (last : UInt8) : List Line :=
  if last = 0 then [] else [noted (.addByte .base (-last)) "settle frame base"]

def intrinsicCode : Intrinsic → List Line
  | .cls => [plain .cls]
  | .breakpoint => [plain .breakpoint]
  | .makeBcd => []
  | .printBcd => printBcd .bcdLow
  | .printBcdHigh => printBcd .bcdHigh

def bcdCode : List Line :=
  [noted (.index .bcdLow) "make_bcd", plain (.decimal .accLow), plain (.index .bcdHigh),
    plain (.decimal .accHigh)]

def testCode (wide : Bool) (whenZero : Label) : List Line :=
  (if wide then [noted (.or .accLow .accHigh) "merge condition halves"] else [])
    ++ [noted (.skipNe .accLow 0) "if", plain (.jump whenZero)]

inductive CondCode (env : Env) (cond : Expr) (whenZero : Label) (last : UInt8) :
    List Line → Prop
  | mk {lines last'}
    (hCond : ExprCode env .load (cond.isLong env.typeOf) cond last lines last') :
    CondCode env cond whenZero last
      (lines ++ (settleCode last' ++ testCode (cond.isLong env.typeOf) whenZero))

inductive CallCode (env : Env) (name : Ident) (last : UInt8) :
    List Expr → List Line → UInt8 → Prop
  | bcd {arg lines last'} (hName : Intrinsic.ofName? name.name = some .makeBcd)
    (hArg : ExprCode env .load true arg last lines last') :
    CallCode env name last [arg] (lines ++ (bcdCode ++ [blank])) last'
  | intrinsic {intrinsic} (hName : Intrinsic.ofName? name.name = some intrinsic)
    (hOther : intrinsic ≠ .makeBcd) :
    CallCode env name last [] (intrinsicCode intrinsic ++ [blank]) last
  | user {params args lines last'} (hName : Intrinsic.ofName? name.name = none)
    (hProc : env.look name.name = some (.proc params)) (hCount : args.length = params.length)
    (hArgs : ArgsCode env (args.zip params) last lines last') :
    CallCode env name last args
      ([noted (.addByte .stack 1) ("call " ++ name.name)] ++ (lines ++
        [plain (.addByte .stack (-stagedBytes params)), plain (.call (.procedure name.name)),
          blank])) last'

mutual

/-- `StmtCode env stmt last n lines last' n'`: the lines carry `stmt` out; they take the
displacement of the base from `last` to `last'`, and number their branches from `n` up to
`n'`. -/
inductive StmtCode (env : Env) : Stmt → UInt8 → Nat → List Line → UInt8 → Nat → Prop
  | block {stmts span last n lines last' n'} (h : StmtsCode env stmts last n lines last' n') :
    StmtCode env (.block stmts span) last n lines last' n'
  | assign {target value info last n first last₁ second last₂}
    (hInfo : env.look target.name = some (.var info))
    (hValue : ExprCode env .load info.type.isWide value last first last₁)
    (hAddress : AddressCode env.slots target.name ("assign " ++ target.name) info.isGlobal
      last₁ second last₂) :
    StmtCode env (.assign target value) last n
      (first ++ (second ++ (storeAccumulator info.type ++ [blank]))) last₂ n
  | call {name args last n lines last'} (h : CallCode env name last args lines last') :
    StmtCode env (.call name args) last n lines last' n
  | ifThen {cond yes span last n test body last' n'}
    (hCond : CondCode env cond (.elseBranch n) last test)
    (hYes : StmtCode env yes 0 (n + 1) body last' n') :
    StmtCode env (.ifThen cond yes span) last n
      (test ++ (body ++ (settleCode last' ++ [.label (.elseBranch n)]))) 0 n'
  | ifElse {cond yes no span last n test first last₁ n₁ second last₂ n₂}
    (hCond : CondCode env cond (.elseBranch n) last test)
    (hYes : StmtCode env yes 0 (n + 1) first last₁ n₁)
    (hNo : StmtCode env no 0 n₁ second last₂ n₂) :
    StmtCode env (.ifElse cond yes no span) last n
      (test ++ (first ++ (settleCode last₁ ++ ([plain (.jump (.endBranch n)),
        .label (.elseBranch n)] ++ (second ++ (settleCode last₂ ++
          [.label (.endBranch n)])))))) 0 n₂

inductive StmtsCode (env : Env) : List Stmt → UInt8 → Nat → List Line → UInt8 → Nat → Prop
  | nil (last : UInt8) (n : Nat) : StmtsCode env [] last n [] last n
  | cons {stmt stmts last n first last₁ n₁ second last₂ n₂}
    (hStmt : StmtCode env stmt last n first last₁ n₁)
    (hStmts : StmtsCode env stmts last₁ n₁ second last₂ n₂) :
    StmtsCode env (stmt :: stmts) last n (first ++ second) last₂ n₂

end

namespace Lowering

open Lower

/-! ### No mistake is forgotten -/

theorem remembers_variableInfo (name : Ident) : Remembers (variableInfo name) := by
  refine remembers_state.bind fun s => ?_
  split
  · exact remembers_pure _
  · exact remembers_stop _

theorem remembers_pointAt (name : String) (isGlobal : Bool) (note : String) :
    Remembers (pointAt name isGlobal note) := by
  unfold pointAt
  split
  · exact remembers_emit _
  · refine remembers_state.bind fun s => ?_
    split
    · exact remembers_stop _
    · refine Remembers.bind (remembers_update ?_) fun _ => remembers_emit _
      intro _
      rfl

theorem remembers_address (name : String) (info : VarInfo) (note : String) :
    Remembers (address name info note) := by
  unfold address
  cases info.storage with
  | register r => exact remembers_stop _
  | stack | fixed => exact remembers_pointAt name _ note

theorem remembers_settle {ε : Type} : Remembers (settle : Lower ε Unit) :=
  remembers_state.bind fun _ => (remembers_emit _).bind fun _ => remembers_update fun _ => rfl

theorem remembers_lowerExpr (mode : Mode) (wide : Bool) (e : Expr) :
    Remembers (lowerExpr mode wide e) := by
  induction e generalizing mode with
  | ref name =>
    exact (remembers_variableInfo name).lift.bind fun _ =>
      (remembers_address _ _ _).lift.bind fun _ => remembers_emit _
  | int text span =>
    simp only [lowerExpr]
    split
    · exact remembers_emit _
    · exact remembers_stop _
  | unary op operand span ih => exact (ih .load).bind fun _ => remembers_emit _
  | binary op left right span ihl ihr =>
    simp only [lowerExpr]
    split
    · exact remembers_stop _
    · refine (ihl .load).bind fun _ => ?_
      split
      · exact ihr _
      · exact (remembers_emit _).bind fun _ => (ihr .load).bind fun _ => remembers_emit _

theorem remembers_lowerArgs (args : List (Expr × ValueType)) : Remembers (lowerArgs args) := by
  induction args with
  | nil => exact remembers_pure _
  | cons arg args ih =>
    exact (remembers_lowerExpr _ _ _).bind fun _ => (remembers_emit _).bind fun _ => ih

theorem remembers_lowerCall (name : Ident) (args : List Expr) :
    Remembers (lowerCall name args) := by
  refine remembers_state.bind fun s => ?_
  split
  · exact remembers_stop _
  · split
    · exact remembers_stop _
    · split
      · next intrinsic _ =>
        unfold lowerIntrinsic
        split
        · exact (remembers_emit _).bind fun _ => remembers_emit _
        · exact (remembers_emit _).bind fun _ => remembers_emit _
        · exact (remembers_lowerExpr _ _ _).bind fun _ =>
            (remembers_emit _).bind fun _ => remembers_emit _
        · exact (remembers_stop _).bind fun _ => remembers_emit _
        · exact (remembers_emit _).bind fun _ => remembers_emit _
        · exact (remembers_emit _).bind fun _ => remembers_emit _
      · exact (remembers_emit _).bind fun _ => (remembers_lowerArgs _).bind fun _ =>
          remembers_emit _
  · exact remembers_stop _

theorem remembers_newBranch {ε : Type} : Remembers (newBranch : Lower ε Nat) := by
  refine remembers_state.bind fun _ => Remembers.bind (remembers_update ?_) fun _ =>
    remembers_pure _
  intro _
  rfl

theorem remembers_lowerCond (cond : Expr) (whenZero : Label) :
    Remembers (lowerCond cond whenZero) := by
  refine remembers_state.bind fun s => ?_
  split
  · exact remembers_stop _
  · exact (remembers_lowerExpr _ _ _).bind fun _ => remembers_settle.bind fun _ => remembers_emit _

mutual

theorem remembers_lowerStmt (stmt : Stmt) : Remembers (lowerStmt stmt) := by
  cases stmt with
  | block stmts span => exact remembers_lowerStmts stmts
  | assign target value =>
    refine Remembers.attempt ((remembers_variableInfo target).lift.bind fun _ => ?_)
    exact (remembers_lowerExpr _ _ _).bind fun _ => (remembers_address _ _ _).lift.bind fun _ =>
      remembers_emit _
  | call name args => exact (remembers_lowerCall name args).attempt
  | ifThen cond yes span =>
    refine Remembers.attempt (remembers_newBranch.bind fun n => ?_)
    exact (remembers_lowerCond _ _).bind fun _ => (remembers_lowerStmt yes).lift.bind fun _ =>
      remembers_settle.bind fun _ => remembers_emit _
  | ifElse cond yes no span =>
    refine Remembers.attempt (remembers_newBranch.bind fun n => ?_)
    exact (remembers_lowerCond _ _).bind fun _ => (remembers_lowerStmt yes).lift.bind fun _ =>
      remembers_settle.bind fun _ => (remembers_emit _).bind fun _ =>
        (remembers_lowerStmt no).lift.bind fun _ => remembers_settle.bind fun _ =>
          remembers_emit _

theorem remembers_lowerStmts (stmts : List Stmt) : Remembers (lowerStmts stmts) := by
  cases stmts with
  | nil => exact remembers_pure _
  | cons stmt stmts =>
    exact (remembers_lowerStmt stmt).bind fun _ => remembers_lowerStmts stmts

end

/-! ### From lowering to code -/

variable {env : Env} {s s' : State} {last : UInt8} {lines : List Line}

/-- Lowering stands in a body: its names stand for what `env` says, and its frame is the one in
force. -/
structure Stands (env : Env) (last : UInt8) (s : State) : Prop where
  look : ∀ {name symbol}, s.symbols.get? name = some symbol → env.look name = some symbol
  shows : s.frames.Shows env.slots last

def Moved (env : Env) (s s' : State) (last : UInt8) (n : Nat) : Prop :=
  ∃ frames, frames.active = s.frames.active ∧ frames.Shows env.slots last ∧
    s' = { s with frames := frames, branches := n }

theorem Stands.moved_self (h : Stands env last s) : Moved env s s last s.branches :=
  ⟨s.frames, rfl, h.shows, rfl⟩

theorem Stands.move (h : Stands env last s) {last' : UInt8} {n : Nat}
    (hMoved : Moved env s s' last' n) : Stands env last' s' := by
  obtain ⟨frames, -, hShows, rfl⟩ := hMoved
  exact ⟨h.look, hShows⟩

theorem Moved.trans {s'' : State} {last' : UInt8} {n n' : Nat} (h : Moved env s s' last n)
    (h' : Moved env s' s'' last' n') : Moved env s s'' last' n' := by
  obtain ⟨frames, hActive, -, rfl⟩ := h
  obtain ⟨frames', hActive', hShows', rfl⟩ := h'
  exact ⟨frames', hActive'.trans hActive, hShows', rfl⟩

theorem Moved.branches {n : Nat} (h : Moved env s s' last n) : s'.branches = n := by
  obtain ⟨frames, -, -, rfl⟩ := h
  rfl

theorem varInfo_ok {symbols : Symbols} {name : Ident} {info : VarInfo}
    (h : varInfo symbols name = .ok info) : symbols.get? name.name = some (.var info) := by
  unfold varInfo at h
  split at h
  · next hGet =>
    cases h
    exact hGet
  · cases h
  · cases h

theorem gives_variableInfo {name : Ident} {info : VarInfo}
    (h : Gives (variableInfo name) s lines s' info) :
    lines = [] ∧ s' = s ∧ s.symbols.get? name.name = some (.var info) := by
  rw [variableInfo, gives_state_bind] at h
  split at h
  · next hVar =>
    obtain ⟨rfl, rfl, rfl⟩ := gives_pure.mp h
    exact ⟨rfl, rfl, varInfo_ok hVar⟩
  · exact absurd h not_gives_stop

/-- Pointing the index register at a variable shifts the base by what is missing to its offset. -/
theorem code_pointAt {name note : String} {isGlobal : Bool} {u : Unit} (hs : Stands env last s)
    (h : Gives (pointAt name isGlobal note) s lines s' u) :
    ∃ last', AddressCode env.slots name note isGlobal last lines last' ∧
      Moved env s s' last' s.branches := by
  unfold pointAt at h
  cases isGlobal with
  | true =>
    simp only [if_true] at h
    obtain ⟨rfl, rfl⟩ := gives_emit.mp h
    exact ⟨last, .global last, hs.moved_self⟩
  | false =>
    simp only [Bool.false_eq_true, if_false] at h
    rw [gives_state_bind, hs.shows.offsetFromLast?] at h
    cases hOffset : Slot.offset? name env.slots with
    | none =>
      simp only [hOffset, Option.map_none] at h
      exact absurd h not_gives_stop
    | some offset =>
      simp only [hOffset, Option.map_some] at h
      rw [gives_update_bind, gives_emit] at h
      obtain ⟨rfl, rfl⟩ := h
      exact ⟨offset, .slot last offset hOffset, s.frames.setLast s.frames.active offset, rfl,
        hs.shows.setLast hOffset, rfl⟩

theorem code_address {name note : String} {info : VarInfo} {u : Unit} (hs : Stands env last s)
    (h : Gives (address name info note) s lines s' u) :
    ∃ last', AddressCode env.slots name note info.isGlobal last lines last' ∧
      Moved env s s' last' s.branches := by
  unfold address at h
  cases hStorage : info.storage with
  | register r =>
    rw [hStorage] at h
    exact absurd h not_gives_stop
  | stack | fixed =>
    rw [hStorage] at h
    exact code_pointAt hs h

theorem code_settle {ε : Type} {u : Unit} (hs : Stands env last s)
    (h : Gives (settle : Lower ε Unit) s lines s' u) :
    lines = settleCode last ∧ Moved env s s' 0 s.branches := by
  rw [settle, gives_state_bind, gives_emit_bind] at h
  obtain ⟨rest, hUpdate, rfl⟩ := h
  obtain ⟨rfl, rfl⟩ := gives_update.mp hUpdate
  refine ⟨?_, _, Frames.active_settle _, hs.shows.settle, rfl⟩
  simp [hs.shows.last_eq, settleCode]

theorem literalValue_ok {text : String} {span : Span} {value : UInt16}
    (h : literalValue text span = .ok value) :
    ∃ n, Numeral.read 10 0xFFFF text.toList = .ok n ∧ value = UInt16.ofNat n := by
  unfold literalValue at h
  split at h
  · next n hn =>
    cases h
    exact ⟨n, hn, rfl⟩
  · cases h

/-- What lowering writes for an expression is its code. Nothing of the state but the displacement
changes. -/
theorem code_lowerExpr {mode : Mode} {wide : Bool} {e : Expr} {u : Unit}
    (hs : Stands env last s) (h : Gives (lowerExpr mode wide e) s lines s' u) :
    ∃ last', ExprCode env mode wide e last lines last' ∧ Moved env s s' last' s.branches := by
  induction e generalizing mode s s' last lines u with
  | ref name =>
    simp only [lowerExpr] at h
    obtain ⟨info, _, _, _, hInfo, hRead, rfl⟩ := gives_bind.mp h
    obtain ⟨rfl, rfl, hGet⟩ := gives_variableInfo (gives_lift.mp hInfo)
    obtain ⟨_, _, s₁, _, hAddress, hEmit, rfl⟩ := gives_bind.mp hRead
    obtain ⟨last', hCode, hMoved⟩ := code_address hs (gives_lift.mp hAddress)
    obtain ⟨rfl, rfl⟩ := gives_emit.mp hEmit
    exact ⟨last', .ref (hs.look hGet) hCode, hMoved⟩
  | int text span =>
    simp only [lowerExpr] at h
    split at h
    · next value hValue =>
      obtain ⟨n, hRead, rfl⟩ := literalValue_ok hValue
      obtain ⟨rfl, rfl⟩ := gives_emit.mp h
      exact ⟨last, .int hRead, hs.moved_self⟩
    · exact absurd h not_gives_stop
  | unary op operand span ih =>
    simp only [lowerExpr] at h
    obtain ⟨_, first, s₁, rest, hOperand, hEmit, rfl⟩ := gives_bind.mp h
    obtain ⟨last', hCode, hMoved⟩ := ih hs hOperand
    obtain ⟨rfl, rfl⟩ := gives_emit.mp hEmit
    exact ⟨last', .unary hCode, hMoved⟩
  | binary op left right span ihl ihr =>
    simp only [lowerExpr] at h
    split at h
    · exact absurd h not_gives_stop
    · next opMode hOp =>
      obtain ⟨_, first, s₁, rest, hLeft, hOther, rfl⟩ := gives_bind.mp h
      obtain ⟨last₁, hCode₁, hMoved₁⟩ := ihl hs hLeft
      have hs₁ := hs.move hMoved₁
      split at hOther
      · next hLeaf =>
        obtain ⟨last₂, hCode₂, hMoved₂⟩ := ihr hs₁ hOther
        rw [hMoved₁.branches] at hMoved₂
        exact ⟨last₂, .fused hOp hLeaf hCode₁ hCode₂, hMoved₁.trans hMoved₂⟩
      · next hLeaf =>
        obtain ⟨_, hSpilled, rfl⟩ := gives_emit_bind.mp hOther
        obtain ⟨_, _, s₂, _, hRight, hReload, rfl⟩ := gives_bind.mp hSpilled
        obtain ⟨last₂, hCode₂, hMoved₂⟩ := ihr hs₁ hRight
        obtain ⟨rfl, rfl⟩ := gives_emit.mp hReload
        rw [hMoved₁.branches] at hMoved₂
        exact ⟨last₂, .spilled hOp (Bool.not_eq_true _ ▸ hLeaf) hCode₁ hCode₂,
          hMoved₁.trans hMoved₂⟩

theorem code_lowerAssign {target : Ident} {value : Expr} {u : Unit} (hs : Stands env last s)
    (h : Gives (lowerAssign target value) s lines s' u) :
    ∃ last', StmtCode env (.assign target value) last s.branches lines last' s.branches ∧
      Moved env s s' last' s.branches := by
  rw [lowerAssign] at h
  obtain ⟨info, _, _, _, hInfo, hRest, rfl⟩ := gives_bind.mp h
  obtain ⟨rfl, rfl, hGet⟩ := gives_variableInfo (gives_lift.mp hInfo)
  obtain ⟨_, _, s₁, _, hValue, hStore, rfl⟩ := gives_bind.mp hRest
  obtain ⟨last₁, hCode₁, hMoved₁⟩ := code_lowerExpr hs hValue
  obtain ⟨_, _, s₂, _, hAddress, hEmit, rfl⟩ := gives_bind.mp hStore
  obtain ⟨last₂, hCode₂, hMoved₂⟩ := code_address (hs.move hMoved₁) (gives_lift.mp hAddress)
  obtain ⟨rfl, rfl⟩ := gives_emit.mp hEmit
  rw [hMoved₁.branches] at hMoved₂
  exact ⟨last₂, .assign (hs.look hGet) hCode₁ hCode₂, hMoved₁.trans hMoved₂⟩

theorem code_lowerArgs {args : List (Expr × ValueType)} {u : Unit} (hs : Stands env last s)
    (h : Gives (lowerArgs args) s lines s' u) :
    ∃ last', ArgsCode env args last lines last' ∧ Moved env s s' last' s.branches := by
  induction args generalizing s last lines with
  | nil =>
    obtain ⟨rfl, rfl, -⟩ := gives_pure.mp h
    exact ⟨last, .nil last, hs.moved_self⟩
  | cons arg args ih =>
    obtain ⟨arg, type⟩ := arg
    rw [lowerArgs] at h
    obtain ⟨_, _, s₁, _, hArg, hRest, rfl⟩ := gives_bind.mp h
    obtain ⟨last₁, hCode₁, hMoved₁⟩ := code_lowerExpr hs hArg
    obtain ⟨_, hArgs, rfl⟩ := gives_emit_bind.mp hRest
    obtain ⟨last₂, hCode₂, hMoved₂⟩ := ih (hs.move hMoved₁) hArgs
    rw [hMoved₁.branches] at hMoved₂
    exact ⟨last₂, .cons hCode₁ hCode₂, hMoved₁.trans hMoved₂⟩

/-- A call leaves a byte for the base, writes its arguments above it and lowers the top again. -/
theorem code_lowerUserCall {name : Ident} {params : List ValueType} {args : List Expr} {u : Unit}
    (hs : Stands env last s) (hName : Intrinsic.ofName? name.name = none)
    (hProc : env.look name.name = some (.proc params)) (hCount : args.length = params.length)
    (h : Gives (lowerUserCall name.name params args) s lines s' u) :
    ∃ last', CallCode env name last args lines last' ∧ Moved env s s' last' s.branches := by
  rw [lowerUserCall, gives_emit_bind] at h
  obtain ⟨_, hCall, rfl⟩ := h
  obtain ⟨_, _, s₁, _, hArgs, hEmit, rfl⟩ := gives_bind.mp hCall
  obtain ⟨last', hCode, hMoved⟩ := code_lowerArgs hs hArgs
  obtain ⟨rfl, rfl⟩ := gives_emit.mp hEmit
  exact ⟨last', .user hName hProc hCount hCode, hMoved⟩

theorem code_lowerIntrinsic {name : Ident} {intrinsic : Intrinsic} {args : List Expr} {u : Unit}
    (hs : Stands env last s) (hName : Intrinsic.ofName? name.name = some intrinsic)
    (hCount : args.length = intrinsic.params.length)
    (h : Gives (lowerIntrinsic intrinsic args) s lines s' u) :
    ∃ last', CallCode env name last args lines last' ∧ Moved env s s' last' s.branches := by
  -- all but one intrinsic take no argument and are a fixed list of lines
  have hFixed : ∀ {lines}, intrinsic ≠ .makeBcd → args = [] →
      lines = intrinsicCode intrinsic ++ [blank] → s' = s →
      ∃ last', CallCode env name last args lines last' ∧ Moved env s s' last' s.branches := by
    rintro lines hOther rfl rfl rfl
    exact ⟨last, .intrinsic hName hOther, hs.moved_self⟩
  cases intrinsic with
  | makeBcd =>
    obtain ⟨arg, rfl⟩ := List.length_eq_one_iff.mp hCount
    simp only [lowerIntrinsic] at h
    obtain ⟨_, _, s₁, _, hArg, hRest, rfl⟩ := gives_bind.mp h
    obtain ⟨last', hCode, hMoved⟩ := code_lowerExpr hs hArg
    obtain ⟨_, hBlank, rfl⟩ := gives_emit_bind.mp hRest
    obtain ⟨rfl, rfl⟩ := gives_emit.mp hBlank
    exact ⟨last', .bcd hName hCode, hMoved⟩
  | _ =>
    simp only [lowerIntrinsic] at h
    obtain ⟨_, hBlank, rfl⟩ := gives_emit_bind.mp h
    obtain ⟨rfl, rfl⟩ := gives_emit.mp hBlank
    exact hFixed (by simp) (List.length_eq_zero_iff.mp hCount) rfl rfl

/-- Intrinsics have the parameters they had from the start. -/
def Env.IntrinsicsKept (env : Env) : Prop :=
  ∀ name params intrinsic, env.look name = some (.proc params) →
    Intrinsic.ofName? name = some intrinsic → params = intrinsic.params

/-- Built-in procedures keep their names wherever the call stands, so a call is to one of them or to
a procedure of the program. -/
theorem code_lowerCall (hEnv : Env.IntrinsicsKept env) {name : Ident} {args : List Expr} {u : Unit}
    (hs : Stands env last s) (h : Gives (lowerCall name args) s lines s' u) :
    ∃ last', CallCode env name last args lines last' ∧ Moved env s s' last' s.branches := by
  rw [lowerCall, gives_state_bind] at h
  split at h
  · exact absurd h not_gives_stop
  · next params hGet =>
    have hProc := hs.look hGet
    split at h
    · exact absurd h not_gives_stop
    · next hCount =>
      have hLength : args.length = params.length := by omega
      split at h
      · next intrinsic hName =>
        rw [hEnv _ _ _ hProc hName] at hLength
        exact code_lowerIntrinsic hs hName hLength h
      · next hName => exact code_lowerUserCall hs hName hProc hLength h
  · exact absurd h not_gives_stop

theorem literal_isLong {text : String} {n : Nat} (h : Numeral.read 10 0xFFFF text.toList = .ok n) :
    decide ((0xFF : UInt16) < UInt16.ofNat n) =
      decide (255 < Nat.ofDigitChars 10 text.toList 0) := by
  obtain ⟨hValue, hLe⟩ := Numeral.read_eq h
  have hNat : (UInt16.ofNat n).toNat = n := by
    rw [UInt16.toNat_ofNat', Nat.mod_eq_of_lt (by omega)]
  have hIff : (0xFF : UInt16) < UInt16.ofNat n ↔ 255 < n := by
    rw [UInt16.lt_iff_toNat_lt, hNat]
    rfl
  rw [← hValue, decide_eq_decide]
  exact hIff

/-- A condition is compared in two bytes if a long variable or a literal above 255 occurs in it. -/
theorem isWide_ok {symbols : Symbols}
    (hLook : ∀ {name symbol}, symbols.get? name = some symbol → env.look name = some symbol)
    {e : Expr} {wide : Bool} (h : isWide symbols e = .ok wide) : wide = e.isLong env.typeOf := by
  induction e generalizing wide with
  | ref name =>
    simp only [isWide] at h
    split at h
    · next info hInfo =>
      cases h
      simp [Expr.isLong, Env.typeOf, hLook (varInfo_ok hInfo)]
    · cases h
  | int text span =>
    simp only [isWide] at h
    split at h
    · next value hValue =>
      cases h
      obtain ⟨n, hRead, rfl⟩ := literalValue_ok hValue
      exact literal_isLong hRead
    · cases h
  | unary op operand span ih => exact ih h
  | binary op left right span ihl ihr =>
    simp only [isWide] at h
    split at h
    · next hLeft => simpa [Expr.isLong, ← ihl hLeft] using ihr h
    · next hLeft =>
      cases wide with
      | true => simp [Expr.isLong, ← ihl h]
      | false => exact absurd h hLeft

/-- A condition ends with nothing displaced, so that both branches start alike. -/
theorem code_lowerCond {cond : Expr} {whenZero : Label} {u : Unit} (hs : Stands env last s)
    (h : Gives (lowerCond cond whenZero) s lines s' u) :
    CondCode env cond whenZero last lines ∧ Moved env s s' 0 s.branches := by
  rw [lowerCond, gives_state_bind] at h
  split at h
  · exact absurd h not_gives_stop
  · next wide hWide =>
    obtain rfl := isWide_ok hs.look hWide
    obtain ⟨_, _, s₁, _, hCond, hRest, rfl⟩ := gives_bind.mp h
    obtain ⟨last₁, hCode₁, hMoved₁⟩ := code_lowerExpr hs hCond
    obtain ⟨_, _, s₂, _, hSettle, hEmit, rfl⟩ := gives_bind.mp hRest
    obtain ⟨rfl, hMoved₂⟩ := code_settle (hs.move hMoved₁) hSettle
    obtain ⟨rfl, rfl⟩ := gives_emit.mp hEmit
    rw [hMoved₁.branches] at hMoved₂
    exact ⟨.mk hCode₁, hMoved₁.trans hMoved₂⟩

theorem gives_newBranch {ε : Type} {n : Nat} (h : Gives (newBranch : Lower ε Nat) s lines s' n) :
    lines = [] ∧ n = s.branches ∧ s' = { s with branches := s.branches + 1 } := by
  rw [newBranch, gives_state_bind, gives_update_bind, gives_pure] at h
  exact ⟨h.1, h.2.2, h.2.1⟩

theorem Stands.moved_newBranch (hs : Stands env last s) :
    Moved env s { s with branches := s.branches + 1 } last (s.branches + 1) :=
  ⟨s.frames, rfl, hs.shows, rfl⟩

mutual

/-- A statement that brought up no mistake has been lowered to its code. -/
theorem code_lowerStmt (hEnv : Env.IntrinsicsKept env) (stmt : Stmt) {s s' : State} {last : UInt8}
    {lines : List Line} {u : Unit} (hs : Stands env last s)
    (h : Gives (lowerStmt stmt) s lines s' u) (hErrors : s'.errors = []) :
    ∃ last' n', StmtCode env stmt last s.branches lines last' n' ∧ Moved env s s' last' n' := by
  cases stmt with
  | block stmts span =>
    obtain ⟨last', n', hCode, hMoved⟩ := code_lowerStmts hEnv stmts hs h hErrors
    exact ⟨last', n', .block hCode, hMoved⟩
  | assign target value =>
    obtain ⟨last', hCode, hMoved⟩ := code_lowerAssign hs (h.of_attempt hErrors)
    exact ⟨last', _, hCode, hMoved⟩
  | call name args =>
    obtain ⟨last', hCode, hMoved⟩ := code_lowerCall hEnv hs (h.of_attempt hErrors)
    exact ⟨last', _, .call hCode, hMoved⟩
  | ifThen cond yes span =>
    have hGives := h.of_attempt hErrors
    obtain ⟨n, _, s₁, _, hBranch, hTest, rfl⟩ := gives_bind.mp hGives
    obtain ⟨rfl, rfl, rfl⟩ := gives_newBranch hBranch
    have hMoved₁ := hs.moved_newBranch
    obtain ⟨_, _, s₂, _, hCond, hBody, rfl⟩ := gives_bind.mp hTest
    obtain ⟨hCode₂, hMoved₂⟩ := code_lowerCond (hs.move hMoved₁) hCond
    have hs₂ := (hs.move hMoved₁).move hMoved₂
    obtain ⟨_, _, s₃, _, hYes, hRest, rfl⟩ := gives_bind.mp hBody
    obtain ⟨_, _, s₄, _, hSettle, hEmit, rfl⟩ := gives_bind.mp hRest
    obtain ⟨rfl, rfl⟩ := gives_emit.mp hEmit
    have hErrors₃ := remembers_settle.errors_eq_nil hSettle hErrors
    obtain ⟨last₃, n₃, hCode₃, hMoved₃⟩ :=
      code_lowerStmt hEnv yes hs₂ (gives_lift.mp hYes) hErrors₃
    obtain ⟨rfl, hMoved₄⟩ := code_settle (hs₂.move hMoved₃) hSettle
    rw [hMoved₂.branches] at hCode₃
    rw [hMoved₃.branches] at hMoved₄
    exact ⟨0, n₃, .ifThen hCode₂ hCode₃,
      ((hMoved₁.trans hMoved₂).trans hMoved₃).trans hMoved₄⟩
  | ifElse cond yes no span =>
    have hGives := h.of_attempt hErrors
    obtain ⟨n, _, s₁, _, hBranch, hTest, rfl⟩ := gives_bind.mp hGives
    obtain ⟨rfl, rfl, rfl⟩ := gives_newBranch hBranch
    have hMoved₁ := hs.moved_newBranch
    obtain ⟨_, _, s₂, _, hCond, hBody, rfl⟩ := gives_bind.mp hTest
    obtain ⟨hCode₂, hMoved₂⟩ := code_lowerCond (hs.move hMoved₁) hCond
    have hs₂ := (hs.move hMoved₁).move hMoved₂
    obtain ⟨_, _, s₃, _, hYes, hRest, rfl⟩ := gives_bind.mp hBody
    obtain ⟨_, _, s₄, _, hSettle, hElse, rfl⟩ := gives_bind.mp hRest
    obtain ⟨_, hElse', rfl⟩ := gives_emit_bind.mp hElse
    obtain ⟨_, _, s₅, _, hNo, hEnd, rfl⟩ := gives_bind.mp hElse'
    obtain ⟨_, _, s₆, _, hSettle', hEmit, rfl⟩ := gives_bind.mp hEnd
    obtain ⟨rfl, rfl⟩ := gives_emit.mp hEmit
    have hErrors₅ := remembers_settle.errors_eq_nil hSettle' hErrors
    have hErrors₄ := (remembers_lowerStmt no).lift.errors_eq_nil hNo hErrors₅
    have hErrors₃ := remembers_settle.errors_eq_nil hSettle hErrors₄
    obtain ⟨last₃, n₃, hCode₃, hMoved₃⟩ :=
      code_lowerStmt hEnv yes hs₂ (gives_lift.mp hYes) hErrors₃
    have hs₃ := hs₂.move hMoved₃
    obtain ⟨rfl, hMoved₄⟩ := code_settle hs₃ hSettle
    have hs₄ := hs₃.move hMoved₄
    obtain ⟨last₅, n₅, hCode₅, hMoved₅⟩ :=
      code_lowerStmt hEnv no hs₄ (gives_lift.mp hNo) hErrors₅
    obtain ⟨rfl, hMoved₆⟩ := code_settle (hs₄.move hMoved₅) hSettle'
    rw [hMoved₂.branches] at hCode₃
    rw [hMoved₃.branches] at hMoved₄
    rw [hMoved₄.branches] at hCode₅
    rw [hMoved₅.branches] at hMoved₆
    exact ⟨0, n₅, .ifElse hCode₂ hCode₃ hCode₅,
      ((((hMoved₁.trans hMoved₂).trans hMoved₃).trans hMoved₄).trans hMoved₅).trans hMoved₆⟩

theorem code_lowerStmts (hEnv : Env.IntrinsicsKept env) (stmts : List Stmt) {s s' : State}
    {last : UInt8} {lines : List Line} {u : Unit} (hs : Stands env last s)
    (h : Gives (lowerStmts stmts) s lines s' u) (hErrors : s'.errors = []) :
    ∃ last' n', StmtsCode env stmts last s.branches lines last' n' ∧ Moved env s s' last' n' := by
  cases stmts with
  | nil =>
    obtain ⟨rfl, rfl, -⟩ := gives_pure.mp h
    exact ⟨last, s'.branches, .nil last _, hs.moved_self⟩
  | cons stmt stmts =>
    rw [lowerStmts] at h
    obtain ⟨_, _, s₁, _, hStmt, hStmts, rfl⟩ := gives_bind.mp h
    have hErrors₁ := (remembers_lowerStmts stmts).errors_eq_nil hStmts hErrors
    obtain ⟨last₁, n₁, hCode₁, hMoved₁⟩ := code_lowerStmt hEnv stmt hs hStmt hErrors₁
    obtain ⟨last₂, n₂, hCode₂, hMoved₂⟩ :=
      code_lowerStmts hEnv stmts (hs.move hMoved₁) hStmts hErrors
    rw [hMoved₁.branches] at hCode₂
    exact ⟨last₂, n₂, .cons hCode₁ hCode₂, hMoved₁.trans hMoved₂⟩

end

end Lowering

end ChipPascal
