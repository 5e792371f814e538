import ChipPascal.Proofs.StmtSimulation

/-!
# What lowering reports

The mistakes of a program that only lowering finds are read off its text: operators without an
instruction, literals that do not fit a word, calls with the wrong number of arguments and frames
that are too large. Each statement reports at most the first of its own, and one that has a mistake
keeps its branches from being looked at. Lowering reports just this list, in this order.
-/

namespace ChipPascal

/-! ### Mistakes in expressions -/

def numeralDigits (text : String) : List Char :=
  match text.toList with
  | '+' :: digits => digits
  | digits => digits

def fitsWord (text : String) : Bool :=
  !(numeralDigits text).isEmpty && (numeralDigits text).all Char.isDigit &&
    Nat.ofDigitChars 10 (numeralDigits text) 0 ≤ 0xFFFF

def BinaryOp.isSupported : BinaryOp → Bool
  | .add | .sub => true
  | .mul | .div => false

namespace Expr

/-- The mistakes in an expression, in the order of its evaluation; an operator comes before its
operands. -/
def mistakes : Expr → List Error
  | .ref _ => []
  | .int text span => if fitsWord text then [] else [.invalidLiteral text span]
  | .unary _ operand _ => operand.mistakes
  | .binary op left right span =>
    (if op.isSupported then [] else [.unimplementedOperator op.symbol span])
      ++ (left.mistakes ++ right.mistakes)

def leaves : Expr → List Expr
  | .ref name => [.ref name]
  | .int text span => [.int text span]
  | .unary _ operand _ => operand.leaves
  | .binary _ left right _ => left.leaves ++ right.leaves

def exceedsByte (typeOf : String → ValueType) : Expr → Bool
  | .ref name => (typeOf name.name).isWide
  | .int text _ => !fitsWord text || 255 < Nat.ofDigitChars 10 text.toList 0
  | .unary .. | .binary .. => false

/-- What comes up when the width of a condition is looked for: the search ends at the first leaf
that does not fit a byte. -/
def scanMistakes (typeOf : String → ValueType) (e : Expr) : List Error :=
  match e.leaves.find? (·.exceedsByte typeOf) with
  | some leaf => leaf.mistakes
  | none => []

/-- All operators have instructions, and all literals fit a word. -/
def Supported : Expr → Prop
  | .ref _ => True
  | .int text _ => fitsWord text = true
  | .unary _ operand _ => operand.Supported
  | .binary op left right _ => op.isSupported = true ∧ left.Supported ∧ right.Supported

end Expr

/-! ### Mistakes in statements -/

/-- The first of a statement's own mistakes, and only without one the errors `inner` of the
statements in it. -/
def firstOr : List Error → List Error → List Error
  | e :: _, _ => [e]
  | [], inner => inner

section

variable (typeOf : String → ValueType) (arity : String → Nat)

def callMistakes (name : Ident) (args : List Expr) : List Error :=
  (if args.length = arity name.name then []
    else [.wrongArgumentCount name.name (arity name.name) args.length name.span])
    ++ args.flatMap (·.mistakes)

mutual

/-- The errors that a statement gives rise to, where variables have the types `typeOf` and
procedures take `arity` arguments. -/
def Stmt.errors : Stmt → List Error
  | .block stmts _ => stmtsErrors stmts
  | .assign _ value => firstOr value.mistakes []
  | .call name args => firstOr (callMistakes arity name args) []
  | .ifThen cond yes _ => firstOr (cond.scanMistakes typeOf ++ cond.mistakes) yes.errors
  | .ifElse cond yes no _ =>
    firstOr (cond.scanMistakes typeOf ++ cond.mistakes) (yes.errors ++ no.errors)

def stmtsErrors : List Stmt → List Error
  | [] => []
  | stmt :: stmts => stmt.errors ++ stmtsErrors stmts

end

mutual

/-- Lowering can do all that the statement asks for. -/
def Stmt.Supported : Stmt → Prop
  | .block stmts _ => StmtsSupported stmts
  | .assign _ value => value.Supported
  | .call name args => args.length = arity name.name ∧ ∀ arg ∈ args, arg.Supported
  | .ifThen cond yes _ => cond.Supported ∧ yes.Supported
  | .ifElse cond yes no _ => cond.Supported ∧ yes.Supported ∧ no.Supported

def StmtsSupported : List Stmt → Prop
  | [] => True
  | stmt :: stmts => stmt.Supported ∧ StmtsSupported stmts

end

end

/-! ### Mistakes in programs -/

def Program.arity (program : Program) (name : String) : Nat :=
  match Intrinsic.ofName? name with
  | some intrinsic => intrinsic.params.length
  | none => ((program.procs.find? fun proc => proc.name.name = name).map (·.params.length)).getD 0

/-- The errors of a procedure. If its frame is too large, its body is not looked at. -/
def ProcDecl.errors (program : Program) (proc : ProcDecl) : List Error :=
  if Lowering.maxFrame < proc.frameSize then
    [.frameTooLarge proc.name.name proc.frameSize proc.name.span]
  else stmtsErrors (program.typeIn proc.vars) program.arity proc.body.stmts

/-- The errors of a program: those of its procedures in order, then those of its main body. -/
def Program.loweringErrors (program : Program) : List Error :=
  program.procs.flatMap (·.errors program) ++
    stmtsErrors (program.typeIn []) program.arity program.body.stmts

/-- Lowering can do all that the program asks for. -/
structure Program.Supported (program : Program) : Prop where
  frames : ∀ proc ∈ program.procs, proc.frameSize ≤ Lowering.maxFrame
  procs : ∀ proc ∈ program.procs, StmtsSupported program.arity proc.body.stmts
  body : StmtsSupported program.arity program.body.stmts

/-! ### Programs without a mistake -/

section

variable {typeOf : String → ValueType} {arity : String → Nat} {program : Program}

theorem firstOr_eq_nil_iff {mistakes inner : List Error} :
    firstOr mistakes inner = [] ↔ mistakes = [] ∧ inner = [] := by
  cases mistakes <;> simp [firstOr]

/-- An expression has no mistakes exactly if all of it is supported. -/
theorem Expr.mistakes_eq_nil_iff (e : Expr) : e.mistakes = [] ↔ e.Supported := by
  induction e with
  | ref name => simp [Expr.mistakes, Expr.Supported]
  | int text span => simp [Expr.mistakes, Expr.Supported]
  | unary op operand span ih => exact ih
  | binary op left right span ihLeft ihRight =>
    simp [Expr.mistakes, Expr.Supported, ihLeft, ihRight]

theorem Expr.mistakes_subset_of_mem_leaves {e leaf : Expr} (h : leaf ∈ e.leaves) :
    leaf.mistakes ⊆ e.mistakes := by
  induction e with
  | ref name =>
    rw [List.mem_singleton.mp h]
    exact List.Subset.refl _
  | int text span =>
    rw [List.mem_singleton.mp h]
    exact List.Subset.refl _
  | unary op operand span ih => exact ih h
  | binary op left right span ihLeft ihRight =>
    refine List.Subset.trans ?_ (List.subset_append_right _ _)
    rcases List.mem_append.mp h with h | h
    · exact List.Subset.trans (ihLeft h) (List.subset_append_left _ _)
    · exact List.Subset.trans (ihRight h) (List.subset_append_right _ _)

/-- The search for the width finds no mistake that the evaluation would not find. -/
theorem Expr.scanMistakes_subset (e : Expr) (typeOf : String → ValueType) :
    e.scanMistakes typeOf ⊆ e.mistakes := by
  unfold Expr.scanMistakes
  split
  · next leaf hFind => exact mistakes_subset_of_mem_leaves (List.mem_of_find?_eq_some hFind)
  · exact List.nil_subset _

theorem condMistakes_eq_nil_iff {cond : Expr} :
    cond.scanMistakes typeOf ++ cond.mistakes = [] ↔ cond.Supported := by
  rw [List.append_eq_nil_iff, ← cond.mistakes_eq_nil_iff]
  refine ⟨And.right, fun h => ⟨?_, h⟩⟩
  have hSubset := cond.scanMistakes_subset typeOf
  rw [h] at hSubset
  exact List.subset_nil.mp hSubset

theorem callMistakes_eq_nil_iff {name : Ident} {args : List Expr} :
    callMistakes arity name args = [] ↔
      args.length = arity name.name ∧ ∀ arg ∈ args, arg.Supported := by
  simp [callMistakes, Expr.mistakes_eq_nil_iff]

mutual

theorem Stmt.errors_eq_nil_iff (stmt : Stmt) :
    stmt.errors typeOf arity = [] ↔ stmt.Supported arity := by
  cases stmt with
  | block stmts span => exact stmtsErrors_eq_nil_iff stmts
  | assign target value =>
    simp [Stmt.errors, Stmt.Supported, firstOr_eq_nil_iff, value.mistakes_eq_nil_iff]
  | call name args =>
    simp only [Stmt.errors, Stmt.Supported, firstOr_eq_nil_iff, callMistakes_eq_nil_iff, and_true]
  | ifThen cond yes span =>
    rw [Stmt.errors, Stmt.Supported, firstOr_eq_nil_iff, condMistakes_eq_nil_iff,
      Stmt.errors_eq_nil_iff yes]
  | ifElse cond yes no span =>
    rw [Stmt.errors, Stmt.Supported, firstOr_eq_nil_iff, condMistakes_eq_nil_iff,
      List.append_eq_nil_iff, Stmt.errors_eq_nil_iff yes, Stmt.errors_eq_nil_iff no]

theorem stmtsErrors_eq_nil_iff (stmts : List Stmt) :
    stmtsErrors typeOf arity stmts = [] ↔ StmtsSupported arity stmts := by
  cases stmts with
  | nil => simp [stmtsErrors, StmtsSupported]
  | cons stmt stmts =>
    rw [stmtsErrors, StmtsSupported, List.append_eq_nil_iff, Stmt.errors_eq_nil_iff stmt,
      stmtsErrors_eq_nil_iff stmts]

end

theorem ProcDecl.errors_eq_nil_iff {proc : ProcDecl} :
    proc.errors program = [] ↔
      proc.frameSize ≤ Lowering.maxFrame ∧ StmtsSupported program.arity proc.body.stmts := by
  unfold ProcDecl.errors
  split
  · next hLarge => simp [Nat.not_le.mpr hLarge]
  · next hSize => simp [stmtsErrors_eq_nil_iff, Nat.le_of_not_lt hSize]

/-- A program is lowered without errors exactly if all of it is supported. -/
theorem Program.loweringErrors_eq_nil_iff : program.loweringErrors = [] ↔ program.Supported := by
  rw [Program.loweringErrors, List.append_eq_nil_iff, stmtsErrors_eq_nil_iff,
    List.flatMap_eq_nil_iff]
  simp only [ProcDecl.errors_eq_nil_iff]
  constructor
  · rintro ⟨hProcs, hBody⟩
    exact ⟨fun proc h => (hProcs proc h).1, fun proc h => (hProcs proc h).2, hBody⟩
  · rintro ⟨hFrames, hProcs, hBody⟩
    exact ⟨fun proc h => ⟨hFrames proc h, hProcs proc h⟩, hBody⟩

end

/-! ### Literals -/

namespace Numeral

theorem isDigit_of_digit? {c : Char} {d : Nat} (h : digit? 10 c = some d) : c.isDigit = true := by
  simp only [digit?] at h
  split at h
  · next hBounds => simpa [Char.isDigit, Char.le_def, UInt32.le_iff_toNat_le] using hBounds
  · exfalso
    split at h
    · rw [if_neg (by omega)] at h
      cases h
    · split at h
      · rw [if_neg (by omega)] at h
        cases h
      · simp at h

theorem readDigits_eq_ok_iff {cs : List Char} {limit acc n : Nat} (hAcc : acc ≤ limit) :
    readDigits 10 limit acc cs = .ok n ↔
      cs.all Char.isDigit = true ∧ Nat.ofDigitChars 10 cs acc ≤ limit ∧
        n = Nat.ofDigitChars 10 cs acc := by
  constructor
  · intro h
    obtain ⟨hValue, hLe⟩ := readDigits_eq h
    refine ⟨?_, hValue ▸ hLe hAcc, hValue⟩
    clear hValue hLe hAcc
    induction cs generalizing acc with
    | nil => rfl
    | cons c cs ih =>
      simp only [readDigits] at h
      split at h
      · cases h
      · next d hDigit =>
        split at h
        · simp [isDigit_of_digit? hDigit, ih h]
        · cases h
  · rintro ⟨hDigits, hLe, rfl⟩
    exact readDigits_of_isDigit (List.all_eq_true.mp hDigits) hLe

theorem read_eq_ok_iff {text : String} {n : Nat} :
    read 10 0xFFFF text.toList = .ok n ↔
      fitsWord text = true ∧ n = Nat.ofDigitChars 10 text.toList 0 := by
  unfold fitsWord numeralDigits
  generalize text.toList = cs
  cases cs with
  | nil => simp [read]
  | cons c cs =>
    by_cases hPlus : c = '+'
    · subst hPlus
      cases cs with
      | nil => simp [read]
      | cons d cs =>
        show readDigits 10 0xFFFF 0 (d :: cs) = .ok n ↔ _
        rw [readDigits_eq_ok_iff (Nat.zero_le _), Nat.ofDigitChars_cons (c := '+')]
        simp [and_assoc]
    · rw [read_of_ne_plus hPlus, readDigits_eq_ok_iff (Nat.zero_le _)]
      simp [hPlus, and_assoc]

end Numeral

open Lowering

/-! ### Steps and what they record -/

namespace Lower

variable {ε α β : Type} {I : State → Prop} {errors errors' mistakes mistakes' : List Error}
  {V : Except ε α → Prop} {W : Except ε β → Prop}

/-- From a state with `I` the step ends in one with `I`, and adds `errors` to those recorded. -/
def Logs (I : State → Prop) (errors : List Error) (V : Except ε α → Prop) (x : Lower ε α) : Prop :=
  ∀ s, I s → I (x s).state ∧ (x s).state.errors = s.errors ++ errors ∧ V (x s).value

def Adds (I : State → Prop) (errors : List Error) (x : Lower ε Unit) : Prop :=
  Logs I errors (· = .ok ()) x

/-- The step records nothing, and stops for the first of the mistakes. -/
def StopsAt (I : State → Prop) (mistakes : List Error) (x : Lower Stop Unit) : Prop :=
  Logs I [] (· = (mistakes.head?.map Stop.user).elim (.ok ()) .error) x

/-- Errors of a later step come behind those of an earlier one. -/
theorem Logs.bind {Q : α → Prop} {x : Lower ε α} {f : α → Lower ε β}
    (hx : Logs I errors (fun v => ∃ a, v = .ok a ∧ Q a) x)
    (hf : ∀ a, Q a → Logs I errors' W (f a)) : Logs I (errors ++ errors') W (x >>= f) := by
  intro s hs
  obtain ⟨hState, hErrors, a, hValue, ha⟩ := hx s hs
  rw [bind_of_ok hValue]
  obtain ⟨hState', hErrors', hValue'⟩ := hf a ha _ hState
  refine ⟨hState', ?_, hValue'⟩
  rw [hErrors', hErrors, List.append_assoc]

theorem Logs.bind_of_nil {Q : α → Prop} {x : Lower ε α} {f : α → Lower ε β}
    (hx : Logs I [] (fun v => ∃ a, v = .ok a ∧ Q a) x) (hf : ∀ a, Q a → Logs I errors W (f a)) :
    Logs I errors W (x >>= f) :=
  hx.bind hf

/-- A step that keeps `I` and records nothing. -/
theorem Keeps.logs {Q : α → Prop} {x : Lower ε α} (hx : Keeps I (fun _ => False) Q x)
    (hErrors : ∀ s, (x s).state.errors = s.errors) :
    Logs I [] (fun v => ∃ a, v = .ok a ∧ Q a) x := by
  intro s hs
  obtain ⟨hState, hValue, hStop⟩ := hx s hs
  refine ⟨hState, by simp [hErrors], ?_⟩
  cases h : (x s).value with
  | ok a => exact ⟨a, rfl, hValue a h⟩
  | error e => exact (hStop e h).elim

theorem Logs.lift {Q : α → Prop} {x : Lower Fault α}
    (hx : Logs I errors (fun v => ∃ a, v = .ok a ∧ Q a) x) :
    Logs I errors (fun v => ∃ a, v = .ok a ∧ Q a) (liftM x : Lower Stop α) := by
  intro s hs
  obtain ⟨hState, hErrors, a, hValue, ha⟩ := hx s hs
  refine ⟨hState, hErrors, a, ?_, ha⟩
  show (x s).value.mapError Stop.fault = .ok a
  rw [hValue]
  rfl

theorem Logs.adds {Q : Unit → Prop} {x : Lower ε Unit}
    (hx : Logs I errors (fun v => ∃ a, v = .ok a ∧ Q a) x) : Adds I errors x := by
  intro s hs
  obtain ⟨hState, hErrors, a, hValue, -⟩ := hx s hs
  exact ⟨hState, hErrors, hValue⟩

theorem Adds.logs {x : Lower ε Unit} (hx : Adds I errors x) :
    Logs I errors (fun v => ∃ a, v = .ok a ∧ True) x := by
  intro s hs
  obtain ⟨hState, hErrors, hValue⟩ := hx s hs
  exact ⟨hState, hErrors, (), hValue, trivial⟩

theorem Adds.bind {x : Lower ε Unit} {y : Unit → Lower ε Unit} (hx : Adds I errors x)
    (hy : ∀ u, Adds I errors' (y u)) : Adds I (errors ++ errors') (x >>= y) :=
  hx.logs.bind fun u _ => hy u

theorem Adds.bind_nil {x : Lower ε Unit} {y : Unit → Lower ε Unit} (hx : Adds I errors x)
    (hy : ∀ u, Adds I [] (y u)) : Adds I errors (x >>= y) := by
  have h := hx.bind hy
  rwa [List.append_nil] at h

theorem Adds.lift {x : Lower Fault Unit} (hx : Adds I errors x) :
    Adds I errors (liftM x : Lower Stop Unit) :=
  hx.logs.lift.adds

theorem adds_emit (lines : List Line) : Adds I [] (emit lines : Lower ε Unit) :=
  fun _ hs => ⟨hs, by simp [emit], rfl⟩

theorem Adds.stopsAt {x : Lower Stop Unit} (hx : Adds I [] x) : StopsAt I [] x := hx

theorem stopsAt_stop (e : Error) (mistakes : List Error) :
    StopsAt I (e :: mistakes) (stop (.user e)) :=
  fun _ hs => ⟨hs, by simp [stop], rfl⟩

theorem Adds.bind_stopsAt {x : Lower Stop Unit} {y : Unit → Lower Stop Unit} (hx : Adds I [] x)
    (hy : ∀ u, StopsAt I mistakes (y u)) : StopsAt I mistakes (x >>= y) :=
  hx.logs.bind_of_nil fun u _ => hy u

/-- After a mistake nothing more is done. -/
theorem Logs.bind_of_mistake {e : Error} {x : Lower Stop α} {f : α → Lower Stop Unit}
    (hx : Logs I [] (· = .error (.user e)) x) : Logs I [] (· = .error (.user e)) (x >>= f) := by
  intro s hs
  obtain ⟨hState, hErrors, hValue⟩ := hx s hs
  rw [bind_of_error hValue]
  exact ⟨hState, hErrors, rfl⟩

/-- The mistakes of the second step only come up if there are none in the first. -/
theorem StopsAt.bind {x : Lower Stop Unit} {y : Unit → Lower Stop Unit} (hx : StopsAt I mistakes x)
    (hy : ∀ u, StopsAt I mistakes' (y u)) : StopsAt I (mistakes ++ mistakes') (x >>= y) := by
  cases mistakes with
  | nil => exact Adds.bind_stopsAt hx hy
  | cons e mistakes => exact Logs.bind_of_mistake hx

/-- Steps without errors behind do not change where a statement stops. -/
theorem StopsAt.bind_adds {x : Lower Stop Unit} {y : Unit → Lower Stop Unit}
    (hx : StopsAt I mistakes x) (hy : ∀ u, Adds I [] (y u)) : StopsAt I mistakes (x >>= y) := by
  have h := hx.bind fun u => (hy u).stopsAt
  rwa [List.append_nil] at h

def Tries (I : State → Prop) (mistakes errors : List Error) (x : Lower Stop Unit) : Prop :=
  Logs I (if mistakes.isEmpty then errors else [])
    (· = (mistakes.head?.map Stop.user).elim (.ok ()) .error) x

theorem StopsAt.tries {x : Lower Stop Unit} (hx : StopsAt I mistakes x) :
    Tries I mistakes [] x := by
  rw [Tries, ite_self]
  exact hx

/-- The inner statements are reached only if the condition is without mistakes. -/
theorem StopsAt.bind_tries {x : Lower Stop Unit} {y : Unit → Lower Stop Unit}
    (hx : StopsAt I mistakes x) (hy : ∀ u, Adds I errors (y u)) :
    Tries I mistakes errors (x >>= y) := by
  cases mistakes with
  | nil => exact Adds.bind hx hy
  | cons e mistakes => exact Logs.bind_of_mistake hx

/-- The mistake that stops a step is what comes to be recorded of it. -/
theorem Tries.attempt {x : Lower Stop Unit} (hx : Tries I mistakes errors x)
    (hErrors : ∀ s errors, I s → I { s with errors := errors }) :
    Adds I (firstOr mistakes errors) (attempt x) := by
  intro s hs
  obtain ⟨hState, hLog, hValue⟩ := hx s hs
  cases mistakes with
  | nil =>
    rw [attempt_of_ok hValue]
    exact ⟨hState, hLog, rfl⟩
  | cons e mistakes =>
    rw [attempt_of_user hValue]
    refine ⟨hErrors _ _ hState, ?_, rfl⟩
    simp [hLog, firstOr]

end Lower

namespace Lowering

open Lower

/-- A literal is read if it fits a word. -/
theorem literalValue_eq (text : String) (span : Span) :
    literalValue text span =
      if fitsWord text then .ok (UInt16.ofNat (Nat.ofDigitChars 10 text.toList 0))
      else .error (.user (.invalidLiteral text span)) := by
  unfold literalValue
  split
  · next n hRead =>
    obtain ⟨hFits, rfl⟩ := Numeral.read_eq_ok_iff.mp hRead
    rw [if_pos hFits]
  · next e hRead =>
    rw [if_neg]
    intro hFits
    have hOk := Numeral.read_eq_ok_iff.mpr ⟨hFits, rfl⟩
    rw [hRead] at hOk
    cases hOk

variable {syms : Symbols} {block : Nat} {slots : List Slot} {typeOf : String → ValueType}
  {arity : String → Nat}

/-- The types of variables and the numbers of parameters are as the symbols tell. -/
structure Describes (look : String → Option Symbol) (typeOf : String → ValueType)
    (arity : String → Nat) : Prop where
  var : ∀ name info, look name = some (.var info) → typeOf name = info.type
  proc : ∀ name params, look name = some (.proc params) → arity name = params.length

theorem Describes.mono {look look' : String → Option Symbol} (h : Describes look' typeOf arity)
    (hLook : ∀ name symbol, look name = some symbol → look' name = some symbol) :
    Describes look typeOf arity :=
  ⟨fun name info hInfo => h.var name info (hLook name _ hInfo),
    fun name params hParams => h.proc name params (hLook name _ hParams)⟩

/-! ### Expressions -/

theorem BinaryOp.isSupported_eq (op : BinaryOp) : op.isSupported = (Mode.ofOp? op).isSome := by
  cases op <;> rfl

theorem errors_variableInfo (name : Ident) (s : State) :
    (variableInfo name s).state.errors = s.errors := by
  unfold variableInfo
  rw [bind_of_ok (x := state) (a := s) rfl]
  dsimp only
  cases varInfo s.symbols name <;> rfl

theorem errors_pointAt (name : String) (isGlobal : Bool) (note : String) (s : State) :
    (pointAt name isGlobal note s).state.errors = s.errors := by
  unfold pointAt
  split
  · rfl
  · rw [bind_of_ok (x := state) (a := s) rfl]
    dsimp only
    cases s.frames.offsetFromLast? name <;> rfl

theorem errors_address (name : String) (info : VarInfo) (note : String) (s : State) :
    (address name info note s).state.errors = s.errors := by
  unfold address
  cases info.storage with
  | register r => rfl
  | stack | fixed => exact errors_pointAt name _ note s

theorem readableOr_of_readable {look : String → Option Symbol} {name : String}
    (h : Readable look name) : ReadableOr (fun _ => False) look name := by
  obtain ⟨info, hInfo⟩ := h
  exact ⟨Option.isSome_iff_exists.mpr ⟨_, hInfo⟩, .inl ⟨info, hInfo⟩⟩

theorem logs_variableInfo {name : Ident} (h : Readable syms.get? name.name) :
    Logs (AtBody syms block slots) []
      (fun v => ∃ info, v = .ok info ∧ syms.get? name.name = some (.var info))
      (variableInfo name) :=
  (keeps_variableInfo (readableOr_of_readable h)).logs (errors_variableInfo name)

theorem adds_address (hf : Furnished syms.get? slots) {name : String} {info : VarInfo}
    (h : syms.get? name = some (.var info)) (note : String) :
    Adds (AtBody syms block slots) [] (address name info note) :=
  ((keeps_address hf h note).logs (errors_address name info note)).adds

/-- Lowering an expression stops at the first of its mistakes. -/
theorem stopsAt_lowerExpr (hf : Furnished syms.get? slots) {e : Expr}
    (h : e.Reads (Readable syms.get?)) (mode : Mode) (wide : Bool) :
    StopsAt (AtBody syms block slots) e.mistakes (lowerExpr mode wide e) := by
  induction e generalizing mode with
  | ref name =>
    exact (logs_variableInfo h).lift.bind_of_nil fun info hInfo =>
      (adds_address hf hInfo _).lift.stopsAt.bind_adds fun _ => adds_emit _
  | int text span =>
    simp only [lowerExpr, literalValue_eq, Expr.mistakes]
    split
    · exact (adds_emit _).stopsAt
    · exact stopsAt_stop _ []
  | unary op operand span ih => exact (ih h .load).bind_adds fun _ => adds_emit _
  | binary op left right span ihLeft ihRight =>
    simp only [lowerExpr, Expr.mistakes, BinaryOp.isSupported_eq]
    cases Mode.ofOp? op with
    | none => exact stopsAt_stop _ _
    | some opMode =>
      refine (ihLeft h.1 .load).bind fun _ => ?_
      split
      · exact ihRight h.2 opMode
      · exact (adds_emit _).bind_stopsAt fun _ => (ihRight h.2 .load).bind_adds fun _ => adds_emit _

/-- What the search for the width comes to, given the leaf at which it ends. -/
def scanned : Option Expr → Except Stop Bool
  | none => .ok false
  | some leaf => (leaf.mistakes.head?.map Stop.user).elim (.ok true) .error

/-- A condition is scanned leaf by leaf, up to the first that needs two bytes. -/
theorem isWide_eq (hd : Describes syms.get? typeOf arity) {e : Expr}
    (h : e.Reads (Readable syms.get?)) :
    isWide syms e = scanned (e.leaves.find? (·.exceedsByte typeOf)) := by
  induction e with
  | ref name =>
    obtain ⟨info, hInfo⟩ := h
    simp only [isWide, varInfo, hInfo, Expr.leaves, List.find?_singleton, Expr.exceedsByte,
      hd.var _ _ hInfo]
    split <;> simp_all [scanned, Expr.mistakes]
  | int text span =>
    simp only [isWide, literalValue_eq, Expr.leaves, List.find?_singleton, Expr.exceedsByte]
    by_cases hFits : fitsWord text = true
    · have hRead := Numeral.read_eq_ok_iff.mpr ⟨hFits, rfl⟩
      simp only [hFits, if_true, literal_isLong hRead, Bool.not_true, Bool.false_or]
      split <;> simp_all [scanned, Expr.mistakes]
    · simp [scanned, Expr.mistakes, hFits]
  | unary op operand span ih => exact ih h
  | binary op left right span ihLeft ihRight =>
    simp only [isWide, Expr.leaves, List.find?_append, ihLeft h.1, ihRight h.2]
    cases left.leaves.find? (·.exceedsByte typeOf) with
    | none => rfl
    | some leaf =>
      simp only [Option.some_or, scanned]
      cases leaf.mistakes <;> rfl

/-! ### Statements -/

theorem logs_state {ε : Type} {I : State → Prop} :
    Logs I [] (fun v => ∃ s, v = .ok s ∧ I s) (state : Lower ε State) :=
  keeps_state.logs fun _ => rfl

theorem logs_newBranch {ε : Type} :
    Logs (AtBody syms block slots) [] (fun v => ∃ n, v = .ok n ∧ True)
      (newBranch : Lower ε Nat) :=
  keeps_newBranch.logs fun _ => rfl

theorem adds_settle {ε : Type} : Adds (AtBody syms block slots) [] (settle : Lower ε Unit) :=
  (keeps_settle.logs fun _ => rfl).adds

theorem stopsAt_lowerAssign (hf : Furnished syms.get? slots) {target : Ident} {value : Expr}
    (hTarget : Readable syms.get? target.name) (hValue : value.Reads (Readable syms.get?)) :
    StopsAt (AtBody syms block slots) value.mistakes (lowerAssign target value) :=
  (logs_variableInfo hTarget).lift.bind_of_nil fun _ hInfo =>
    (stopsAt_lowerExpr hf hValue .load _).bind_adds fun _ =>
      (adds_address hf hInfo _).lift.bind fun _ => adds_emit _

theorem stopsAt_lowerArgs (hf : Furnished syms.get? slots) {args : List (Expr × ValueType)}
    (h : ∀ arg ∈ args, arg.1.Reads (Readable syms.get?)) :
    StopsAt (AtBody syms block slots) (args.flatMap (·.1.mistakes)) (lowerArgs args) := by
  induction args with
  | nil => exact fun _ hs => ⟨hs, (List.append_nil _).symm, rfl⟩
  | cons arg args ih =>
    have hRest := ih fun other hOther => h other (List.mem_cons_of_mem arg hOther)
    exact (stopsAt_lowerExpr hf (h arg List.mem_cons_self) .load _).bind fun _ =>
      (adds_emit _).bind_stopsAt fun _ => hRest

theorem stopsAt_lowerUserCall (hf : Furnished syms.get? slots) {args : List Expr}
    {params : List ValueType} (hArgs : ∀ arg ∈ args, arg.Reads (Readable syms.get?))
    (hCount : args.length = params.length) (name : String) :
    StopsAt (AtBody syms block slots) (args.flatMap (·.mistakes))
      (lowerUserCall name params args) := by
  have hLower : StopsAt (AtBody syms block slots) ((args.zip params).flatMap (·.1.mistakes))
      (lowerArgs (args.zip params)) :=
    stopsAt_lowerArgs hf fun _ hArg => hArgs _ (List.of_mem_zip hArg).1
  have hMistakes : (args.zip params).flatMap (·.1.mistakes) = args.flatMap (·.mistakes) := by
    rw [← List.flatMap_map, List.map_fst_zip (Nat.le_of_eq hCount)]
  rw [hMistakes] at hLower
  exact (adds_emit _).bind_stopsAt fun _ => hLower.bind_adds fun _ => adds_emit _

theorem stopsAt_lowerIntrinsic (hf : Furnished syms.get? slots) {args : List Expr}
    {intrinsic : Intrinsic} (hArgs : ∀ arg ∈ args, arg.Reads (Readable syms.get?))
    (hCount : args.length = intrinsic.params.length) :
    StopsAt (AtBody syms block slots) (args.flatMap (·.mistakes))
      (lowerIntrinsic intrinsic args) := by
  -- The other intrinsics take no arguments.
  cases intrinsic with
  | makeBcd =>
    obtain ⟨arg, rfl⟩ := List.length_eq_one_iff.mp hCount
    rw [List.flatMap_singleton]
    exact (stopsAt_lowerExpr hf (hArgs arg List.mem_cons_self) .load true).bind_adds fun _ =>
      (adds_emit _).bind fun _ => adds_emit _
  | cls | breakpoint | printBcd | printBcdHigh =>
    rw [List.length_eq_zero_iff.mp hCount]
    exact (adds_emit _).bind_stopsAt fun _ => adds_emit _

/-- A wrong count of arguments is reported before anything in them. -/
theorem stopsAt_lowerCall (hf : Furnished syms.get? slots) (hd : Describes syms.get? typeOf arity)
    {name : Ident} {args : List Expr} (hName : Callable syms.get? name.name)
    (hArgs : ∀ arg ∈ args, arg.Reads (Readable syms.get?)) :
    StopsAt (AtBody syms block slots) (callMistakes arity name args) (lowerCall name args) := by
  obtain ⟨params, hParams⟩ := hName
  have hArity := hd.proc _ _ hParams
  refine logs_state.bind_of_nil fun s hs => ?_
  rw [hs.1, callMistakes, hArity, hParams]
  by_cases hCount : args.length = params.length
  · simp only [hCount, ne_eq, not_true_eq_false, if_false, if_true, List.nil_append]
    cases hIntrinsic : Intrinsic.ofName? name.name with
    | none => exact stopsAt_lowerUserCall hf hArgs hCount _
    | some intrinsic =>
      have hTypes := hf.intrinsic _ _ _ hParams hIntrinsic
      exact stopsAt_lowerIntrinsic hf hArgs (hTypes ▸ hCount)
  · simp only [hCount, ne_eq, not_false_eq_true, if_false, if_true]
    exact stopsAt_stop _ _

/-- A condition is scanned before it is lowered, so a mistake that the scan meets comes first. -/
theorem stopsAt_lowerCond (hf : Furnished syms.get? slots) (hd : Describes syms.get? typeOf arity)
    {cond : Expr} (h : cond.Reads (Readable syms.get?)) (whenZero : Label) :
    StopsAt (AtBody syms block slots) (cond.scanMistakes typeOf ++ cond.mistakes)
      (lowerCond cond whenZero) := by
  have hCode (wide : Bool) (lines : List Line) :
      StopsAt (AtBody syms block slots) cond.mistakes
        (do lowerExpr .load wide cond; settle; emit lines) :=
    (stopsAt_lowerExpr hf h .load wide).bind_adds fun _ => adds_settle.bind fun _ => adds_emit _
  refine logs_state.bind_of_nil fun s hs => ?_
  rw [hs.1, isWide_eq hd h]
  unfold Expr.scanMistakes
  cases cond.leaves.find? (·.exceedsByte typeOf) with
  | none => exact hCode false _
  | some leaf =>
    simp only [scanned]
    cases leaf.mistakes with
    | nil => exact hCode true _
    | cons e mistakes => exact stopsAt_stop e _

mutual

theorem adds_lowerStmt (hf : Furnished syms.get? slots) (hd : Describes syms.get? typeOf arity)
    (stmt : Stmt)
    (h : stmt.Uses (Readable syms.get?) (Writable syms.get?) (Callable syms.get?)) :
    Adds (AtBody syms block slots) (stmt.errors typeOf arity) (lowerStmt stmt) := by
  cases stmt with
  | block stmts span => exact adds_lowerStmts hf hd stmts h
  | assign target value =>
    obtain ⟨⟨info, hInfo, -⟩, hValue⟩ := h
    exact (stopsAt_lowerAssign hf ⟨info, hInfo⟩ hValue).tries.attempt atBody_errors
  | call name args => exact (stopsAt_lowerCall hf hd h.1 h.2).tries.attempt atBody_errors
  | ifThen cond yes span =>
    obtain ⟨hCond, hYes⟩ := h
    refine Tries.attempt (logs_newBranch.bind_of_nil fun n _ => ?_) atBody_errors
    exact (stopsAt_lowerCond hf hd hCond _).bind_tries fun _ =>
      (adds_lowerStmt hf hd yes hYes).lift.bind_nil fun _ => adds_settle.bind fun _ => adds_emit _
  | ifElse cond yes no span =>
    obtain ⟨hCond, hYes, hNo⟩ := h
    refine Tries.attempt (logs_newBranch.bind_of_nil fun n _ => ?_) atBody_errors
    exact (stopsAt_lowerCond hf hd hCond _).bind_tries fun _ =>
      (adds_lowerStmt hf hd yes hYes).lift.bind fun _ => adds_settle.bind fun _ =>
        (adds_emit _).bind fun _ => (adds_lowerStmt hf hd no hNo).lift.bind_nil fun _ =>
          adds_settle.bind fun _ => adds_emit _

theorem adds_lowerStmts (hf : Furnished syms.get? slots) (hd : Describes syms.get? typeOf arity)
    (stmts : List Stmt) (h : KindedBody syms.get? stmts) :
    Adds (AtBody syms block slots) (stmtsErrors typeOf arity stmts) (lowerStmts stmts) := by
  cases stmts with
  | nil => exact fun _ hs => ⟨hs, (List.append_nil _).symm, rfl⟩
  | cons stmt stmts =>
    exact (adds_lowerStmt hf hd stmt h.1).bind fun _ => adds_lowerStmts hf hd stmts h.2

end

/-! ### Programs -/

/-- A frame that is too large is reported in place of what the body has to report. -/
theorem adds_lowerBody (hf : Furnished syms.get? slots) (hd : Describes syms.get? typeOf arity)
    (name : Ident) {body : Block} (h : KindedBody syms.get? body.stmts) :
    Adds (AtBody syms block slots)
      (if maxFrame < Slot.total slots then
        [.frameTooLarge name.name (Slot.total slots) name.span]
      else stmtsErrors typeOf arity body.stmts) (lowerBody name body) := by
  refine logs_state.bind_of_nil fun s hs => ?_
  obtain ⟨-, -, last, hShows⟩ := hs
  simp only [hShows.size]
  split
  · exact fun s hs => ⟨hs, rfl, rfl⟩
  · exact (adds_emit _).bind fun _ => (adds_lowerStmts hf hd _ h).bind_nil fun _ =>
      adds_settle.bind fun _ => adds_emit _

theorem adds_lowerData (stackWords : Nat) :
    Adds (AtBody syms block slots) [] (lowerData stackWords) :=
  fun _ hs => ⟨hs, (List.append_nil _).symm, rfl⟩

variable {program : Program} {g : Bindings Symbol} {ns : List String} {vars : List VarDecl}

theorem Program.describes (hNamed : program.WellNamed) (hVars : NamedVars [] vars) :
    Describes (program.env vars).look (program.typeIn vars) program.arity := by
  refine ⟨fun name info hInfo => typeIn_eq hNamed hVars hInfo, fun name params hParams => ?_⟩
  unfold Program.arity
  cases hIntrinsic : Intrinsic.ofName? name with
  | some intrinsic =>
    rw [Program.env_intrinsicsKept hNamed hVars name params intrinsic hParams hIntrinsic]
  | none =>
    obtain ⟨proc, hFind, rfl⟩ := look_proc hNamed hVars hParams hIntrinsic
    simp [hFind]

theorem errors_lowerProc {proc : ProcDecl} {s : State} (hg : GlobalSymbols g)
    (hName : proc.name.name ∉ builtinNames) (hVars : NamedVars [] proc.vars)
    (hd : Describes (lookIn (g.set proc.name.name (Decl.proc proc).symbol) (bindVars [] proc.vars))
      (program.typeIn proc.vars) program.arity)
    (hBody : KindedBody
      (lookIn (g.set proc.name.name (Decl.proc proc).symbol) (bindVars [] proc.vars))
      proc.body.stmts) (hs : AtTopLevel g s) :
    (lowerProc proc s).state.errors = s.errors ++ proc.errors program := by
  have hParams := valueTypes_eq fun decl hDecl =>
    hVars.typed decl (List.mem_append_left proc.locals hDecl)
  have hTop : (s.symbols.define proc.name.name (Decl.proc proc).symbol).AtTop
      (g.set proc.name.name (Decl.proc proc).symbol) := hs.1.define _ _
  obtain ⟨s₁, hVarsRun, hs₁, -, -, hErrors⟩ := lowerVars_inProc
    (s := { s with
      symbols := (s.symbols.define proc.name.name (Decl.proc proc).symbol).openLocal
      frames := s.frames.openLocal })
    ⟨hTop.openLocal, hs.2.openLocal⟩ hVars.typed
  have hLook : s₁.symbols.get? = lookIn _ _ := funext fun name => hs₁.1.get? name
  have hFurnished := hVars.furnished (hg.set (.proc proc) hName)
  have hInner : Adds (AtBody s₁.symbols s₁.frames.active (proc.vars.map (·.slot)))
      (proc.errors program) (do
        emit [.label (.procedure proc.name.name)]
        lowerBody proc.name proc.body) := by
    have hTotal : Slot.total (proc.vars.map (·.slot)) = proc.frameSize :=
      Slot.total_map_slot proc.vars
    rw [ProcDecl.errors, ← hTotal]
    exact (adds_emit _).bind fun _ =>
      adds_lowerBody (hLook ▸ hFurnished) (hLook ▸ hd) proc.name (hLook ▸ hBody)
  obtain ⟨-, hLog, -⟩ := hInner s₁ ⟨rfl, rfl, 0, .inr hs₁.2⟩
  rw [hErrors] at hLog
  have hRun := bind_of_ok (x := lowerVars proc.vars) (a := ()) (by rw [hVarsRun])
    fun _ => (do
      emit [.label (.procedure proc.name.name)]
      lowerBody proc.name proc.body)
  rw [hVarsRun] at hRun
  simp only [lowerProc, hParams]
  rw [bind_of_ok (x := update _) (a := ()) rfl]
  simp only [inScope, update]
  exact (congrArg (·.state.errors) hRun).trans hLog

def declErrors (program : Program) : List Decl → List Error
  | [] => []
  | .var _ :: decls => declErrors program decls
  | .proc proc :: decls => proc.errors program ++ declErrors program decls

theorem declErrors_decls (program : Program) :
    declErrors program program.decls = program.procs.flatMap (·.errors program) := by
  unfold Program.procs
  induction program.decls with
  | nil => rfl
  | cons decl decls ih =>
    cases decl with
    | var decl => simpa [declErrors] using ih
    | proc proc => simp [declErrors, ih]

/-- Procedures are reported in the order of their declarations. -/
theorem errors_lowerDecls {decls : List Decl} {s : State} (hNamed : program.WellNamed)
    (hg : GlobalSymbols g) (hNames : ∀ name ∈ builtinNames, name ∈ ns)
    (hDecls : NamedDecls ns decls) (hKeys : g.Keys ns)
    (hSymbols : program.symbols = bindDecls g decls) (hBody : EveryBody KindedBody g decls)
    (hs : AtTopLevel g s) :
    (lowerDecls decls s).state.errors = s.errors ++ declErrors program decls := by
  induction decls generalizing g ns s with
  | nil => exact (List.append_nil _).symm
  | cons decl decls ih =>
    cases decl with
    | var decl =>
      obtain ⟨hFresh, hType, hMore⟩ := hDecls
      have hRun := lowerVar_top hs hType
      rw [lowerDecls, lowerDecl, bind_of_ok (a := ()) (by rw [hRun]), hRun]
      exact ih (hg.set (.var decl) fun h => hFresh (hNames _ h))
        (fun name h => List.mem_cons_of_mem _ (hNames name h)) hMore (hKeys.set _ _) hSymbols hBody
        ⟨hs.1.define _ _, hs.2⟩
    | proc proc =>
      obtain ⟨hFresh, hProc, hMore⟩ := hDecls
      have hName : proc.name.name ∉ builtinNames := fun h => hFresh (hNames _ h)
      have hKeys' := hKeys.set proc.name.name (Decl.proc proc).symbol
      have hSub : ∀ {name symbol},
          (g.set proc.name.name (Decl.proc proc).symbol).get? name = some symbol →
            program.symbols.get? name = some symbol := by
        intro name symbol hGet
        rw [hSymbols]
        exact bindDecls_get?_of_get? hMore hKeys' hGet
      have hd := (Program.describes hNamed hProc.vars).mono fun _ _ => lookIn_mono hSub
      have hLog := errors_lowerProc hg hName hProc.vars hd hBody.1 hs
      obtain ⟨hTop, hNoFault⟩ := leads_lowerProc hg hName hProc hBody.1.lowerable s hs
      cases hValue : (lowerProc proc s).value with
      | error fault => exact (hNoFault fault hValue).elim
      | ok u =>
        rw [lowerDecls, lowerDecl, bind_of_ok hValue]
        have hRest := ih (hg.set (.proc proc) hName)
          (fun name h => List.mem_cons_of_mem _ (hNames name h)) hMore hKeys' hSymbols hBody.2
          (hTop u hValue)
        rw [declErrors, ← List.append_assoc, ← hLog]
        exact hRest

/-- The errors of lowering are those of the program, in order. -/
theorem errors_lowerProgram (stackWords : Nat) (hNamed : program.WellNamed)
    (hKinded : program.WellKinded) :
    (lowerProgram stackWords program .initial).state.errors = program.loweringErrors := by
  have hLog := errors_lowerDecls hNamed globalSymbols_builtins (fun _ h => h) hNamed.decls
    (keys_builtins Builtin.symbol) rfl hKinded.decls atTopLevel_initial
  obtain ⟨hTop, hNoFault⟩ := leads_lowerDecls globalSymbols_builtins (fun _ h => h) hNamed.decls
    (hKinded.decls.mono fun _ _ => KindedBody.lowerable) _ atTopLevel_initial
  have hNone : NamedVars [] [] := trivial
  have hd : Describes (lookIn (bindDecls builtinBindings program.decls) []) (program.typeIn [])
      program.arity := Program.describes hNamed hNone
  have hFurnished := (globalSymbols_builtins.foldl (hNamed.decls.nodup).2).furnished
  rw [lowerProgram, bind_of_ok (x := emit _) (a := ()) rfl]
  simp only [emit]
  cases hValue : (lowerDecls program.decls State.initial).value with
  | error fault => exact (hNoFault fault hValue).elim
  | ok u =>
    rw [bind_of_ok hValue]
    have hs := hTop u hValue
    generalize (lowerDecls program.decls State.initial).state = s at hs hLog ⊢
    have hLook : s.symbols.get? = lookIn _ [] := funext fun name => hs.1.get? name
    have hMain : Adds (AtBody s.symbols s.frames.active []) _ _ :=
      adds_lowerStmts (hLook ▸ hFurnished) (hLook ▸ hd) program.body.stmts (hLook ▸ hKinded.body)
    have hRest := (adds_emit [Line.label .entry]).bind fun _ => hMain.bind_nil fun _ =>
      adds_settle.bind fun _ => (adds_emit
        [Line.blank, .label .finish, Line.plain (.jump .finish), Line.blank]).bind fun _ =>
          adds_lowerData stackWords
    obtain ⟨-, hErrors, -⟩ := hRest s ⟨rfl, rfl, 0, hs.2.shows⟩
    refine hErrors.trans ?_
    rw [hLog, Program.loweringErrors, declErrors_decls]
    rfl

end Lowering

/-- Lowering a program whose names and kinds are in order always gives a listing, and it reports
just the errors of the program: for each procedure whose frame is too large that alone, and
otherwise at most one for each statement that is reached. There are none just if all that the
program asks for is supported. -/
theorem lowering_reports_errors {program : Program} (stackWords : Nat)
    (hNames : nameErrors program = []) (hKinds : (checkKinds program).2.reports = []) :
    (∃ lines, (lowerFrom .initial stackWords program).1 = .ok lines) ∧
      (lowerFrom .initial stackWords program).2.errors = program.loweringErrors ∧
      ((lowerFrom .initial stackWords program).2.errors = [] ↔ program.Supported) := by
  have hNamed := Program.wellNamed_of_nameErrors hNames
  have hKinded := hNamed.checkKinds.2 hKinds
  have hErrors : (lowerFrom .initial stackWords program).2.errors = program.loweringErrors :=
    errors_lowerProgram stackWords hNamed hKinded
  refine ⟨lowerFrom_ok stackWords hNames hKinds, hErrors, ?_⟩
  rw [hErrors]
  exact Program.loweringErrors_eq_nil_iff

def crowded : ProcDecl :=
  let word := Ident.mk "long" .nowhere
  ⟨⟨"crowded", .nowhere⟩, [],
    (List.range 128).map fun n => ⟨⟨"v" ++ toString n, .nowhere⟩, word, false⟩, ⟨[], .nowhere⟩⟩

def flawedText : String :=
  "var g: long; procedure p(a: integer);
   begin if a * 70000 then a := 2 * 2; a := 70000 - g / 2 end;
   begin if 1 then g := 2 * 70000 else p(); make_bcd(70000 - g * 2) end."

/-- A program with every kind of mistake, and two conditions of which only one can be lowered. -/
def flawed : Program :=
  { (parse flawedText).1 with decls := .proc crowded :: (parse flawedText).1.decls }

set_option maxRecDepth 1000 in
theorem flawed_reports_errors : nameErrors flawed = [] ∧ (checkKinds flawed).2.reports = [] ∧
    (∃ lines, (lowerFrom .initial 0 flawed).1 = .ok lines) ∧
    (lowerFrom .initial 0 flawed).2.errors.map (·.code) =
      ["E0301", "E0206", "E0206", "E0205", "E0204", "E0206"] ∧ ¬ flawed.Supported := by
  have hTest : nameErrors flawed = [] ∧ (checkKinds flawed).2.reports = [] ∧
      flawed.loweringErrors.map (·.code) =
        ["E0301", "E0206", "E0206", "E0205", "E0204", "E0206"] := by
    rw [flawed, show parse flawedText = _ from parse_ofList _]
    decide +kernel
  obtain ⟨hNames, hKinds, hCodes⟩ := hTest
  obtain ⟨hLines, hErrors, hNone⟩ := lowering_reports_errors 0 hNames hKinds
  rw [← hErrors] at hCodes
  refine ⟨hNames, hKinds, hLines, hCodes, fun hSupported => ?_⟩
  rw [hNone.mpr hSupported] at hCodes
  cases hCodes

end ChipPascal
