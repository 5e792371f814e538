import ChipPascal.Proofs.CallingConvention
import ChipPascal.Proofs.Safety

/-!
# Where stores go

The instruction that points the index register at something stands close above each one that writes
to memory, with nothing in between that control could come in at. So it can be read off the listing
where a store goes: to the stack, to one of the zones for decimal digits, or to the word of a global
variable, and then it is the store of an assignment to that variable.
-/

namespace ChipPascal

open Lowering Line

/-! ### What the index register points at -/

inductive Pointer where
  | anywhere
  | label (l : Label)
  /-- A byte of the stack that a register can count. -/
  | stack

def Pointer.add : Pointer → Pointer
  | label .stackZone => stack
  | _ => anywhere

def Instr.pointer (p : Pointer) : Instr → Pointer
  | index l => .label l
  | addIndex _ => p.add
  | indexByte _ | glyph _ | jump _ | call _ | ret => .anywhere
  | set .. | copy .. | save _ | load _ | decimal _ | add .. | addByte .. | sub .. | xor .. | or ..
  | skipNe .. | cls | breakpoint | draw .. => p

/-- Control may come to a label from elsewhere. -/
def Line.pointer (p : Pointer) : Line → Pointer
  | .instr i _ => i.pointer p
  | .label _ | .word => .anywhere
  | .blank | .remark _ => p

/-- After these lines the index register points there, whatever it was before. -/
def Aimed (lines : List Line) (p : Pointer) : Prop := ∀ q, lines.foldl Line.pointer q = p

theorem Aimed.append {a b : List Line} {p : Pointer} (h : Aimed b p) : Aimed (a ++ b) p := by
  intro q
  rw [List.foldl_append]
  exact h _

/-! ### Instructions that write -/

def Instr.writes : Instr → Bool
  | save _ | decimal _ => true
  | set .. | copy .. | indexByte _ | index _ | load _ | glyph _ | addIndex _ | add .. | addByte ..
  | sub .. | xor .. | or .. | skipNe .. | jump _ | call _ | ret | cls | breakpoint
  | draw .. => false

def Line.writes : Line → Bool
  | .instr i _ => i.writes
  | .label _ | .word | .blank | .remark _ => false

def isQuiet (lines : List Line) : Bool := lines.all (!·.writes)

/-- What is written by an instruction between `pre` and the end of `rest`, with which `rest` begins,
is known; where it is the word of a global variable, `Q` holds of its name and the place. -/
inductive WriteKnown (Q : String → List Line → List Line → Prop) (pre rest : List Line) :
    Instr → Prop
  | quiet {i : Instr} : i.writes = false → WriteKnown Q pre rest i
  | stack {x : Reg} : x.val ≤ 1 → Aimed pre .stack → WriteKnown Q pre rest (.save x)
  | global {x : Reg} {name : String} : x.val ≤ 1 → Aimed pre (.label (.global name)) →
      Q name pre rest → WriteKnown Q pre rest (.save x)
  | digits {x : Reg} {l : Label} : l = .bcdLow ∨ l = .bcdHigh → Aimed pre (.label l) →
      WriteKnown Q pre rest (.decimal x)

def WellAimed (Q : String → List Line → List Line → Prop) (lines : List Line) : Prop :=
  ∀ pre i note rest, lines = pre ++ .instr i note :: rest →
    WriteKnown Q pre (.instr i note :: rest) i

/-- `Q` is about a place and does not depend on how far one looks around. -/
def IsLocal (Q : String → List Line → List Line → Prop) : Prop :=
  ∀ name pre rest a b, Q name pre rest → Q name (a ++ pre) (rest ++ b)

section

variable {Q R : String → List Line → List Line → Prop} {a b : List Line}

/-- What is known of a write does not change if more lines stand around it. -/
theorem WriteKnown.extend (hQ : IsLocal Q) {pre rest : List Line} {i : Instr}
    (h : WriteKnown Q pre rest i) (a b : List Line) : WriteKnown Q (a ++ pre) (rest ++ b) i := by
  cases h with
  | quiet h => exact .quiet h
  | stack hx h => exact .stack hx h.append
  | global hx h hPlace => exact .global hx h.append (hQ _ _ _ a b hPlace)
  | digits hl h => exact .digits hl h.append

theorem WriteKnown.mono {pre rest : List Line} {i : Instr} (h : WriteKnown Q pre rest i)
    (hQ : ∀ name, Q name pre rest → R name pre rest) : WriteKnown R pre rest i := by
  cases h with
  | quiet h => exact .quiet h
  | stack hx h => exact .stack hx h
  | global hx h hPlace => exact .global hx h (hQ _ hPlace)
  | digits hl h => exact .digits hl h

theorem wellAimed_of_isQuiet (h : isQuiet a = true) : WellAimed Q a := by
  intro pre i note rest hLines
  have hLine := List.all_eq_true.mp h (.instr i note) (by simp [hLines])
  exact .quiet (by simpa [Line.writes] using hLine)

theorem WellAimed.append (hQ : IsLocal Q) (ha : WellAimed Q a) (hb : WellAimed Q b) :
    WellAimed Q (a ++ b) := by
  intro pre i note rest hLines
  rcases List.append_eq_append_iff.mp hLines with ⟨c, rfl, hb'⟩ | ⟨c, ha', hRest⟩
  · have hCovered := (hb c i note rest hb').extend hQ a []
    rwa [List.append_nil] at hCovered
  · cases c with
    | nil =>
      have hCovered := (hb [] i note rest hRest.symm).extend hQ a []
      simpa [ha'] using hCovered
    | cons line c =>
      obtain ⟨rfl, rfl⟩ := List.cons.inj hRest
      exact (ha pre i note c ha').extend hQ [] b

/-- Lines of which the last one is covered by those before it. -/
theorem WellAimed.snoc (hQ : IsLocal Q) (ha : WellAimed Q a) {i : Instr} {note : Option String}
    (hi : WriteKnown Q a (.instr i note :: b) i) (hb : isQuiet b = true) :
    WellAimed Q (a ++ .instr i note :: b) := by
  intro pre j note' rest hLines
  rcases List.append_eq_append_iff.mp hLines with ⟨c, rfl, hRest⟩ | ⟨c, ha', hRest⟩
  · cases c with
    | nil =>
      obtain ⟨hSame, rfl⟩ := List.cons.inj hRest
      cases hSame
      simpa using hi
    | cons line c =>
      obtain ⟨-, hb'⟩ := List.cons.inj hRest
      have hCovered := (wellAimed_of_isQuiet (Q := Q) hb c j note' rest hb').extend hQ
        (a ++ [line]) []
      simpa using hCovered
  · cases c with
    | nil =>
      obtain ⟨hSame, rfl⟩ := List.cons.inj hRest
      cases hSame
      simpa [ha'] using hi
    | cons line c =>
      obtain ⟨rfl, rfl⟩ := List.cons.inj hRest
      exact (ha pre j note' c ha').extend hQ [] (.instr i note :: b)

theorem isQuiet_append : isQuiet (a ++ b) = (isQuiet a && isQuiet b) := List.all_append

end

/-! ### Expressions and calls -/

def storeSetup (type : ValueType) : List Line :=
  [plain (.copy .loadLow .accLow)]
    ++ (if type.isWide then [plain (.copy .loadHigh .accHigh)] else [])

theorem storeAccumulator_eq (type : ValueType) :
    storeAccumulator type = storeSetup type ++ [plain (.save (.bulk type.size))] := rfl

theorem bulk_le (type : ValueType) : (Reg.bulk type.size).val ≤ 1 := by
  cases type <;> decide

section

variable {Q : String → List Line → List Line → Prop} {env : Env} {mode : Mode} {wide : Bool}
  {last last' : UInt8} {lines : List Line}

theorem isQuiet_address {name note : String} {isGlobal : Bool}
    (h : AddressCode env.slots name note isGlobal last lines last') : isQuiet lines = true := by
  cases h with
  | global last => rfl
  | slot last offset hOffset => split <;> rfl

theorem isQuiet_readVar (isWide : Bool) : isQuiet (readVar mode wide isWide) = true := by
  cases mode <;> cases wide <;> cases isWide <;> rfl

theorem isQuiet_literal (value : UInt16) : isQuiet (literal mode wide value) = true := by
  cases mode <;> cases wide <;> rfl

theorem isQuiet_unaryCode (op : UnaryOp) : isQuiet (unaryCode op wide) = true := by
  cases op <;> cases wide <;> rfl

theorem isQuiet_reload : isQuiet (reload mode wide) = true := by
  cases mode <;> cases wide <;> rfl

theorem isQuiet_settleCode (last : UInt8) : isQuiet (settleCode last) = true := by
  unfold settleCode
  split <;> rfl

theorem isQuiet_storeSetup (type : ValueType) : isQuiet (storeSetup type) = true := by
  cases type <;> rfl

theorem wellAimed_spill (hQ : IsLocal Q) : WellAimed Q (spill wide) := by
  cases wide with
  | false =>
    exact WellAimed.snoc hQ (a := [noted (.copy .loadLow .accLow) "spill left operand",
      plain (.index .stackZone), plain (.addIndex .stack)]) (wellAimed_of_isQuiet rfl)
      (.stack (by decide) fun _ => rfl) rfl
  | true =>
    exact WellAimed.snoc hQ (a := [noted (.copy .loadLow .accLow) "spill left operand",
      plain (.copy .loadHigh .accHigh), plain (.index .stackZone), plain (.addIndex .stack)])
      (wellAimed_of_isQuiet rfl) (.stack (by decide) fun _ => rfl) rfl

/-- Evaluating an expression writes to the stack only. -/
theorem wellAimed_expr (hQ : IsLocal Q) {e : Expr} (h : ExprCode env mode wide e last lines last') :
    WellAimed Q lines := by
  induction h with
  | ref hInfo hAddress =>
    exact (wellAimed_of_isQuiet (isQuiet_address hAddress)).append hQ
      (wellAimed_of_isQuiet (isQuiet_readVar _))
  | int hRead => exact wellAimed_of_isQuiet (isQuiet_literal _)
  | unary hOperand ih => exact ih.append hQ (wellAimed_of_isQuiet (isQuiet_unaryCode _))
  | fused hOp hLeaf hLeft hRight ihLeft ihRight => exact ihLeft.append hQ ihRight
  | spilled hOp hLeaf hLeft hRight ihLeft ihRight =>
    exact ihLeft.append hQ ((wellAimed_spill hQ).append hQ
      (ihRight.append hQ (wellAimed_of_isQuiet isQuiet_reload)))

theorem wellAimed_args (hQ : IsLocal Q) {args : List (Expr × ValueType)}
    (h : ArgsCode env args last lines last') : WellAimed Q lines := by
  induction h with
  | nil last => exact wellAimed_of_isQuiet rfl
  | @cons arg type rest last first last₁ second last₂ hArg hRest ih =>
    refine (wellAimed_expr hQ hArg).append hQ (WellAimed.append hQ ?_ ih)
    have hAim : Aimed ([plain (.index .stackZone), plain (.addIndex .stack)] ++ storeSetup type)
        .stack := by
      intro q
      cases type <;> rfl
    have hQuiet : isQuiet ([plain (.index .stackZone), plain (.addIndex .stack)] ++
        storeSetup type) = true := by
      cases type <;> rfl
    have hStage : WellAimed Q (([plain (.index .stackZone), plain (.addIndex .stack)] ++
        storeSetup type) ++ [plain (.save (.bulk type.size)), plain (.addByte .stack type.size)]) :=
      .snoc hQ (wellAimed_of_isQuiet hQuiet) (.stack (bulk_le type) hAim) rfl
    simpa [storeAccumulator_eq] using hStage

theorem wellAimed_bcdCode (hQ : IsLocal Q) : WellAimed Q bcdCode := by
  have hLow : WellAimed Q ([noted (.index .bcdLow) "make_bcd"] ++ [plain (.decimal .accLow)]) :=
    .snoc hQ (wellAimed_of_isQuiet rfl) (.digits (.inl rfl) fun _ => rfl) rfl
  have hHigh : WellAimed Q ([plain (.index .bcdHigh)] ++ [plain (.decimal .accHigh)]) :=
    .snoc hQ (wellAimed_of_isQuiet rfl) (.digits (.inr rfl) fun _ => rfl) rfl
  exact hLow.append hQ hHigh

/-- A call writes to the stack and the digit zones only. -/
theorem wellAimed_call (hQ : IsLocal Q) {name : Ident} {args : List Expr}
    (h : CallCode env name last args lines last') : WellAimed Q lines := by
  cases h with
  | bcd hName hArg =>
    exact (wellAimed_expr hQ hArg).append hQ
      ((wellAimed_bcdCode hQ).append hQ (wellAimed_of_isQuiet rfl))
  | @intrinsic intrinsic hName hOther =>
    refine wellAimed_of_isQuiet ?_
    cases intrinsic <;> rfl
  | user hName hProc hCount hArgs =>
    exact WellAimed.append hQ (wellAimed_of_isQuiet rfl)
      ((wellAimed_args hQ hArgs).append hQ (wellAimed_of_isQuiet rfl))

theorem wellAimed_cond (hQ : IsLocal Q) {cond : Expr} {l : Label}
    (h : CondCode env cond l last lines) : WellAimed Q lines := by
  obtain ⟨hCond⟩ := h
  have hTest : ∀ wide, isQuiet (testCode wide l) = true := by
    intro wide
    cases wide <;> rfl
  exact (wellAimed_expr hQ hCond).append hQ
    ((wellAimed_of_isQuiet (isQuiet_settleCode _)).append hQ (wellAimed_of_isQuiet (hTest _)))

end

/-! ### Assignments -/

mutual

def Stmt.assigns : Stmt → List (Ident × Expr)
  | .block stmts _ => assignsIn stmts
  | .assign target value => [(target, value)]
  | .call _ _ => []
  | .ifThen _ yes _ => yes.assigns
  | .ifElse _ yes no _ => yes.assigns ++ no.assigns

def assignsIn : List Stmt → List (Ident × Expr)
  | [] => []
  | stmt :: stmts => stmt.assigns ++ assignsIn stmts

end

def EndsAssign (env : Env) (target : Ident) (value : Expr) (pre rest : List Line) : Prop :=
  ∃ before code x after last n last',
    pre = before ++ code ∧ rest = plain (.save x) :: blank :: after ∧
      StmtCode env (.assign target value) last n (code ++ [plain (.save x), blank]) last' n

/-- One of the assignments is to the global variable `name`, and its store stands here. -/
def StoresGlobal (env : Env) (assigns : List (Ident × Expr)) (name : String)
    (pre rest : List Line) : Prop :=
  ∃ target value info, (target, value) ∈ assigns ∧ target.name = name ∧
    env.look name = some (.var info) ∧ info.isGlobal = true ∧ EndsAssign env target value pre rest

section

variable {env : Env} {assigns : List (Ident × Expr)}

theorem isLocal_storesGlobal : IsLocal (StoresGlobal env assigns) := by
  rintro name pre rest a b ⟨target, value, info, hMem, hName, hLook, hGlobal,
    before, code, x, after, last, n, last', rfl, rfl, hCode⟩
  exact ⟨target, value, info, hMem, hName, hLook, hGlobal, a ++ before, code, x, after ++ b, last,
    n, last', by simp, rfl, hCode⟩

/-- The one write of an assignment to a global is to its target. -/
theorem wellAimed_assign {target : Ident} {value : Expr} {last last' : UInt8} {n n' : Nat}
    {lines : List Line} (h : StmtCode env (.assign target value) last n lines last' n')
    (hMem : (target, value) ∈ assigns) : WellAimed (StoresGlobal env assigns) lines := by
  have hCode := h
  cases h with
  | @assign _ _ info _ _ first last₁ second _ hInfo hValue hAddress =>
  have hLines : first ++ (second ++ (storeAccumulator info.type ++ [blank])) =
      (first ++ (second ++ storeSetup info.type)) ++
        [plain (.save (.bulk info.type.size)), blank] := by
    simp [storeAccumulator_eq]
  rw [hLines] at hCode ⊢
  have hBefore : WellAimed (StoresGlobal env assigns)
      (first ++ (second ++ storeSetup info.type)) := by
    refine (wellAimed_expr isLocal_storesGlobal hValue).append isLocal_storesGlobal ?_
    refine wellAimed_of_isQuiet ?_
    rw [isQuiet_append, isQuiet_address hAddress, isQuiet_storeSetup]
    rfl
  refine hBefore.snoc isLocal_storesGlobal ?_ rfl
  generalize hGlobal : info.isGlobal = isGlobal at hAddress
  cases hAddress with
  | global last =>
    have hAim : Aimed ([noted (.index (.global target.name)) ("assign " ++ target.name)] ++
        storeSetup info.type) (.label (.global target.name)) := by
      intro q
      cases info.type <;> rfl
    exact .global (bulk_le _) hAim.append ⟨target, value, info, hMem, rfl, hInfo, hGlobal,
      [], _, _, [], _, _, _, rfl, rfl, hCode⟩
  | slot last offset hOffset =>
    refine .stack (bulk_le _) (Aimed.append ?_)
    intro q
    cases info.type <;> split <;> rfl

mutual

/-- Each write to a global in the code of a statement comes from an assignment in it. -/
theorem wellAimed_stmt (stmt : Stmt) {last last' : UInt8} {n n' : Nat} {lines : List Line}
    (h : StmtCode env stmt last n lines last' n') (hMem : ∀ a ∈ stmt.assigns, a ∈ assigns) :
    WellAimed (StoresGlobal env assigns) lines := by
  cases stmt with
  | block stmts span =>
    cases h with
    | block h => exact wellAimed_stmts stmts h hMem
  | assign target value => exact wellAimed_assign h (hMem _ List.mem_cons_self)
  | call name args =>
    cases h with
    | call h => exact wellAimed_call isLocal_storesGlobal h
  | ifThen cond yes span =>
    cases h with
    | ifThen hCond hYes =>
    exact (wellAimed_cond isLocal_storesGlobal hCond).append isLocal_storesGlobal
      ((wellAimed_stmt yes hYes hMem).append isLocal_storesGlobal
        ((wellAimed_of_isQuiet (isQuiet_settleCode _)).append isLocal_storesGlobal
          (wellAimed_of_isQuiet rfl)))
  | ifElse cond yes no span =>
    cases h with
    | ifElse hCond hYes hNo =>
    have hFirst := wellAimed_stmt yes hYes fun a ha => hMem a (List.mem_append_left _ ha)
    have hSecond := wellAimed_stmt no hNo fun a ha => hMem a (List.mem_append_right _ ha)
    exact (wellAimed_cond isLocal_storesGlobal hCond).append isLocal_storesGlobal
      (hFirst.append isLocal_storesGlobal
        ((wellAimed_of_isQuiet (isQuiet_settleCode _)).append isLocal_storesGlobal
          (WellAimed.append isLocal_storesGlobal (wellAimed_of_isQuiet rfl)
            (hSecond.append isLocal_storesGlobal
              ((wellAimed_of_isQuiet (isQuiet_settleCode _)).append isLocal_storesGlobal
                (wellAimed_of_isQuiet rfl))))))

theorem wellAimed_stmts (stmts : List Stmt) {last last' : UInt8} {n n' : Nat} {lines : List Line}
    (h : StmtsCode env stmts last n lines last' n') (hMem : ∀ a ∈ assignsIn stmts, a ∈ assigns) :
    WellAimed (StoresGlobal env assigns) lines := by
  cases stmts with
  | nil =>
    cases h
    exact wellAimed_of_isQuiet rfl
  | cons stmt stmts =>
    cases h with
    | cons hStmt hStmts =>
    exact (wellAimed_stmt stmt hStmt fun a ha => hMem a (List.mem_append_left _ ha)).append
      isLocal_storesGlobal
      (wellAimed_stmts stmts hStmts fun a ha => hMem a (List.mem_append_right _ ha))

end

end

/-! ### Listings -/

/-- Between `pre` and `rest`, in the code of one of the bodies of the program, stands the store of
an assignment of that body to the global variable `name`. -/
def StoresFrom (program : Program) (name : String) (pre rest : List Line) : Prop :=
  ∃ vars stmts before start stop after n last n',
    (vars, stmts) ∈ program.bodies ∧ pre = before ++ start ∧ rest = stop ++ after ∧
      StmtsCode (program.env vars) stmts 0 n (start ++ stop) last n' ∧
      StoresGlobal (program.env vars) (assignsIn stmts) name start stop

section

variable {program : Program} {stackWords : Nat} {lines : List Line}

theorem isLocal_storesFrom : IsLocal (StoresFrom program) := by
  rintro name pre rest a b ⟨vars, stmts, before, start, stop, after, n, last, n', hBody, rfl, rfl,
    hCode, hStores⟩
  exact ⟨vars, stmts, a ++ before, start, stop, after ++ b, n, last, n', hBody, by simp, by simp,
    hCode, hStores⟩

theorem wellAimed_body {vars : List VarDecl} {stmts : List Stmt} {n n' : Nat} {last : UInt8}
    (hBody : (vars, stmts) ∈ program.bodies)
    (h : StmtsCode (program.env vars) stmts 0 n lines last n') :
    WellAimed (StoresFrom program) lines := by
  intro pre i note rest hLines
  refine (wellAimed_stmts stmts h (fun _ ha => ha) pre i note rest hLines).mono ?_
  intro name hStores
  exact ⟨vars, stmts, [], pre, _, [], n, last, n', hBody, rfl, by simp, hLines ▸ h, hStores⟩

theorem wellAimed_enterFrame (size : UInt8) : WellAimed (StoresFrom program) (enterFrame size) := by
  have hQuiet : isQuiet ([plain (.addByte .stack 1), plain (.copy .base .stack)] ++
      ((if size = 0 then [] else [plain (.addByte .stack size)]) ++ [blank])) = true := by
    split <;> rfl
  have hEnter : WellAimed (StoresFrom program)
      ([noted (.index .stackZone) "block start", plain (.addIndex .stack),
        plain (.copy .loadLow .base)] ++ plain (.save .loadLow) ::
          ([plain (.addByte .stack 1), plain (.copy .base .stack)] ++
            ((if size = 0 then [] else [plain (.addByte .stack size)]) ++ [blank]))) :=
    .snoc isLocal_storesFrom (wellAimed_of_isQuiet rfl) (.stack (by decide) fun _ => rfl) hQuiet
  simpa [enterFrame] using hEnter

theorem wellAimed_proc {proc : ProcDecl} {n n' : Nat} (hProc : .proc proc ∈ program.decls)
    (h : ProcCode program proc n lines n') : WellAimed (StoresFrom program) lines := by
  obtain ⟨hSize, hBody⟩ := h
  next body last =>
  have hMem : (proc.vars, proc.body.stmts) ∈ program.bodies :=
    List.mem_cons_of_mem _ (List.mem_map.mpr ⟨proc, Program.mem_procs.mpr hProc, rfl⟩)
  have hLabel : WellAimed (StoresFrom program) [.label (.procedure proc.name.name)] :=
    wellAimed_of_isQuiet rfl
  exact hLabel.append isLocal_storesFrom ((wellAimed_enterFrame _).append isLocal_storesFrom
    ((wellAimed_body hMem hBody).append isLocal_storesFrom
      ((wellAimed_of_isQuiet (isQuiet_settleCode _)).append isLocal_storesFrom
        (wellAimed_of_isQuiet rfl))))

theorem wellAimed_decls {decls : List Decl} {n n' : Nat}
    (hSub : ∀ decl ∈ decls, decl ∈ program.decls) (h : DeclsCode program decls n lines n') :
    WellAimed (StoresFrom program) lines := by
  induction h with
  | nil n => exact wellAimed_of_isQuiet rfl
  | var h ih => exact ih fun decl hDecl => hSub decl (List.mem_cons_of_mem _ hDecl)
  | proc hProc hDecls ih =>
    exact (wellAimed_proc (hSub _ List.mem_cons_self) hProc).append isLocal_storesFrom
      (ih fun decl hDecl => hSub decl (List.mem_cons_of_mem _ hDecl))

theorem isQuiet_dataSection (globals : List String) (stackWords : Nat) :
    isQuiet (dataSection globals stackWords) = true := by
  refine List.all_eq_true.mpr fun line hLine => ?_
  cases line with
  | instr i note => exact absurd hLine (instr_not_mem_dataSection i note)
  | label | word | blank | remark => rfl

/-- Where every store of a compiled listing goes is known. -/
theorem ProgramCode.wellAimed (h : ProgramCode program stackWords lines) :
    WellAimed (StoresFrom program) lines := by
  obtain ⟨hDecls, hMain⟩ := h
  next decls branches main last n' =>
  have hPreamble : WellAimed (StoresFrom program) (preamble program.name.name) :=
    wellAimed_of_isQuiet rfl
  have hEntry : WellAimed (StoresFrom program) [.label .entry] := wellAimed_of_isQuiet rfl
  have hFinish : WellAimed (StoresFrom program) finishCode := wellAimed_of_isQuiet rfl
  exact hPreamble.append isLocal_storesFrom
    ((wellAimed_decls (fun _ h => h) hDecls).append isLocal_storesFrom
      (hEntry.append isLocal_storesFrom
        ((wellAimed_body List.mem_cons_self hMain).append isLocal_storesFrom
          ((wellAimed_of_isQuiet (isQuiet_settleCode _)).append isLocal_storesFrom
            (hFinish.append isLocal_storesFrom
              (wellAimed_of_isQuiet (isQuiet_dataSection _ _)))))))

end

end ChipPascal
