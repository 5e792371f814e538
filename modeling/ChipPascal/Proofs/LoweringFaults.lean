import ChipPascal.Lowering.Program
import ChipPascal.Proofs.FrameLayout
import ChipPascal.Proofs.KindCheck

/-!
# Faults of lowering

Lowering a well-named program can only fault where a name is used as what it is not. Mistakes of
the user may give up statements on the way: what the lowering of one statement leaves behind is as
good for the next one, whether it was given up or not.
-/

namespace ChipPascal

open Lowering

namespace Lower

variable {ε α β : Type} {I J K : State → Prop} {E : ε → Prop} {Q : α → Prop}

theorem bind_of_ok {x : Lower ε α} {s : State} {a : α} (h : (x s).value = .ok a)
    (f : α → Lower ε β) :
    (x >>= f) s =
      ⟨(x s).lines ++ (f a (x s).state).lines, (f a (x s).state).state,
        (f a (x s).state).value⟩ := by
  show Lower.bind x f s = _
  simp only [Lower.bind, h]

theorem bind_of_error {x : Lower ε α} {s : State} {e : ε} (h : (x s).value = .error e)
    (f : α → Lower ε β) : (x >>= f) s = ⟨(x s).lines, (x s).state, .error e⟩ := by
  show Lower.bind x f s = _
  simp only [Lower.bind, h]

theorem attempt_of_ok {x : Lower Stop Unit} {s : State} (h : (x s).value = .ok ()) :
    attempt x s = ⟨(x s).lines, (x s).state, .ok ()⟩ := by
  simp only [attempt, h]

/-- A mistake ends its statement: what was written stays, the mistake is kept and lowering goes on.
-/
theorem attempt_of_user {x : Lower Stop Unit} {s : State} {e : Error}
    (h : (x s).value = .error (.user e)) :
    attempt x s =
      ⟨(x s).lines, { (x s).state with errors := (x s).state.errors ++ [e] }, .ok ()⟩ := by
  simp only [attempt, h]

theorem attempt_of_fault {x : Lower Stop Unit} {s : State} {f : Fault}
    (h : (x s).value = .error (.fault f)) :
    attempt x s = ⟨(x s).lines, (x s).state, .error f⟩ := by
  simp only [attempt, h]

/-- From a state with `I` the step ends in one with `I`, whether it stops or not. The values that
it gives satisfy `Q`, and what it stops for satisfies `E`. -/
def Keeps (I : State → Prop) (E : ε → Prop) (Q : α → Prop) (x : Lower ε α) : Prop :=
  ∀ s, I s →
    I (x s).state ∧ (∀ a, (x s).value = .ok a → Q a) ∧ ∀ e, (x s).value = .error e → E e

theorem keeps_pure {a : α} (h : Q a) : Keeps I E Q (Pure.pure a : Lower ε α) := by
  intro s hs
  refine ⟨hs, ?_, ?_⟩
  · rintro b ⟨⟩
    exact h
  · rintro e ⟨⟩

/-- What is kept up to a step, and by all that follows, is kept by both. -/
theorem Keeps.bind {R : β → Prop} {x : Lower ε α} {f : α → Lower ε β} (hx : Keeps I E Q x)
    (hf : ∀ a, Q a → Keeps I E R (f a)) : Keeps I E R (x >>= f) := by
  intro s hs
  obtain ⟨hState, hValue, hStop⟩ := hx s hs
  cases h : (x s).value with
  | error e =>
    rw [bind_of_error h]
    exact ⟨hState, by rintro b ⟨⟩, by rintro e' ⟨⟩; exact hStop e h⟩
  | ok a =>
    rw [bind_of_ok h]
    exact hf a (hValue a h) _ hState

theorem keeps_emit (lines : List Line) : Keeps I E (fun _ => True) (emit lines : Lower ε Unit) :=
  fun _ hs => ⟨hs, fun _ _ => trivial, by rintro e ⟨⟩⟩

theorem keeps_stop {e : ε} (h : E e) : Keeps I E Q (stop e : Lower ε α) :=
  fun _ hs => ⟨hs, by rintro a ⟨⟩, by rintro e ⟨⟩; exact h⟩

theorem keeps_state : Keeps I E I (state : Lower ε State) :=
  fun _ hs => ⟨hs, by rintro a ⟨⟩; exact hs, by rintro e ⟨⟩⟩

theorem keeps_update {f : State → State} (h : ∀ s, I s → I (f s)) :
    Keeps I E (fun _ => True) (update f : Lower ε Unit) :=
  fun s hs => ⟨h s hs, fun _ _ => trivial, by rintro e ⟨⟩⟩

/-- Mistakes are always allowed, faults only as `allowed` says. -/
def stopAllowed (allowed : Fault → Prop) : Stop → Prop
  | .user _ => True
  | .fault fault => allowed fault

theorem Keeps.lift {allowed : Fault → Prop} {x : Lower Fault α} (hx : Keeps I allowed Q x) :
    Keeps I (stopAllowed allowed) Q (liftM x : Lower Stop α) := by
  intro s hs
  obtain ⟨hState, hValue, hStop⟩ := hx s hs
  have hLift : (liftM x : Lower Stop α) s =
      ⟨(x s).lines, (x s).state, (x s).value.mapError .fault⟩ := rfl
  rw [hLift]
  refine ⟨hState, ?_, ?_⟩
  · intro a ha
    cases h : (x s).value with
    | error e =>
      rw [h] at ha
      cases ha
    | ok b =>
      rw [h] at ha
      cases ha
      exact hValue _ h
  · intro e he
    cases h : (x s).value with
    | ok b =>
      rw [h] at he
      cases he
    | error fault =>
      rw [h] at he
      cases he
      exact hStop _ h

/-- A statement that is given up keeps what does not depend on the mistakes. -/
theorem Keeps.attempt {allowed : Fault → Prop} {x : Lower Stop Unit}
    (hx : Keeps I (stopAllowed allowed) (fun _ => True) x)
    (hErrors : ∀ s errors, I s → I { s with errors := errors }) :
    Keeps I allowed (fun _ => True) (attempt x) := by
  intro s hs
  obtain ⟨hState, -, hStop⟩ := hx s hs
  cases h : (x s).value with
  | ok a =>
    rw [attempt_of_ok h]
    exact ⟨hState, fun _ _ => trivial, by rintro e ⟨⟩⟩
  | error e =>
    cases e with
    | user error =>
      rw [attempt_of_user h]
      exact ⟨hErrors _ _ hState, fun _ _ => trivial, by rintro e ⟨⟩⟩
    | fault fault =>
      rw [attempt_of_fault h]
      exact ⟨hState, fun _ _ => trivial, by rintro e ⟨⟩; exact hStop _ h⟩

/-- From a state with `I` the step leads to one with `J`, or stops with a fault that is
allowed. -/
def Leads (I J : State → Prop) (allowed : Fault → Prop) (x : Lower Fault α) : Prop :=
  ∀ s, I s →
    (∀ a, (x s).value = .ok a → J (x s).state) ∧ ∀ f, (x s).value = .error f → allowed f

variable {allowed : Fault → Prop}

theorem Keeps.leads {x : Lower Fault α} (h : Keeps I allowed Q x) : Leads I I allowed x :=
  fun s hs => ⟨fun _ _ => (h s hs).1, (h s hs).2.2⟩

theorem Leads.bind {x : Lower Fault α} {f : α → Lower Fault β} (hx : Leads I J allowed x)
    (hf : ∀ a, Leads J K allowed (f a)) : Leads I K allowed (x >>= f) := by
  intro s hs
  obtain ⟨hState, hStop⟩ := hx s hs
  cases h : (x s).value with
  | error e =>
    rw [bind_of_error h]
    exact ⟨by rintro b ⟨⟩, by rintro e' ⟨⟩; exact hStop e h⟩
  | ok a =>
    rw [bind_of_ok h]
    exact hf a _ (hState a h)

theorem leads_update {f : State → State} (h : ∀ s, I s → J (f s)) :
    Leads I J allowed (update f) :=
  fun s hs => ⟨fun _ _ => h s hs, by rintro e ⟨⟩⟩

theorem leads_emit (lines : List Line) : Leads I I allowed (emit lines) :=
  (keeps_emit lines).leads

end Lower

namespace Lowering

open Lower

/-! ### Bodies -/

variable {syms : Symbols} {slots : List Slot} {block : Nat} {allowed : Fault → Prop}

def AtBody (syms : Symbols) (block : Nat) (slots : List Slot) (s : State) : Prop :=
  s.symbols = syms ∧ s.frames.active = block ∧ ∃ last, s.frames.Shows slots last

/-- No variable lives in a register, every local one has its slot, and intrinsics are what they were
from the start. -/
structure Furnished (look : String → Option Symbol) (slots : List Slot) : Prop where
  unpinned : ∀ name info r, look name = some (.var info) → info.storage ≠ .register r
  slot : ∀ name info, look name = some (.var info) → info.isGlobal = false →
    name ∈ slots.map (·.name)
  intrinsic : ∀ name params intrinsic, look name = some (.proc params) →
    Intrinsic.ofName? name = some intrinsic → params = intrinsic.params

/-- The name is a variable, or using it as one is an allowed fault. -/
def ReadableOr (allowed : Fault → Prop) (look : String → Option Symbol) (name : String) : Prop :=
  Known look name ∧ (Readable look name ∨ allowed (.notAVariable name))

def CallableOr (allowed : Fault → Prop) (look : String → Option Symbol) (name : String) : Prop :=
  Known look name ∧ (Callable look name ∨ allowed (.notAProcedure name))

def LowerableBody (allowed : Fault → Prop) (look : String → Option Symbol)
    (stmts : List Stmt) : Prop :=
  StmtsUse (ReadableOr allowed look) (ReadableOr allowed look) (CallableOr allowed look) stmts

theorem varInfo_cases {name : Ident} (h : ReadableOr allowed syms.get? name.name) :
    (∃ info, varInfo syms name = .ok info ∧ syms.get? name.name = some (.var info)) ∨
      ∃ fault, varInfo syms name = .error fault ∧ allowed fault := by
  obtain ⟨symbol, hSymbol⟩ := Option.isSome_iff_exists.mp h.1
  unfold varInfo
  cases symbol with
  | var info => exact .inl ⟨info, by simp [hSymbol], hSymbol⟩
  | proc params =>
    rcases h.2 with ⟨info, hInfo⟩ | hAllowed
    · simp [hSymbol] at hInfo
    · exact .inr ⟨_, by simp only [hSymbol], hAllowed⟩
  | type type =>
    rcases h.2 with ⟨info, hInfo⟩ | hAllowed
    · simp [hSymbol] at hInfo
    · exact .inr ⟨_, by simp only [hSymbol], hAllowed⟩

theorem keeps_variableInfo {name : Ident} (h : ReadableOr allowed syms.get? name.name) :
    Keeps (AtBody syms block slots) allowed (fun info => syms.get? name.name = some (.var info))
      (variableInfo name) := by
  refine keeps_state.bind fun s hs => ?_
  rw [hs.1]
  rcases varInfo_cases h with ⟨info, hInfo, hGet⟩ | ⟨fault, hFault, hAllowed⟩
  · rw [hInfo]
    exact keeps_pure hGet
  · rw [hFault]
    exact keeps_stop hAllowed

/-- Pointing at a variable that is found is no fault: its slot is in the frame. -/
theorem keeps_pointAt (hf : Furnished syms.get? slots) {name : String} {info : VarInfo}
    (h : syms.get? name = some (.var info)) (note : String) :
    Keeps (AtBody syms block slots) allowed (fun _ => True) (pointAt name info.isGlobal note) := by
  unfold pointAt
  cases hGlobal : info.isGlobal with
  | true => exact keeps_emit _
  | false =>
    obtain ⟨offset, hOffset⟩ := Option.isSome_iff_exists.mp
      ((Slot.offset?_isSome_iff name slots).mpr (hf.slot name info h hGlobal))
    simp only [Bool.false_eq_true, if_false]
    intro s hs
    obtain ⟨hSyms, hActive, last, hShows⟩ := hs
    have hDelta := hShows.offsetFromLast? name
    rw [hOffset] at hDelta
    rw [bind_of_ok (x := state) (a := s) rfl]
    simp only [state, hDelta, Option.map_some]
    refine ⟨⟨hSyms, hActive, offset, hShows.setLast hOffset⟩, fun _ _ => trivial, ?_⟩
    rintro e ⟨⟩

theorem keeps_address (hf : Furnished syms.get? slots) {name : String} {info : VarInfo}
    (h : syms.get? name = some (.var info)) (note : String) :
    Keeps (AtBody syms block slots) allowed (fun _ => True) (address name info note) := by
  unfold address
  cases hStorage : info.storage with
  | register r => exact absurd hStorage (hf.unpinned name info r h)
  | stack | fixed => exact keeps_pointAt hf h note

theorem keeps_settle {ε : Type} {E : ε → Prop} :
    Keeps (AtBody syms block slots) E (fun _ => True) (settle : Lower ε Unit) :=
  keeps_state.bind fun _ _ => (keeps_emit _).bind fun _ _ =>
    keeps_update fun _ ⟨hSyms, hActive, _, hShows⟩ =>
      ⟨hSyms, (Frames.active_settle _).trans hActive, 0, hShows.settle⟩

theorem literalValue_error {text : String} {span : Span} {e : Stop}
    (h : literalValue text span = .error e) : stopAllowed allowed e := by
  unfold literalValue at h
  split at h
  · simp at h
  · cases h
    trivial

/-- Finding out how wide a condition is stops only as lowering it would. -/
theorem isWide_error {e : Expr} {stop : Stop} (h : e.Reads (ReadableOr allowed syms.get?))
    (hWide : isWide syms e = .error stop) : stopAllowed allowed stop := by
  induction e with
  | ref name =>
    simp only [isWide] at hWide
    rcases varInfo_cases h with ⟨info, hInfo, -⟩ | ⟨fault, hFault, hAllowed⟩
    · simp [hInfo] at hWide
    · simp only [hFault, Except.error.injEq] at hWide
      exact hWide ▸ hAllowed
  | int text span =>
    simp only [isWide] at hWide
    split at hWide
    · simp at hWide
    · next hLiteral =>
      cases hWide
      exact literalValue_error hLiteral
  | unary op operand span ih => exact ih h hWide
  | binary op left right span ihl ihr =>
    simp only [isWide] at hWide
    split at hWide
    · exact ihr h.2 hWide
    · exact ihl h.1 hWide

/-- Lowering an expression stops for a mistake, or for a fault that is allowed. -/
theorem keeps_lowerExpr (hf : Furnished syms.get? slots) {e : Expr}
    (h : e.Reads (ReadableOr allowed syms.get?)) (mode : Mode) (wide : Bool) :
    Keeps (AtBody syms block slots) (stopAllowed allowed) (fun _ => True)
      (lowerExpr mode wide e) := by
  induction e generalizing mode with
  | ref name =>
    refine (keeps_variableInfo h).lift.bind fun info hInfo => ?_
    exact (keeps_address hf hInfo _).lift.bind fun _ _ => keeps_emit _
  | int text span =>
    simp only [lowerExpr]
    split
    · exact keeps_emit _
    · next hLiteral => exact keeps_stop (literalValue_error hLiteral)
  | unary op operand span ih => exact (ih h .load).bind fun _ _ => keeps_emit _
  | binary op left right span ihl ihr =>
    simp only [lowerExpr]
    split
    · exact keeps_stop trivial
    · next mode _ =>
      refine (ihl h.1 .load).bind fun _ _ => ?_
      split
      · exact ihr h.2 mode
      · exact (keeps_emit _).bind fun _ _ => (ihr h.2 .load).bind fun _ _ => keeps_emit _

/-! ### Statements -/

theorem keeps_lowerAssign (hf : Furnished syms.get? slots) {target : Ident} {value : Expr}
    (hTarget : ReadableOr allowed syms.get? target.name)
    (hValue : value.Reads (ReadableOr allowed syms.get?)) :
    Keeps (AtBody syms block slots) (stopAllowed allowed) (fun _ => True)
      (lowerAssign target value) := by
  refine (keeps_variableInfo hTarget).lift.bind fun info hInfo => ?_
  exact (keeps_lowerExpr hf hValue .load _).bind fun _ _ =>
    (keeps_address hf hInfo _).lift.bind fun _ _ => keeps_emit _

theorem keeps_lowerArgs (hf : Furnished syms.get? slots) {args : List (Expr × ValueType)}
    (h : ∀ arg ∈ args, arg.1.Reads (ReadableOr allowed syms.get?)) :
    Keeps (AtBody syms block slots) (stopAllowed allowed) (fun _ => True) (lowerArgs args) := by
  induction args with
  | nil => exact keeps_pure trivial
  | cons arg args ih =>
    exact (keeps_lowerExpr hf (h arg (by simp)) .load _).bind fun _ _ =>
      (keeps_emit _).bind fun _ _ => ih fun a ha => h a (List.mem_cons_of_mem arg ha)

theorem keeps_lowerUserCall (hf : Furnished syms.get? slots) {args : List Expr}
    (h : ∀ arg ∈ args, arg.Reads (ReadableOr allowed syms.get?)) (name : String)
    (params : List ValueType) :
    Keeps (AtBody syms block slots) (stopAllowed allowed) (fun _ => True)
      (lowerUserCall name params args) := by
  refine (keeps_emit _).bind fun _ _ => (keeps_lowerArgs hf ?_).bind fun _ _ => keeps_emit _
  intro arg hArg
  exact h _ (List.of_mem_zip hArg).1

theorem keeps_lowerIntrinsic (hf : Furnished syms.get? slots) {args : List Expr}
    (h : ∀ arg ∈ args, arg.Reads (ReadableOr allowed syms.get?)) {intrinsic : Intrinsic}
    (hCount : args.length = intrinsic.params.length) :
    Keeps (AtBody syms block slots) (stopAllowed allowed) (fun _ => True)
      (lowerIntrinsic intrinsic args) := by
  cases intrinsic with
  | cls => exact (keeps_emit _).bind fun _ _ => keeps_emit _
  | breakpoint => exact (keeps_emit _).bind fun _ _ => keeps_emit _
  | makeBcd =>
    obtain ⟨arg, rfl⟩ := List.length_eq_one_iff.mp hCount
    exact (keeps_lowerExpr hf (h arg (by simp)) .load true).bind fun _ _ =>
      (keeps_emit _).bind fun _ _ => keeps_emit _
  | printBcd => exact (keeps_emit _).bind fun _ _ => keeps_emit _
  | printBcdHigh => exact (keeps_emit _).bind fun _ _ => keeps_emit _

/-- The count of arguments is checked before they are lowered, so a call finds all it needs. -/
theorem keeps_lowerCall (hf : Furnished syms.get? slots) {name : Ident} {args : List Expr}
    (hName : CallableOr allowed syms.get? name.name)
    (hArgs : ∀ arg ∈ args, arg.Reads (ReadableOr allowed syms.get?)) :
    Keeps (AtBody syms block slots) (stopAllowed allowed) (fun _ => True)
      (lowerCall name args) := by
  refine keeps_state.bind fun s hs => ?_
  rw [hs.1]
  obtain ⟨symbol, hSymbol⟩ := Option.isSome_iff_exists.mp hName.1
  simp only [hSymbol]
  cases symbol with
  | proc params =>
    simp only
    split
    · exact keeps_stop trivial
    · next hCount =>
      cases hIntrinsic : Intrinsic.ofName? name.name with
      | none => exact keeps_lowerUserCall hf hArgs _ _
      | some intrinsic =>
        have hParams := hf.intrinsic _ _ _ hSymbol hIntrinsic
        exact keeps_lowerIntrinsic hf hArgs (by rw [← hParams]; omega)
  | var info =>
    rcases hName.2 with ⟨params, hParams⟩ | hAllowed
    · simp [hSymbol] at hParams
    · exact keeps_stop hAllowed
  | type type =>
    rcases hName.2 with ⟨params, hParams⟩ | hAllowed
    · simp [hSymbol] at hParams
    · exact keeps_stop hAllowed

theorem keeps_newBranch {ε : Type} {E : ε → Prop} :
    Keeps (AtBody syms block slots) E (fun _ => True) (newBranch : Lower ε Nat) :=
  keeps_state.bind fun _ _ => (keeps_update fun _ hs => hs).bind fun _ _ => keeps_pure trivial

theorem keeps_lowerCond (hf : Furnished syms.get? slots) {cond : Expr}
    (h : cond.Reads (ReadableOr allowed syms.get?)) (whenZero : Label) :
    Keeps (AtBody syms block slots) (stopAllowed allowed) (fun _ => True)
      (lowerCond cond whenZero) := by
  refine keeps_state.bind fun s hs => ?_
  rw [hs.1]
  split
  · next hWide => exact keeps_stop (isWide_error h hWide)
  · exact (keeps_lowerExpr hf h .load _).bind fun _ _ => keeps_settle.bind fun _ _ => keeps_emit _

theorem atBody_errors (s : State) (errors : List Error) (h : AtBody syms block slots s) :
    AtBody syms block slots { s with errors := errors } := h

mutual

/-- Lowering a statement ends, if not by a fault that is allowed, where it began. -/
theorem keeps_lowerStmt (hf : Furnished syms.get? slots) (stmt : Stmt)
    (h : stmt.Uses (ReadableOr allowed syms.get?) (ReadableOr allowed syms.get?)
      (CallableOr allowed syms.get?)) :
    Keeps (AtBody syms block slots) allowed (fun _ => True) (lowerStmt stmt) := by
  cases stmt with
  | block stmts span => exact keeps_lowerStmts hf stmts h
  | assign target value => exact (keeps_lowerAssign hf h.1 h.2).attempt atBody_errors
  | call name args => exact (keeps_lowerCall hf h.1 h.2).attempt atBody_errors
  | ifThen cond yes span =>
    refine Keeps.attempt ?_ atBody_errors
    exact keeps_newBranch.bind fun n _ => (keeps_lowerCond hf h.1 _).bind fun _ _ =>
      (keeps_lowerStmt hf yes h.2).lift.bind fun _ _ => keeps_settle.bind fun _ _ => keeps_emit _
  | ifElse cond yes no span =>
    refine Keeps.attempt ?_ atBody_errors
    exact keeps_newBranch.bind fun n _ => (keeps_lowerCond hf h.1 _).bind fun _ _ =>
      (keeps_lowerStmt hf yes h.2.1).lift.bind fun _ _ => keeps_settle.bind fun _ _ =>
        (keeps_emit _).bind fun _ _ => (keeps_lowerStmt hf no h.2.2).lift.bind fun _ _ =>
          keeps_settle.bind fun _ _ => keeps_emit _

theorem keeps_lowerStmts (hf : Furnished syms.get? slots) (stmts : List Stmt)
    (h : LowerableBody allowed syms.get? stmts) :
    Keeps (AtBody syms block slots) allowed (fun _ => True) (lowerStmts stmts) := by
  cases stmts with
  | nil => exact keeps_pure trivial
  | cons stmt stmts =>
    exact (keeps_lowerStmt hf stmt h.1).bind fun _ _ => keeps_lowerStmts hf stmts h.2

end

end Lowering

end ChipPascal
