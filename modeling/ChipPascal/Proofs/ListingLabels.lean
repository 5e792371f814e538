import ChipPascal.Proofs.Layout
import ChipPascal.Proofs.WrittenCode

/-!
# Labels of a listing

The labels that a body defines are those of its own branches, and no two branches have the same
number. What else it refers to are data, and procedures that the program declares. So the listing
of a program is well formed.
-/

namespace ChipPascal

open Lowering Line

attribute [local simp] Instr.target?

/-! ### Code without labels -/

/-- An instruction that refers to labels with `P` only, or nothing. -/
def Line.Within (P : Label → Prop) : Line → Prop
  | blank => True
  | instr i note => (∀ l, i.target? = some l → P l) ∧ ∀ text, note = some text → '\n' ∉ text.toList
  | _ => False

/-- All lines refer to labels with `P` only, and define none. -/
def Within (P : Label → Prop) (lines : List Line) : Prop := ∀ line ∈ lines, line.Within P

section

variable {P Q : Label → Prop} {a b : List Line}

@[simp] theorem within_nil : Within P [] := by
  intro line h
  simp at h

@[simp] theorem within_cons {line : Line} :
    Within P (line :: a) ↔ line.Within P ∧ Within P a := List.forall_mem_cons

@[simp] theorem within_append : Within P (a ++ b) ↔ Within P a ∧ Within P b :=
  List.forall_mem_append

theorem Line.Within.mono {line : Line} (h : ∀ l, P l → Q l) (hLine : line.Within P) :
    line.Within Q := by
  cases line with
  | instr i note => exact ⟨fun l hl => h l (hLine.1 l hl), hLine.2⟩
  | blank => trivial
  | _ => exact hLine.elim

theorem Within.mono (h : ∀ l, P l → Q l) (ha : Within P a) : Within Q a :=
  fun line hLine => (ha line hLine).mono h

@[simp] theorem within_blank : (blank).Within P := trivial

@[simp] theorem within_instr {i : Instr} {note : Option String} :
    (instr i note).Within P ↔ (∀ l, i.target? = some l → P l) ∧
      ∀ text, note = some text → '\n' ∉ text.toList := Iff.rfl

theorem Within.labelsOf (h : Within P a) : labelsOf a = [] := by
  induction a with
  | nil => rfl
  | cons line a ih =>
    obtain ⟨hLine, hRest⟩ := within_cons.mp h
    have hNone : line.label? = none := by
      cases line with
      | label l => exact hLine.elim
      | _ => rfl
    simpa [ChipPascal.labelsOf, hNone] using ih hRest

theorem Within.targetsOf (h : Within P a) : ∀ l ∈ targetsOf a, P l := by
  intro l hl
  obtain ⟨line, hMem, hTarget⟩ := List.mem_filterMap.mp hl
  have hLine := h line hMem
  cases line with
  | instr i note => exact hLine.1 l hTarget
  | _ => simp [Line.target?] at hTarget

theorem Within.tidy (hP : ∀ l, P l → l.Tidy) (h : Within P a) : ∀ line ∈ a, line.Tidy := by
  intro line hMem
  have hLine := h line hMem
  cases line with
  | blank => trivial
  | instr i note => exact ⟨fun l hl => hP l (hLine.1 l hl), hLine.2⟩
  | _ => exact hLine.elim

end

/-! ### Strands -/

def Env.Spelled (env : Env) : Prop := ∀ {name symbol}, env.look name = some symbol → IsIdentifier name

theorem IsIdentifier.no_newline {name : String} (h : IsIdentifier name) : '\n' ∉ name.toList := by
  intro hMem
  exact absurd (h.2 _ hMem) (by decide)

def Env.Data (env : Env) (l : Label) : Prop :=
  l = .stackZone ∨ l = .bcdLow ∨ l = .bcdHigh ∨
    ∃ name info, l = .global name ∧ env.look name = some (.var info) ∧ info.isGlobal = true

section

variable {env : Env} {mode : Mode} {wide : Bool} {last last' : UInt8} {lines : List Line}

theorem Env.data_stackZone : env.Data .stackZone := .inl rfl

theorem within_address {name note : String} {info : VarInfo}
    (hInfo : env.look name = some (.var info)) (hNote : '\n' ∉ note.toList)
    (h : AddressCode env.slots name note info.isGlobal last lines last') :
    Within env.Data lines := by
  generalize hGlobal : info.isGlobal = isGlobal at h
  cases h with
  | global =>
    have hData : env.Data (.global name) := .inr (.inr (.inr ⟨name, info, rfl, hInfo, hGlobal⟩))
    simp [hData, hNote]
  | slot _ offset hOffset =>
    split <;> simp [hNote, Env.data_stackZone]

theorem within_readVar {P : Label → Prop} (isWide : Bool) : Within P (readVar mode wide isWide) := by
  cases mode <;> cases wide <;> cases isWide <;>
    simp [readVar, readVarHigh, Mode.instr]

theorem within_literal {P : Label → Prop} (value : UInt16) : Within P (literal mode wide value) := by
  have hDigits := (plain_digits value.toNat).not_mem (c := '\n') (by decide)
  cases mode <;> cases wide <;> simp [literal, hDigits]

theorem within_unaryCode {P : Label → Prop} (op : UnaryOp) : Within P (unaryCode op wide) := by
  cases op <;> cases wide <;> simp [unaryCode, negate]

theorem within_spill : Within env.Data (spill wide) := by
  cases wide <;> simp [spill, Env.data_stackZone]

theorem within_reload : Within env.Data (reload mode wide) := by
  cases mode <;> cases wide <;> simp [reload, combine, Env.data_stackZone]

theorem within_storeAccumulator {P : Label → Prop} (type : ValueType) :
    Within P (storeAccumulator type) := by
  cases type <;> simp [storeAccumulator, ValueType.isWide]

theorem within_settleCode {P : Label → Prop} : Within P (settleCode last) := by
  unfold settleCode
  split <;> simp

def Env.Refers (env : Env) (l : Label) : Prop :=
  env.Data l ∨ ∃ name params, l = .procedure name ∧ env.look name = some (.proc params) ∧
    Intrinsic.ofName? name = none

theorem within_piece (h : Piece lines) : Within env.Data lines := by
  have hLow : env.Data .bcdLow := .inr (.inl rfl)
  have hHigh : env.Data .bcdHigh := .inr (.inr (.inl rfl))
  cases h with
  | literal mode wide value => exact within_literal value
  | unary op wide => exact within_unaryCode op
  | spill wide => exact within_spill
  | reload mode wide => exact within_reload
  | stage type =>
    simp only [stageCode, within_append]
    refine ⟨⟨?_, within_storeAccumulator type⟩, ?_⟩
    · simp [Env.data_stackZone]
    · simp
  | intrinsic intrinsic =>
    cases intrinsic <;>
      simp [intrinsicCode, printBcd, Label.text, hLow, hHigh]
  | bcd => simp [bcdCode, hLow, hHigh]
  | gap => simp

/-- Code without branches refers to data and to procedures of the scope. -/
theorem within_strand (hEnv : env.Spelled) (h : Strand env last lines last') :
    Within env.Refers lines := by
  have hData : ∀ l, env.Data l → env.Refers l := fun l hl => .inl hl
  induction h with
  | nil => exact within_nil
  | append _ _ ih ih' => exact within_append.mpr ⟨ih, ih'⟩
  | piece h => exact (within_piece h).mono hData
  | @read mode _ name _ _ _ _ hInfo hAddress =>
    have hNote : '\n' ∉ (mode.mnemonic ++ " " ++ name).toList := by
      have hName := (hEnv hInfo).no_newline
      cases mode <;> simpa [Mode.mnemonic] using hName
    exact within_append.mpr ⟨(within_address hInfo hNote hAddress).mono hData, within_readVar _⟩
  | @write name _ _ _ _ hInfo hAddress =>
    have hNote : '\n' ∉ ("assign " ++ name).toList := by
      have hName := (hEnv hInfo).no_newline
      simpa using hName
    exact within_append.mpr
      ⟨(within_address hInfo hNote hAddress).mono hData, within_storeAccumulator _⟩
  | prepare hProc => simp [(hEnv hProc).no_newline]
  | @call name _ hProc hName =>
    have hCall : env.Refers (.procedure name) := .inr ⟨_, _, rfl, hProc, hName⟩
    simp [hCall]

/-- A test refers to one label more, the one it jumps to. -/
theorem within_test (hEnv : env.Spelled) {whenZero : Label} (h : Strand env last lines last') :
    Within (fun l => env.Refers l ∨ l = whenZero)
      (lines ++ (settleCode last' ++ testCode wide whenZero)) := by
  simp only [within_append]
  refine ⟨(within_strand hEnv h).mono fun l hl => .inl hl, within_settleCode, ?_⟩
  unfold testCode
  split <;> simp

/-! ### Bodies -/

def IsBranch (n n' : Nat) (l : Label) : Prop :=
  ∃ k, n ≤ k ∧ k < n' ∧ (l = .elseBranch k ∨ l = .endBranch k)

structure BodyLabels (env : Env) (n n' : Nat) (lines : List Line) : Prop where
  le : n ≤ n'
  tidy : ∀ line ∈ lines, line.Tidy
  branch : ∀ l ∈ labelsOf lines, IsBranch n n' l
  nodup : (labelsOf lines).Nodup
  closed : ∀ l ∈ targetsOf lines, l ∈ labelsOf lines ∨ env.Refers l

/-- Labels take over the spelling of names, so they are read back as they are written. -/
theorem Env.Spelled.tidy (hEnv : env.Spelled) {l : Label} (h : env.Refers l) : l.Tidy := by
  rcases h with (rfl | rfl | rfl | ⟨name, info, rfl, hLook, -⟩) | ⟨name, params, rfl, hLook, -⟩
  · trivial
  · trivial
  · trivial
  · exact hEnv hLook
  · exact hEnv hLook

theorem Within.bodyLabels (hEnv : env.Spelled) (h : Within env.Refers lines) (n : Nat) :
    BodyLabels env n n lines := by
  refine ⟨Nat.le_refl n, h.tidy fun l hl => hEnv.tidy hl, ?_, ?_, ?_⟩
  · simp [h.labelsOf]
  · simp [h.labelsOf]
  · exact fun l hl => .inr (h.targetsOf l hl)

theorem IsBranch.mono {n n' m m' : Nat} {l : Label} (h : IsBranch n n' l) (hm : m ≤ n)
    (hm' : n' ≤ m') : IsBranch m m' l := by
  obtain ⟨k, hk, hk', hl⟩ := h
  exact ⟨k, by omega, by omega, hl⟩

theorem IsBranch.disjoint {n n' m : Nat} {l : Label} (h : IsBranch n n' l) (h' : IsBranch n' m l) :
    False := by
  obtain ⟨k, -, hk, hl⟩ := h
  obtain ⟨j, hj, -, hl'⟩ := h'
  have hkj : k = j := by
    rcases hl with rfl | rfl <;> rcases hl' with h | h <;> cases h <;> rfl
  omega

theorem IsBranch.ne {n n' : Nat} {l : Label} (h : IsBranch (n + 1) n' l) :
    l ≠ .elseBranch n ∧ l ≠ .endBranch n := by
  obtain ⟨k, hk, -, hl⟩ := h
  have hNe : k ≠ n := by omega
  rcases hl with rfl | rfl
  · exact ⟨fun h => hNe (by cases h; rfl), by simp⟩
  · exact ⟨by simp, fun h => hNe (by cases h; rfl)⟩

/-- Bodies in a row number their branches in a row, so their labels do not meet. -/
theorem BodyLabels.append {a b : List Line} {n n₁ n₂ : Nat} (ha : BodyLabels env n n₁ a)
    (hb : BodyLabels env n₁ n₂ b) : BodyLabels env n n₂ (a ++ b) := by
  refine ⟨Nat.le_trans ha.le hb.le, List.forall_mem_append.mpr ⟨ha.tidy, hb.tidy⟩, ?_, ?_, ?_⟩
  · intro l hl
    rw [labelsOf_append] at hl
    rcases List.mem_append.mp hl with hl | hl
    · exact (ha.branch l hl).mono (Nat.le_refl n) hb.le
    · exact (hb.branch l hl).mono ha.le (Nat.le_refl n₂)
  · rw [labelsOf_append]
    refine List.nodup_append.mpr ⟨ha.nodup, hb.nodup, ?_⟩
    rintro l hl m hm rfl
    exact (ha.branch l hl).disjoint (hb.branch l hm)
  · intro l hl
    rw [targetsOf_append] at hl
    rw [labelsOf_append]
    rcases List.mem_append.mp hl with hl | hl
    · exact (ha.closed l hl).imp_left fun h => List.mem_append_left _ h
    · exact (hb.closed l hl).imp_left fun h => List.mem_append_right _ h

/-- An `if` without `else` defines the two labels of its number, and refers to them only from
inside. -/
theorem BodyLabels.ifThen (hEnv : env.Spelled) {test body : List Line} {last₁ : UInt8}
    {n n' : Nat} (hTest : Within (fun l => env.Refers l ∨ l = .elseBranch n) test)
    (hYes : BodyLabels env (n + 1) n' body) :
    BodyLabels env n n' (test ++ (body ++ (settleCode last₁ ++ [.label (.elseBranch n)]))) := by
  have hSettle : Within (fun _ => False) (settleCode last₁) := within_settleCode
  have hLe := hYes.le
  have hLabels : labelsOf (test ++ (body ++ (settleCode last₁ ++ [.label (.elseBranch n)]))) =
      labelsOf body ++ [.elseBranch n] := by
    simp only [labelsOf_append, hTest.labelsOf, hSettle.labelsOf, List.nil_append]
    rfl
  refine ⟨by omega, ?_, ?_, ?_, ?_⟩
  · simp only [List.forall_mem_append]
    refine ⟨hTest.tidy ?_, hYes.tidy, hSettle.tidy fun _ h => h.elim, ?_⟩
    · rintro l (hl | rfl)
      · exact hEnv.tidy hl
      · trivial
    · simp [Line.Tidy, Label.Tidy]
  · rw [hLabels]
    intro l hl
    rcases List.mem_append.mp hl with hl | hl
    · exact (hYes.branch l hl).mono (by omega) (Nat.le_refl n')
    · exact ⟨n, Nat.le_refl n, by omega, .inl (List.mem_singleton.mp hl)⟩
  · rw [hLabels]
    refine List.nodup_append.mpr ⟨hYes.nodup, by simp, ?_⟩
    rintro l hl m hm rfl
    exact (hYes.branch l hl).ne.1 (List.mem_singleton.mp hm)
  · rw [hLabels]
    simp only [targetsOf_append, List.mem_append]
    rintro l (hl | hl | hl | hl)
    · exact (hTest.targetsOf l hl).symm.imp_left fun h => .inr (by simp [h])
    · exact (hYes.closed l hl).imp_left .inl
    · exact (hSettle.targetsOf l hl).elim
    · simp [targetsOf, Line.target?] at hl

theorem BodyLabels.ifElse (hEnv : env.Spelled) {test first second : List Line}
    {last₁ last₂ : UInt8} {n n₁ n₂ : Nat}
    (hTest : Within (fun l => env.Refers l ∨ l = .elseBranch n) test)
    (hYes : BodyLabels env (n + 1) n₁ first) (hNo : BodyLabels env n₁ n₂ second) :
    BodyLabels env n n₂
      (test ++ (first ++ (settleCode last₁ ++ ([plain (.jump (.endBranch n)),
        .label (.elseBranch n)] ++ (second ++ (settleCode last₂ ++
          [.label (.endBranch n)])))))) := by
  have hSettle : ∀ last, Within (fun _ => False) (settleCode last) := fun _ => within_settleCode
  have hLe := hYes.le
  have hLe' := hNo.le
  have hNo' : ∀ l ∈ labelsOf second, IsBranch (n + 1) n₂ l := fun l hl =>
    (hNo.branch l hl).mono hLe (Nat.le_refl n₂)
  have hLabels : labelsOf (test ++ (first ++ (settleCode last₁ ++ ([plain (.jump (.endBranch n)),
      .label (.elseBranch n)] ++ (second ++ (settleCode last₂ ++ [.label (.endBranch n)])))))) =
      labelsOf first ++ (.elseBranch n :: (labelsOf second ++ [.endBranch n])) := by
    simp only [labelsOf_append, hTest.labelsOf, (hSettle _).labelsOf, List.nil_append]
    rfl
  refine ⟨by omega, ?_, ?_, ?_, ?_⟩
  · simp only [List.forall_mem_append]
    refine ⟨hTest.tidy ?_, hYes.tidy, (hSettle _).tidy fun _ h => h.elim, ?_, hNo.tidy,
      (hSettle _).tidy fun _ h => h.elim, ?_⟩
    · rintro l (hl | rfl)
      · exact hEnv.tidy hl
      · trivial
    · simp [plain, Line.Tidy, Instr.Tidy, Label.Tidy]
    · simp [Line.Tidy, Label.Tidy]
  · rw [hLabels]
    intro l hl
    simp only [List.mem_append, List.mem_cons, List.not_mem_nil, or_false] at hl
    rcases hl with hl | rfl | hl | rfl
    · exact (hYes.branch l hl).mono (by omega) hLe'
    · exact ⟨n, Nat.le_refl n, by omega, .inl rfl⟩
    · exact (hNo.branch l hl).mono (by omega) (Nat.le_refl n₂)
    · exact ⟨n, Nat.le_refl n, by omega, .inr rfl⟩
  · rw [hLabels]
    refine List.nodup_append.mpr ⟨hYes.nodup, ?_, ?_⟩
    · refine List.nodup_cons.mpr ⟨?_, List.nodup_append.mpr ⟨hNo.nodup, by simp, ?_⟩⟩
      · intro hMem
        rcases List.mem_append.mp hMem with h | h
        · exact (hNo' _ h).ne.1 rfl
        · simp at h
      · rintro l hl m hm rfl
        exact (hNo' l hl).ne.2 (List.mem_singleton.mp hm)
    · rintro l hl m hm rfl
      simp only [List.mem_append, List.mem_cons, List.not_mem_nil, or_false] at hm
      rcases hm with rfl | hm | rfl
      · exact (hYes.branch _ hl).ne.1 rfl
      · exact (hYes.branch l hl).disjoint (hNo.branch l hm)
      · exact (hYes.branch _ hl).ne.2 rfl
  · rw [hLabels]
    have hJump : targetsOf [plain (.jump (.endBranch n)), .label (.elseBranch n)] =
        [.endBranch n] := rfl
    have hEnd : targetsOf [.label (.endBranch n)] = [] := rfl
    simp only [targetsOf_append, hJump, hEnd, List.mem_append, List.mem_cons, List.not_mem_nil,
      or_false]
    rintro l (hl | hl | hl | rfl | hl | hl)
    · rcases hTest.targetsOf l hl with h | rfl
      · exact .inr h
      · exact .inl (.inr (.inl rfl))
    · exact (hYes.closed l hl).imp_left .inl
    · exact ((hSettle _).targetsOf l hl).elim
    · exact .inl (.inr (.inr (.inr rfl)))
    · exact (hNo.closed l hl).imp_left fun h => .inr (.inr (.inl h))
    · exact ((hSettle _).targetsOf l hl).elim

/-- The labels of a body are those of its branches, each defined once. -/
theorem bodyLabels (hEnv : env.Spelled) {n n' : Nat} (h : BodyCode env last n lines last' n') :
    BodyLabels env n n' lines := by
  induction h with
  | strand h n => exact (within_strand hEnv h).bodyLabels hEnv n
  | unused last n => exact ⟨Nat.le_succ n, by simp, by simp [labelsOf], by simp [labelsOf],
      by simp [targetsOf]⟩
  | append _ _ ih ih' => exact ih.append ih'
  | ifThen hCond _ ih => exact .ifThen hEnv (within_test hEnv hCond) ih
  | ifElse hCond _ _ ih ih' => exact .ifElse hEnv (within_test hEnv hCond) ih ih'

end

/-! ### Programs -/

section

variable {program : Program} {vars : List VarDecl}

/-- The local variables of one of the bodies of a program. -/
def Program.Scope (program : Program) (vars : List VarDecl) : Prop :=
  vars = [] ∨ ∃ proc, .proc proc ∈ program.decls ∧ vars = proc.vars

theorem NamedDecls.namedVars {ns : List String} {decls : List Decl} (h : NamedDecls ns decls)
    {proc : ProcDecl} (hProc : .proc proc ∈ decls) : NamedVars [] proc.vars := by
  induction decls generalizing ns with
  | nil => simp at hProc
  | cons decl decls ih =>
    rcases List.mem_cons.mp hProc with rfl | hRest
    · exact h.2.1.vars
    · cases decl with
      | var decl => exact ih h.2.2 hRest
      | proc other => exact ih h.2.2 hRest

theorem Program.WellNamed.namedVars (hNamed : program.WellNamed) (hScope : program.Scope vars) :
    NamedVars [] vars := by
  rcases hScope with rfl | ⟨proc, hProc, rfl⟩
  · trivial
  · exact hNamed.decls.namedVars hProc

theorem isIdentifier_builtin {name : String} (h : name ∈ builtinNames) : IsIdentifier name := by
  have hAll : ∀ name ∈ builtinNames,
      name.toList ≠ [] ∧ name.toList.all Lexer.isIdentPart = true := by decide
  exact ⟨(hAll name h).1, List.all_eq_true.mp (hAll name h).2⟩

theorem Program.Spelled.scope (hSpelled : program.Spelled) (hScope : program.Scope vars)
    {decl : VarDecl} (hDecl : decl ∈ vars) : IsIdentifier decl.name.name := by
  rcases hScope with rfl | ⟨proc, hProc, rfl⟩
  · simp at hDecl
  · exact (hSpelled.decls _ hProc).2 decl hDecl

/-- All that a body can name is spelled as a name. -/
theorem Program.Spelled.env (hSpelled : program.Spelled) (hNamed : program.WellNamed)
    (hScope : program.Scope vars) : (program.env vars).Spelled := by
  intro name symbol h
  rw [look_eq (hNamed.namedVars hScope)] at h
  cases hFind : findVar vars name with
  | some decl =>
    have hName : decl.name.name = name := by simpa using List.find?_some hFind
    exact hName ▸ hSpelled.scope hScope (List.mem_of_find?_eq_some hFind)
  | none =>
    simp only [hFind, Option.map_none, Option.none_or, Program.symbols_get? hNamed] at h
    cases hDecl : program.decls.find? fun decl => decl.name = name with
    | none =>
      simp only [hDecl, Option.map_none, Option.none_or] at h
      exact isIdentifier_builtin ((keys_builtins Builtin.symbol name).mp (by
        rw [← builtinBindings, h]
        rfl))
    | some decl =>
      have hName : decl.name = name := by simpa using List.find?_some hDecl
      have hNamedDecl := hSpelled.decls decl (List.mem_of_find?_eq_some hDecl)
      subst hName
      cases decl with
      | var decl => exact hNamedDecl
      | proc proc => exact hNamedDecl.1

/-- The labels of data and of procedures that a program declares. -/
def Program.Declares (program : Program) (l : Label) : Prop :=
  l = .stackZone ∨ l = .bcdLow ∨ l = .bcdHigh ∨
    (∃ decl ∈ program.globals, l = .global decl.name.name) ∨
      ∃ proc, .proc proc ∈ program.decls ∧ l = .procedure proc.name.name

theorem Program.mem_procs {proc : ProcDecl} :
    proc ∈ program.procs ↔ .proc proc ∈ program.decls := by
  constructor
  · intro h
    obtain ⟨decl, hDecl, hProc⟩ := List.mem_filterMap.mp h
    cases decl with
    | var decl => simp at hProc
    | proc other =>
      cases hProc
      exact hDecl
  · intro h
    exact List.mem_filterMap.mpr ⟨.proc proc, h, rfl⟩

/-- What a body refers to is declared in the program. -/
theorem Program.declares_of_refers (hNamed : program.WellNamed) (hScope : program.Scope vars)
    {l : Label} (h : (program.env vars).Refers l) : program.Declares l := by
  have hVars := hNamed.namedVars hScope
  rcases h with (rfl | rfl | rfl | ⟨name, info, rfl, hLook, hGlobal⟩) |
    ⟨name, params, rfl, hLook, hName⟩
  · exact .inl rfl
  · exact .inr (.inl rfl)
  · exact .inr (.inr (.inl rfl))
  · obtain ⟨-, decl, hFind, -⟩ := look_global hNamed hVars hLook hGlobal
    have hDecl : decl.name.name = name := by simpa using List.find?_some hFind
    exact .inr (.inr (.inr (.inl ⟨decl, List.mem_of_find?_eq_some hFind, by rw [hDecl]⟩)))
  · obtain ⟨proc, hFind, -⟩ := look_proc hNamed hVars hLook hName
    have hProc : proc.name.name = name := by simpa using List.find?_some hFind
    exact .inr (.inr (.inr (.inr ⟨proc, mem_procs.mp (List.mem_of_find?_eq_some hFind),
      by rw [hProc]⟩)))

structure DeclsLabels (program : Program) (decls : List Decl) (n n' : Nat) (lines : List Line) :
    Prop where
  le : n ≤ n'
  tidy : ∀ line ∈ lines, line.Tidy
  label : ∀ l ∈ labelsOf lines,
    IsBranch n n' l ∨ ∃ proc, .proc proc ∈ decls ∧ l = .procedure proc.name.name
  nodup : (labelsOf lines).Nodup
  closed : ∀ l ∈ targetsOf lines, l ∈ labelsOf lines ∨ program.Declares l
  defined : ∀ proc, .proc proc ∈ decls → .procedure proc.name.name ∈ labelsOf lines

theorem within_enterFrame {P : Label → Prop} (hP : P .stackZone) (size : UInt8) :
    Within P (enterFrame size) := by
  unfold enterFrame
  split <;> simp [hP]

theorem within_leaveFrame {P : Label → Prop} (hP : P .stackZone) :
    Within P (leaveFrame ++ [plain .ret, blank]) := by
  simp [leaveFrame, hP]

theorem declsLabels_proc (hSpelled : program.Spelled) (hNamed : program.WellNamed)
    {proc : ProcDecl} (hProc : .proc proc ∈ program.decls) {n n' : Nat} {lines : List Line}
    (h : ProcLines program proc n lines n') :
    DeclsLabels program [.proc proc] n n' lines := by
  have hScope : program.Scope proc.vars := .inr ⟨proc, hProc, rfl⟩
  have hZone : ∀ l : Label, l = .stackZone → l.Tidy := by
    rintro l rfl
    trivial
  have hName := (hSpelled.decls _ hProc).1
  cases h with
  | tooLarge hSize =>
    have hAll : labelsOf [.label (.procedure proc.name.name), plain .ret, blank] =
        [.procedure proc.name.name] := rfl
    refine ⟨Nat.le_refl n, ?_, ?_, ?_, ?_, ?_⟩
    · have hRet : Within (· = .stackZone) [plain .ret, blank] := by simp
      exact List.forall_mem_cons.mpr ⟨hName, hRet.tidy hZone⟩
    · rw [hAll]
      intro l hl
      exact .inr ⟨proc, by simp, List.mem_singleton.mp hl⟩
    · rw [hAll]
      exact List.pairwise_singleton _ _
    · simp [targetsOf, Line.target?]
    · intro other hOther
      obtain rfl : other = proc := by simpa using hOther
      rw [hAll]
      exact List.mem_singleton_self _
  | @body body last _ hSize hBody =>
    have hLabels := bodyLabels (hSpelled.env hNamed hScope) hBody
    have hEnter := within_enterFrame (P := (· = .stackZone)) rfl (UInt8.ofNat proc.frameSize)
    have hSettle : Within (· = .stackZone) (settleCode last) := within_settleCode
    have hLeave := within_leaveFrame (P := (· = .stackZone)) rfl
    have hAll : labelsOf (.label (.procedure proc.name.name) ::
        (enterFrame (UInt8.ofNat proc.frameSize) ++ (body ++ (settleCode last ++
          (leaveFrame ++ [plain .ret, blank]))))) =
        .procedure proc.name.name :: labelsOf body := by
      have hTail := hLeave.labelsOf
      rw [labelsOf_append] at hTail
      show .procedure proc.name.name :: labelsOf _ = _
      simp only [labelsOf_append, hEnter.labelsOf, hSettle.labelsOf, hTail, List.nil_append,
        List.append_nil]
    refine ⟨hLabels.le, ?_, ?_, ?_, ?_, ?_⟩
    · simp only [List.forall_mem_cons, List.forall_mem_append]
      have hTail := List.forall_mem_append.mp (hLeave.tidy hZone)
      refine ⟨hName, hEnter.tidy hZone, hLabels.tidy, hSettle.tidy hZone, hTail.1, ?_⟩
      simpa using hTail.2
    · rw [hAll]
      intro l hl
      rcases List.mem_cons.mp hl with rfl | hl
      · exact .inr ⟨proc, by simp, rfl⟩
      · exact .inl (hLabels.branch l hl)
    · rw [hAll]
      refine List.nodup_cons.mpr ⟨?_, hLabels.nodup⟩
      intro hMem
      obtain ⟨k, -, -, h | h⟩ := hLabels.branch _ hMem <;> cases h
    · rw [hAll]
      intro l hl
      have hl' : l ∈ targetsOf (enterFrame (UInt8.ofNat proc.frameSize) ++ (body ++
          (settleCode last ++ (leaveFrame ++ [plain .ret, blank])))) := hl
      rw [targetsOf_append, targetsOf_append, targetsOf_append] at hl'
      simp only [List.mem_append] at hl'
      rcases hl' with hl | hl | hl | hl
      · exact .inr (.inl (hEnter.targetsOf l hl))
      · exact (hLabels.closed l hl).imp (List.mem_cons_of_mem _)
          (Program.declares_of_refers hNamed hScope)
      · exact .inr (.inl (hSettle.targetsOf l hl))
      · exact .inr (.inl (hLeave.targetsOf l hl))
    · intro other hOther
      obtain rfl : other = proc := by simpa using hOther
      rw [hAll]
      exact List.mem_cons_self

/-- Labels of different declarations differ, as names and branch numbers do. -/
theorem DeclsLabels.append {first second : List Decl} {a b : List Line} {n n₁ n₂ : Nat}
    (ha : DeclsLabels program first n n₁ a) (hb : DeclsLabels program second n₁ n₂ b)
    (hNodup : ((first ++ second).map (·.name)).Nodup) :
    DeclsLabels program (first ++ second) n n₂ (a ++ b) := by
  refine ⟨Nat.le_trans ha.le hb.le, List.forall_mem_append.mpr ⟨ha.tidy, hb.tidy⟩, ?_, ?_, ?_, ?_⟩
  · intro l hl
    rw [labelsOf_append] at hl
    rcases List.mem_append.mp hl with hl | hl
    · rcases ha.label l hl with h | ⟨proc, hProc, rfl⟩
      · exact .inl (h.mono (Nat.le_refl n) hb.le)
      · exact .inr ⟨proc, List.mem_append_left _ hProc, rfl⟩
    · rcases hb.label l hl with h | ⟨proc, hProc, rfl⟩
      · exact .inl (h.mono ha.le (Nat.le_refl n₂))
      · exact .inr ⟨proc, List.mem_append_right _ hProc, rfl⟩
  · rw [labelsOf_append]
    refine List.nodup_append.mpr ⟨ha.nodup, hb.nodup, ?_⟩
    rintro l hl m hm rfl
    rw [List.map_append, List.nodup_append] at hNodup
    rcases ha.label l hl with h | ⟨proc, hProc, rfl⟩
    · rcases hb.label l hm with h' | ⟨proc, -, rfl⟩
      · exact h.disjoint h'
      · obtain ⟨k, -, -, h | h⟩ := h <;> cases h
    · rcases hb.label _ hm with ⟨k, -, -, h | h⟩ | ⟨other, hOther, hName⟩
      · cases h
      · cases h
      · have hSame : proc.name.name = other.name.name := by simpa using hName
        exact hNodup.2.2 _ (List.mem_map_of_mem hProc) _ (List.mem_map_of_mem hOther) hSame
  · intro l hl
    rw [targetsOf_append] at hl
    rw [labelsOf_append]
    rcases List.mem_append.mp hl with hl | hl
    · exact (ha.closed l hl).imp_left (List.mem_append_left _)
    · exact (hb.closed l hl).imp_left (List.mem_append_right _)
  · intro proc hProc
    rw [labelsOf_append]
    rcases List.mem_append.mp hProc with hProc | hProc
    · exact List.mem_append_left _ (ha.defined proc hProc)
    · exact List.mem_append_right _ (hb.defined proc hProc)

theorem declsLabels_decls (hSpelled : program.Spelled) (hNamed : program.WellNamed)
    {decls : List Decl} (hDecls : ∀ decl ∈ decls, decl ∈ program.decls)
    (hNodup : (decls.map (·.name)).Nodup) {n n' : Nat} {lines : List Line}
    (h : DeclsLines program decls n lines n') : DeclsLabels program decls n n' lines := by
  induction h with
  | nil n => exact ⟨Nat.le_refl n, by simp, by simp [labelsOf], by simp [labelsOf],
      by simp [targetsOf], by simp⟩
  | var h ih =>
    have ih' := ih (fun d hd => hDecls d (List.mem_cons_of_mem _ hd)) (List.nodup_cons.mp hNodup).2
    refine ⟨ih'.le, ih'.tidy, ?_, ih'.nodup, ih'.closed, ?_⟩
    · intro l hl
      rcases ih'.label l hl with h | ⟨proc, hProc, rfl⟩
      · exact .inl h
      · exact .inr ⟨proc, List.mem_cons_of_mem _ hProc, rfl⟩
    · intro proc hProc
      exact ih'.defined proc (by simpa using hProc)
  | proc hProc _ ih =>
    have ih' := ih (fun d hd => hDecls d (List.mem_cons_of_mem _ hd)) (List.nodup_cons.mp hNodup).2
    exact (declsLabels_proc hSpelled hNamed (hDecls _ (by simp)) hProc).append ih' hNodup

theorem instr_not_mem_dataSection {globals : List String} {stackWords : Nat} (i : Instr)
    (note : Option String) : .instr i note ∉ dataSection globals stackWords := by
  simp [dataSection, List.mem_replicate]

theorem labelsOf_dataSection (globals : List String) (stackWords : Nat) :
    labelsOf (dataSection globals stackWords) =
      globals.map .global ++ [.bcdLow, .bcdHigh, .stackZone] := by
  have hGlobals : labelsOf (globals.flatMap fun name => [.label (.global name), .word]) =
      globals.map .global := by
    induction globals with
    | nil => rfl
    | cons name globals ih =>
      simp only [List.flatMap_cons, labelsOf_append, ih]
      rfl
  simp only [dataSection, labelsOf_append, hGlobals]
  simp [labelsOf, Line.label?]

theorem targetsOf_dataSection (globals : List String) (stackWords : Nat) :
    targetsOf (dataSection globals stackWords) = [] := by
  have hGlobals : targetsOf (globals.flatMap fun name => [.label (.global name), .word]) = [] := by
    induction globals with
    | nil => rfl
    | cons name globals ih =>
      simp only [List.flatMap_cons, targetsOf_append, ih]
      rfl
  simp only [dataSection, targetsOf_append, hGlobals]
  simp [targetsOf, Line.target?]

theorem tidy_dataSection {globals : List String} (h : ∀ name ∈ globals, IsIdentifier name)
    (stackWords : Nat) : ∀ line ∈ dataSection globals stackWords, line.Tidy := by
  have hGlobals : ∀ line ∈ globals.flatMap fun name => [Line.label (.global name), .word],
      line.Tidy := by
    intro line hLine
    obtain ⟨name, hName, hMem⟩ := List.mem_flatMap.mp hLine
    simp only [List.mem_cons, List.not_mem_nil, or_false] at hMem
    rcases hMem with rfl | rfl
    · exact h name hName
    · trivial
  have hWords : ∀ line ∈ List.replicate stackWords Line.word, line.Tidy := by
    intro line hLine
    rw [List.eq_of_mem_replicate hLine]
    trivial
  simp only [dataSection, List.forall_mem_append]
  refine ⟨⟨⟨⟨⟨?_, hGlobals⟩, ?_⟩, ?_⟩, ?_⟩, List.forall_mem_cons.mpr ⟨trivial, hWords⟩⟩ <;>
    simp [Line.Tidy, Label.Tidy]

theorem labelsOf_preamble (name : String) : labelsOf (preamble name) = [] := by
  simp [preamble, labelsOf, Line.label?, plain]

theorem targetsOf_preamble (name : String) : targetsOf (preamble name) = [.entry] := rfl

theorem tidy_preamble {name : String} (h : IsIdentifier name) :
    ∀ line ∈ preamble name, line.Tidy := by
  have hRemarks : ∀ line ∈ Reg.all.map fun x => Line.remark x.explained, line.Tidy := by
    have hAll : ∀ x : Reg, '\n' ∉ x.explained.toList := by decide +kernel
    intro line hLine
    obtain ⟨x, -, rfl⟩ := List.mem_map.mp hLine
    exact hAll x
  have hSet : ∀ line ∈ Reg.all.map fun x => plain (.set x x.initial), line.Tidy := by
    intro line hLine
    obtain ⟨x, -, rfl⟩ := List.mem_map.mp hLine
    simp [plain, Line.Tidy, Instr.Tidy]
  have hName := h.no_newline
  simp only [preamble, List.forall_mem_append]
  refine ⟨⟨⟨⟨?_, hRemarks⟩, ?_⟩, hSet⟩, ?_⟩ <;>
    simp [plain, Line.Tidy, Instr.Tidy, Label.Tidy, hName]

theorem Program.globals_nodup (hNamed : program.WellNamed) :
    (program.globals.map (·.name.name)).Nodup := by
  have hSub : ∀ decls : List Decl,
      (({ program with decls } : Program).globals.map (·.name.name)).Sublist
        (decls.map (·.name)) := by
    intro decls
    induction decls with
    | nil => exact List.Sublist.refl []
    | cons decl decls ih =>
      cases decl with
      | var decl => exact ih.cons_cons _
      | proc proc => exact ih.cons _
  exact hNamed.decls.nodup.1.sublist (hSub program.decls)

def Program.tailLabels (program : Program) : List Label :=
  .finish :: ((program.globals.map (·.name.name)).map Label.global ++
    [.bcdLow, .bcdHigh, .stackZone])

theorem Program.tailLabels_ne {l : Label} (h : l ∈ program.tailLabels) :
    l ≠ .entry ∧ (∀ name, l ≠ .procedure name) ∧ ∀ n n', ¬ IsBranch n n' l := by
  have hBranch : ∀ {l : Label}, (∀ k, l ≠ .elseBranch k ∧ l ≠ .endBranch k) →
      ∀ n n', ¬ IsBranch n n' l := by
    rintro l hl n n' ⟨k, -, -, h | h⟩
    · exact (hl k).1 h
    · exact (hl k).2 h
  simp only [tailLabels, List.mem_cons, List.mem_append, List.not_mem_nil, or_false] at h
  rcases h with rfl | h | rfl | rfl | rfl
  · exact ⟨by simp, by simp, hBranch (by simp)⟩
  · obtain ⟨name, -, rfl⟩ := List.mem_map.mp h
    exact ⟨by simp, by simp, hBranch (by simp)⟩
  · exact ⟨by simp, by simp, hBranch (by simp)⟩
  · exact ⟨by simp, by simp, hBranch (by simp)⟩
  · exact ⟨by simp, by simp, hBranch (by simp)⟩

theorem Program.tailLabels_nodup (hNamed : program.WellNamed) : program.tailLabels.Nodup := by
  have hGlobals : ((program.globals.map (·.name.name)).map Label.global).Nodup := by
    refine List.Pairwise.map _ ?_ (Program.globals_nodup hNamed)
    intro a b hab h
    cases h
    exact hab rfl
  refine List.nodup_cons.mpr ⟨by simp, List.nodup_append.mpr ⟨hGlobals, by decide, ?_⟩⟩
  intro l hl m hm
  obtain ⟨name, -, rfl⟩ := List.mem_map.mp hl
  rintro rfl
  simp at hm

/-- Each label that is declared is defined by a procedure or behind the code. -/
theorem Program.Declares.mem {l : Label} (h : program.Declares l) {decls : List Line} {n n' : Nat}
    (hD : DeclsLabels program program.decls n n' decls) :
    l ∈ labelsOf decls ∨ l ∈ program.tailLabels := by
  rcases h with rfl | rfl | rfl | ⟨decl, hDecl, rfl⟩ | ⟨proc, hProc, rfl⟩
  · exact .inr (by simp [tailLabels])
  · exact .inr (by simp [tailLabels])
  · exact .inr (by simp [tailLabels])
  · exact .inr (by simpa [tailLabels] using ⟨decl, hDecl, rfl⟩)
  · exact .inl (hD.defined proc hProc)

theorem Program.Spelled.globals (hSpelled : program.Spelled) :
    ∀ name ∈ program.globals.map (·.name.name), IsIdentifier name := by
  intro name hName
  obtain ⟨decl, hDecl, rfl⟩ := List.mem_map.mp hName
  obtain ⟨d, hd, hVar⟩ := List.mem_filterMap.mp hDecl
  cases d with
  | proc proc => simp at hVar
  | var other =>
    cases hVar
    exact hSpelled.decls _ hd

/-- The listing of a program is one that the assembler reads as it was meant, also if statements
were given up. -/
theorem ProgramLines.wellFormed {stackWords : Nat} {lines : List Line}
    (hNamed : program.WellNamed) (hSpelled : program.Spelled)
    (h : ProgramLines program stackWords lines) : WellFormed lines := by
  cases h with
  | @mk decls n main last n' hDecls hMain =>
    have hScope : program.Scope [] := .inl rfl
    have hD := declsLabels_decls hSpelled hNamed (fun _ h => h) hNamed.decls.nodup.1 hDecls
    have hM := bodyLabels (hSpelled.env hNamed hScope) hMain
    have hSettle : Within (fun _ => False) (settleCode last) := within_settleCode
    have hFinish : labelsOf finishCode = [.finish] := rfl
    have hLabels : labelsOf (preamble program.name.name ++ (decls ++ (.label .entry :: (main ++
        (settleCode last ++ (finishCode ++
          dataSection (program.globals.map (·.name.name)) stackWords)))))) =
        labelsOf decls ++ (.entry :: (labelsOf main ++ program.tailLabels)) := by
      have hEntry : ∀ rest, labelsOf (.label .entry :: rest) = .entry :: labelsOf rest :=
        fun _ => rfl
      simp only [labelsOf_append, labelsOf_preamble, hEntry, hSettle.labelsOf, hFinish,
        labelsOf_dataSection, List.nil_append, List.cons_append, Program.tailLabels]
    refine ⟨?_, ?_, ?_⟩
    · simp only [List.forall_mem_append, List.forall_mem_cons]
      refine ⟨tidy_preamble hSpelled.name, hD.tidy, trivial, hM.tidy,
        hSettle.tidy fun _ h => h.elim, ?_, tidy_dataSection hSpelled.globals stackWords⟩
      simp [finishCode, plain, Line.Tidy, Instr.Tidy, Label.Tidy]
    · rw [hLabels]
      refine List.nodup_append.mpr ⟨hD.nodup, List.nodup_cons.mpr ⟨?_, ?_⟩, ?_⟩
      · intro hMem
        rcases List.mem_append.mp hMem with h | h
        · obtain ⟨k, -, -, h | h⟩ := hM.branch _ h <;> cases h
        · exact (Program.tailLabels_ne h).1 rfl
      · refine List.nodup_append.mpr ⟨hM.nodup, Program.tailLabels_nodup hNamed, ?_⟩
        rintro l hl m hm rfl
        exact (Program.tailLabels_ne hm).2.2 _ _ (hM.branch l hl)
      · rintro l hl m hm rfl
        rcases List.mem_cons.mp hm with rfl | hm
        · rcases hD.label _ hl with ⟨k, -, -, h | h⟩ | ⟨proc, -, h⟩ <;> cases h
        · rcases List.mem_append.mp hm with hm | hm
          · rcases hD.label l hl with h | ⟨proc, -, rfl⟩
            · exact h.disjoint (hM.branch l hm)
            · obtain ⟨k, -, -, h | h⟩ := hM.branch _ hm <;> cases h
          · rcases hD.label l hl with h | ⟨proc, -, rfl⟩
            · exact (Program.tailLabels_ne hm).2.2 _ _ h
            · exact (Program.tailLabels_ne hm).2.1 _ rfl
    · rw [hLabels]
      have hDeclared : ∀ l, program.Declares l →
          l ∈ labelsOf decls ++ (.entry :: (labelsOf main ++ program.tailLabels)) := by
        intro l hl
        rcases hl.mem hD with h | h
        · exact List.mem_append_left _ h
        · exact List.mem_append_right _ (List.mem_cons_of_mem _ (List.mem_append_right _ h))
      have hEntry : ∀ rest, targetsOf (.label .entry :: rest) = targetsOf rest := fun _ => rfl
      have hJump : targetsOf finishCode = [.finish] := rfl
      simp only [targetsOf_append, targetsOf_preamble, hEntry, hJump, targetsOf_dataSection]
      intro l hl
      simp only [List.mem_append, List.mem_cons, List.not_mem_nil, or_false] at hl
      rcases hl with rfl | hl | hl | hl | rfl
      · simp
      · rcases hD.closed l hl with h | h
        · exact List.mem_append_left _ h
        · exact hDeclared l h
      · rcases hM.closed l hl with h | h
        · exact List.mem_append_right _ (List.mem_cons_of_mem _ (List.mem_append_left _ h))
        · exact hDeclared l (Program.declares_of_refers hNamed hScope h)
      · exact (hSettle.targetsOf l hl).elim
      · simp [Program.tailLabels]

theorem Compiled.wellFormed {stackWords : Nat} {lines : List Line}
    (h : Compiled program stackWords lines) : WellFormed lines :=
  h.code.programLines.wellFormed h.named h.spelled

end

end ChipPascal
