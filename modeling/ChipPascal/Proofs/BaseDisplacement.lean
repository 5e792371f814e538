import ChipPascal.Proofs.ControlPaths

/-!
# The displacement of the frame base

While the body of a procedure runs, the base register is left at the variable used last. Lowering
keeps the displacement in mind from line to line; here it is compared with what the lines on a path
add up to, on every path through the body. They agree wherever a variable is reached, and both are
zero wherever paths part or meet and where the frame is dropped.
-/

namespace ChipPascal

open Lowering Line

/-! ### What a path adds up to -/

def Line.baseShift : Line → UInt8
  | instr (.addByte x k) _ => if x = .base then k else 0
  | _ => 0

def displacement (passed : List Line) : UInt8 :=
  passed.foldl (fun d line => d + line.baseShift) 0

def Line.aimNote (note : Option String) : Line → Option String
  | instr (.index _) own => own
  | _ => note

def aimNote (passed : List Line) : Option String := passed.foldl Line.aimNote none

/-- The variable that a note is about: what comes after the first blank. -/
def notedName (note : String) : String := String.ofList ((note.toList.dropWhile (· ≠ ' ')).drop 1)

@[simp] theorem displacement_append (passed : List Line) (line : Line) :
    displacement (passed ++ [line]) = displacement passed + line.baseShift := by
  simp [displacement]

@[simp] theorem aimNote_append (passed : List Line) (line : Line) :
    aimNote (passed ++ [line]) = line.aimNote (aimNote passed) := by
  simp [aimNote]

def ProcDecl.frames (proc : ProcDecl) : Frames :=
  proc.vars.foldl (fun frames decl => frames.push decl.name.name decl.typeOf.size)
    Frames.empty.openLocal

/-- Lowering finds a variable at the offset of its slot among those of the procedure. -/
theorem ProcDecl.offset?_frames (proc : ProcDecl) (name : String) :
    proc.frames.offset? name = Slot.offset? name (proc.vars.map (·.slot)) := by
  have hPush : ∀ (vars : List VarDecl) {frames : Frames} {slots : List Slot},
      frames.InFrame slots 0 →
      (vars.foldl (fun frames decl => frames.push decl.name.name decl.typeOf.size) frames).InFrame
        (slots ++ vars.map (·.slot)) 0 := by
    intro vars
    induction vars with
    | nil =>
      intro frames slots h
      simpa using h
    | cons decl vars ih =>
      intro frames slots h
      simpa [VarDecl.slot] using ih (h.push decl.name.name decl.typeOf.size)
  exact Frames.Shows.offset? (.inr (hPush proc.vars Frames.atRoot_empty.openLocal)) name

/-! ### A check of the displacement -/

/-- What is known of the base between two lines of a body. -/
inductive Drift where
  /-- It is displaced; the note is that of the last line that points `I` at a label, unless control
  may come from elsewhere. -/
  | along (d : UInt8) (note : Option String)
  /-- After a test, before the jump that it may skip. -/
  | testing
  /-- After the return. -/
  | gone
deriving DecidableEq, Repr

def Label.isBranch : Label → Bool
  | elseBranch _ | endBranch _ => true
  | _ => false

/-- What is known after an instruction at the displacement `d`, unless it breaks a rule: a variable
is reached at its offset, and at a test, a jump or the dropping of the frame nothing is
displaced. -/
def Instr.drift? (slots : List Slot) (d : UInt8) (note own : Option String) : Instr → Option Drift
  | index _ => some (.along d own)
  | addByte x k => some (.along (if x = .base then d + k else d) note)
  | addIndex x =>
    if x = .base → (note.bind fun text => Slot.offset? (notedName text) slots) = some d then
      some (.along d note)
    else none
  | skipNe _ _ => if d = 0 then some .testing else none
  | jump l => if d = 0 ∧ l.isBranch then some (.along 0 none) else none
  | copy x y => if x = .stack → y = .base → d = 0 then some (.along d note) else none
  | ret => some .gone
  | set .. | indexByte _ | save _ | load _ | decimal _ | glyph _ | add .. | sub .. | xor .. | or ..
  | call _ | cls | breakpoint | draw .. => some (.along d note)

def Line.drift? (slots : List Slot) : Drift → Line → Option Drift
  | .along d note, .instr i own => i.drift? slots d note own
  | .along d _, .label _ => if d = 0 then some (.along 0 none) else none
  | .testing, .instr (.jump l) _ => if l.isBranch then some (.along 0 none) else none
  | .testing, _ => none
  | .gone, .instr _ _ | .gone, .label _ => none
  | s, .blank | s, .remark _ | s, .word => some s

attribute [local simp] Line.drift? Instr.drift?

/-- The lines take the displacement from `d` to `d'` and break no rule. -/
def Steady (slots : List Slot) (d : UInt8) (lines : List Line) (d' : UInt8) : Prop :=
  ∀ note, ∃ note', lines.foldlM (Line.drift? slots) (.along d note) = some (.along d' note')

section

variable {env : Env} {slots : List Slot} {d d' last last' : UInt8} {n n' : Nat}
  {a b lines : List Line}

theorem Steady.nil : Steady slots d [] d := fun note => ⟨note, rfl⟩

theorem Steady.append (ha : Steady slots d a d') (hb : Steady slots d' b last) :
    Steady slots d (a ++ b) last := by
  intro note
  obtain ⟨note₁, ha'⟩ := ha note
  obtain ⟨note₂, hb'⟩ := hb note₁
  refine ⟨note₂, ?_⟩
  rw [List.foldlM_append, ha']
  exact hb'

theorem steady_piece (h : Piece lines) : Steady slots d lines d := by
  intro note
  cases h with
  | literal mode wide value => cases mode <;> cases wide <;> exact ⟨_, rfl⟩
  | unary op wide => cases op <;> cases wide <;> exact ⟨_, rfl⟩
  | spill wide => cases wide <;> exact ⟨_, rfl⟩
  | reload mode wide => cases mode <;> cases wide <;> exact ⟨_, rfl⟩
  | stage type => cases type <;> exact ⟨_, rfl⟩
  | intrinsic intrinsic => cases intrinsic <;> exact ⟨_, rfl⟩
  | bcd => exact ⟨_, rfl⟩
  | gap => exact ⟨_, rfl⟩

theorem steady_readVar (mode : Mode) (wide isWide : Bool) :
    Steady slots d (readVar mode wide isWide) d := by
  intro note
  cases mode <;> cases wide <;> cases isWide <;> exact ⟨_, rfl⟩

theorem steady_storeAccumulator (type : ValueType) : Steady slots d (storeAccumulator type) d := by
  intro note
  cases type <;> exact ⟨_, rfl⟩

theorem notedName_read (mode : Mode) (name : String) :
    notedName (mode.mnemonic ++ " " ++ name) = name := by
  cases mode <;> simp [notedName, Mode.mnemonic, List.dropWhile]

theorem notedName_assign (name : String) : notedName ("assign " ++ name) = name := by
  simp [notedName, List.dropWhile]

/-- A variable of the frame is reached at its offset. -/
theorem steady_address {name note : String} {isGlobal : Bool} (hNote : notedName note = name)
    (h : AddressCode slots name note isGlobal last lines last') : Steady slots last lines last' := by
  intro own
  cases h with
  | global last => exact ⟨_, rfl⟩
  | slot last offset hOffset =>
    have hReached : ((some note).bind fun text => Slot.offset? (notedName text) slots) =
        some last' := by simpa [hNote] using hOffset
    refine ⟨some note, ?_⟩
    have hAdd : last + (last' - last) = last' := by
      rw [UInt8.add_comm, UInt8.sub_add_cancel]
    split
    · next hSame =>
      have hEq : last' = last := by
        rw [← hAdd, hSame, UInt8.add_zero]
      subst hEq
      simp [noted, plain, hReached]
    · simp [noted, plain, hAdd, hReached]

/-- Settling takes any displacement back to none. -/
theorem steady_settleCode : Steady slots last (settleCode last) 0 := by
  intro note
  refine ⟨note, ?_⟩
  unfold settleCode
  split
  · next hZero =>
    subst hZero
    rfl
  · have hAdd : last + -last = 0 := by
      rw [← UInt8.sub_eq_add_neg, UInt8.sub_self]
    simp [noted, hAdd]

theorem steady_testCode (wide : Bool) (k : Nat) :
    Steady slots 0 (testCode wide (.elseBranch k)) 0 := by
  intro note
  cases wide <;> exact ⟨_, rfl⟩

theorem steady_strand (h : Strand env last lines last') : Steady env.slots last lines last' := by
  induction h with
  | nil last => exact .nil
  | append _ _ ih ih' => exact ih.append ih'
  | piece h last => exact steady_piece h
  | @read mode wide name info _ _ _ hInfo hAddress =>
    exact (steady_address (notedName_read mode name) hAddress).append (steady_readVar _ _ _)
  | @write name info _ _ _ hInfo hAddress =>
    exact (steady_address (notedName_assign name) hAddress).append (steady_storeAccumulator _)
  | prepare hProc last => exact fun note => ⟨_, rfl⟩
  | call hProc hName last => exact fun note => ⟨_, rfl⟩

/-- A test settles first, so that nothing is displaced on either way out of it. -/
theorem steady_test (h : Strand env last lines last') (wide : Bool) (k : Nat) :
    Steady env.slots last (lines ++ (settleCode last' ++ testCode wide (.elseBranch k))) 0 :=
  (steady_strand h).append (steady_settleCode.append (steady_testCode wide k))

/-- Branches are settled before they meet, so the displacement at each line of a body is one number,
whichever way control came. -/
theorem steady_body (h : BodyCode env last n lines last' n') : Steady env.slots last lines last' := by
  have hLabel : ∀ l, Steady env.slots 0 [.label l] 0 := fun l note => ⟨_, rfl⟩
  have hTurn : ∀ k m, Steady env.slots 0 [plain (.jump (.endBranch k)), .label m] 0 :=
    fun k m note => ⟨_, rfl⟩
  induction h with
  | strand h => exact steady_strand h
  | unused => exact .nil
  | append _ _ ih ih' => exact ih.append ih'
  | ifThen hCond _ ih =>
    exact (steady_test hCond _ _).append (ih.append (steady_settleCode.append (hLabel _)))
  | ifElse hCond _ _ ih ih' =>
    exact (steady_test hCond _ _).append (ih.append (steady_settleCode.append
      ((hTurn _ _).append (ih'.append (steady_settleCode.append (hLabel _))))))

/-- From the making of its frame to its return a procedure breaks no rule. -/
theorem drift_procedure (h : BodyCode env 0 n lines last n') :
    (lines ++ (settleCode last ++ (leaveFrame ++ [plain .ret, blank]))).foldlM
      (Line.drift? env.slots) (.along 0 none) = some .gone := by
  obtain ⟨note, hFold⟩ := ((steady_body h).append steady_settleCode) none
  rw [← List.append_assoc, List.foldlM_append, hFold]
  rfl

end

/-! ### Walks through a body -/

def Drift.Fits (passed : List Line) : Drift → Prop
  | along d note => displacement passed = d ∧ (note = none ∨ note = aimNote passed)
  | testing => displacement passed = 0
  | gone => False

/-- The lines `own` of a procedure, up to its return, break no rule, and jumps among them stay
among them. -/
structure Contained (slots : List Slot) (lines own others : List Line) : Prop where
  check : own.foldlM (Line.drift? slots) (.along 0 none) = some .gone
  suffix : own ++ others <:+ lines
  nodup : (labelsOf lines).Nodup
  closed : ∀ l ∈ targetsOf own, l.isBranch = true → l ∈ labelsOf own

/-- Control stands in the procedure, and what is known of the base there is true. -/
def InStep (slots : List Slot) (own others passed here : List Line) : Prop :=
  ∃ rest s, rest <:+ own ∧ here = rest ++ others ∧
    rest.foldlM (Line.drift? slots) s = some .gone ∧ s.Fits passed

section

variable {slots : List Slot} {lines own others passed here there : List Line} {line : Line}
  {s s' : Drift} {l : Label}

theorem InStep.exists_line (h : InStep slots own others passed here) :
    ∃ line rest s s', here = line :: (rest ++ others) ∧ line :: rest <:+ own ∧
      line.drift? slots s = some s' ∧ rest.foldlM (Line.drift? slots) s' = some .gone ∧
      s.Fits passed := by
  obtain ⟨rest, s, hSuffix, rfl, hFold, hFits⟩ := h
  cases rest with
  | nil =>
    obtain rfl := Option.some.inj hFold
    exact hFits.elim
  | cons line rest =>
    obtain ⟨s', hLine, hRest⟩ := Option.bind_eq_some_iff.mp hFold
    exact ⟨line, rest, s, s', rfl, hSuffix, hLine, hRest, hFits⟩

/-- What is known after a line is true after it was passed. -/
theorem Drift.Fits.pass (hPasses : line.passes = true) (hLine : line.drift? slots s = some s')
    (h : s.Fits passed) : s'.Fits (passed ++ [line]) := by
  cases s with
  | gone => exact h.elim
  | testing =>
    cases line with
    | instr i own =>
      cases i with
      | jump l => cases hPasses
      | _ => cases hLine
    | _ => cases hLine
  | along d note =>
    obtain ⟨rfl, hNote⟩ := h
    cases line with
    | blank | remark _ | word =>
      obtain rfl := Option.some.inj hLine
      simpa [Drift.Fits, Line.baseShift, Line.aimNote] using hNote
    | label l =>
      simp only [Line.drift?, Option.ite_none_right_eq_some, Option.some.injEq] at hLine
      obtain ⟨hZero, rfl⟩ := hLine
      simp [Drift.Fits, Line.baseShift, hZero]
    | instr i own =>
      cases i with
      | jump l | ret => cases hPasses
      | index l =>
        obtain rfl := Option.some.inj hLine
        simp [Drift.Fits, Line.baseShift, Line.aimNote]
      | addByte x k =>
        obtain rfl := Option.some.inj hLine
        refine ⟨?_, by simpa [Line.aimNote] using hNote⟩
        rw [displacement_append]
        by_cases hBase : x = .base <;> simp [Line.baseShift, hBase]
      | skipNe x k =>
        simp only [Line.drift?, Instr.drift?, Option.ite_none_right_eq_some,
          Option.some.injEq] at hLine
        obtain ⟨hZero, rfl⟩ := hLine
        simp [Drift.Fits, Line.baseShift, hZero]
      | addIndex x | copy x y =>
        simp only [Line.drift?, Instr.drift?, Option.ite_none_right_eq_some,
          Option.some.injEq] at hLine
        obtain ⟨-, rfl⟩ := hLine
        simpa [Drift.Fits, Line.baseShift, Line.aimNote] using hNote
      | _ =>
        obtain rfl := Option.some.inj hLine
        simpa [Drift.Fits, Line.baseShift, Line.aimNote] using hNote

theorem Contained.from_label (hBody : Contained slots lines own others) {a b : List Line}
    (hOwn : own = a ++ .label l :: b) :
    (Line.label l :: b).foldlM (Line.drift? slots) (.along 0 none) = some .gone := by
  have hCheck := hBody.check
  rw [hOwn, List.foldlM_append] at hCheck
  obtain ⟨s, -, hFold⟩ := Option.bind_eq_some_iff.mp hCheck
  obtain ⟨s', hLine, hRest⟩ := Option.bind_eq_some_iff.mp hFold
  cases s with
  | testing | gone => cases hLine
  | along d note =>
    simp only [Line.drift?, Option.ite_none_right_eq_some, Option.some.injEq] at hLine
    obtain ⟨-, rfl⟩ := hLine
    exact hRest

/-- A label stands in one place only. -/
theorem label_suffix_unique (hNodup : (labelsOf lines).Nodup) {a b : List Line}
    (ha : .label l :: a <:+ lines) (hb : .label l :: b <:+ lines) : a = b := by
  have hOnce : ∀ {c}, .label l :: c <:+ lines → l ∉ labelsOf c := by
    rintro c ⟨pre, rfl⟩ hMem
    rw [labelsOf_append] at hNodup
    exact (List.nodup_cons.mp (List.nodup_append.mp hNodup).2.1).1 hMem
  have hInside : ∀ {c d}, .label l :: c <:+ d → l ∈ labelsOf d := by
    rintro c _ ⟨pre, rfl⟩
    simp [labelsOf, Line.label?]
  rcases List.suffix_or_suffix_of_suffix ha hb with h | h
  · rcases List.suffix_cons_iff.mp h with hEq | hTail
    · exact (List.cons.inj hEq).2
    · exact absurd (hInside hTail) (hOnce hb)
  · rcases List.suffix_cons_iff.mp h with hEq | hTail
    · exact (List.cons.inj hEq).2.symm
    · exact absurd (hInside hTail) (hOnce ha)

/-- A jump of the procedure leads to a place in it at which nothing is displaced. -/
theorem Contained.jump (hBody : Contained slots lines own others) {note : Option String}
    {rest after : List Line} (hSuffix : .instr (.jump l) note :: rest <:+ own)
    (hBranch : l.isBranch = true) (hLabel : .label l :: after <:+ lines)
    (hZero : displacement passed = 0) :
    InStep slots own others (passed ++ [.instr (.jump l) note]) (.label l :: after) := by
  have hTarget : l ∈ targetsOf own :=
    List.mem_filterMap.mpr ⟨_, hSuffix.subset List.mem_cons_self, rfl⟩
  obtain ⟨a, b, hOwn⟩ := mem_labelsOf.mp (hBody.closed l hTarget hBranch)
  have hAfter : after = b ++ others := by
    apply label_suffix_unique hBody.nodup hLabel
    refine List.IsSuffix.trans ⟨a, ?_⟩ hBody.suffix
    rw [hOwn, List.append_assoc]
    rfl
  refine ⟨.label l :: b, .along 0 none, ⟨a, hOwn.symm⟩, by rw [hAfter]; rfl,
    hBody.from_label hOwn, ?_, .inl rfl⟩
  rw [displacement_append, hZero]
  rfl

/-- One step of control. -/
theorem InStep.step (hBody : Contained slots lines own others)
    (h : InStep slots own others passed here) (hStep : Goes lines here line there) :
    InStep slots own others (passed ++ [line]) there := by
  obtain ⟨first, rest, s, s', rfl, hSuffix, hLine, hRest, hFits⟩ := h.exists_line
  cases hStep with
  | pass hPasses =>
    exact ⟨rest, s', (List.suffix_cons _ _).trans hSuffix, rfl, hRest, hFits.pass hPasses hLine⟩
  | jump hLabel =>
    cases s with
    | gone => exact hFits.elim
    | testing =>
      simp only [Line.drift?, Option.ite_none_right_eq_some] at hLine
      exact hBody.jump hSuffix hLine.1 hLabel hFits
    | along d note =>
      simp only [Line.drift?, Instr.drift?, Option.ite_none_right_eq_some] at hLine
      obtain ⟨⟨rfl, hBranch⟩, -⟩ := hLine
      exact hBody.jump hSuffix hBranch hLabel hFits.1
  | skip =>
    -- what a test may skip is a jump
    have hTested : s' = .testing ∧ displacement passed = 0 := by
      cases s with
      | gone => exact hFits.elim
      | testing => cases hLine
      | along d note =>
        simp only [Line.drift?, Instr.drift?, Option.ite_none_right_eq_some,
          Option.some.injEq] at hLine
        exact ⟨hLine.2.symm, hFits.1.trans hLine.1⟩
    obtain ⟨rfl, hZero⟩ := hTested
    cases rest with
    | nil => cases hRest
    | cons next rest =>
      obtain ⟨s'', hNext, hRest⟩ := Option.bind_eq_some_iff.mp hRest
      cases next with
      | instr i own =>
        cases i with
        | jump m =>
          simp only [Line.drift?, Option.ite_none_right_eq_some, Option.some.injEq] at hNext
          obtain ⟨-, rfl⟩ := hNext
          have hTail := (List.suffix_cons _ _).trans ((List.suffix_cons _ _).trans hSuffix)
          refine ⟨rest, .along 0 none, hTail, rfl, hRest, ?_, .inl rfl⟩
          rw [displacement_append, hZero]
          rfl
        | _ => cases hNext
      | _ => cases hNext

/-- What one step keeps holds all along a walk from the start of the procedure. -/
theorem InStep.walk (hBody : Contained slots lines own others)
    (hWalk : Walk (Goes lines) (own ++ others) passed here) :
    InStep slots own others passed here := by
  induction hWalk with
  | start => exact ⟨own, .along 0 none, List.suffix_refl own, rfl, hBody.check, rfl, .inl rfl⟩
  | step _ hStep ih => exact ih.step hBody hStep

end

/-! ### Procedures of a listing -/

/-- Where a path through the body of a procedure has come to, its displacement is what lowering
took it for. -/
structure OnBase (proc : ProcDecl) (passed here : List Line) : Prop where
  /-- A local variable is reached at its offset. -/
  access : ∀ note rest, here = .instr (.addIndex .base) note :: rest →
    ∃ x, (aimNote passed).map notedName = some x ∧
      proc.frames.offset? x = some (displacement passed)
  /-- Nothing is displaced after a test, whichever way it goes. -/
  entry : ∀ before x k note, passed = before ++ [.instr (.skipNe x k) note] →
    displacement passed = 0
  /-- Nothing is displaced where paths meet. -/
  join : ∀ l rest, here = .label l :: rest → displacement passed = 0
  /-- Nothing is displaced where the frame is dropped. -/
  leave : ∀ note rest, here = .instr (.copy .stack .base) note :: rest → displacement passed = 0

section

variable {slots : List Slot} {lines own others passed here : List Line}

theorem Goes.exists_rest {line : Line} {there : List Line} (h : Goes lines here line there) :
    ∃ rest, here = line :: rest := by
  cases h <;> exact ⟨_, rfl⟩

/-- What the check asks of a line at which control stands. -/
theorem InStep.along_of_ne_jump (h : InStep slots own others passed here) {line : Line}
    {rest : List Line} (hHere : here = line :: rest)
    (hJump : ∀ l note, line ≠ .instr (.jump l) note) :
    ∃ note s', (note = none ∨ note = aimNote passed) ∧
      line.drift? slots (.along (displacement passed) note) = some s' := by
  obtain ⟨first, rest', s, s', hFirst, -, hLine, -, hFits⟩ := h.exists_line
  obtain ⟨rfl, -⟩ := List.cons.inj (hHere.symm.trans hFirst)
  cases s with
  | gone => exact hFits.elim
  | along d note =>
    obtain ⟨rfl, hNote⟩ := hFits
    exact ⟨note, s', hNote, hLine⟩
  | testing =>
    cases line with
    | instr i note =>
      cases i with
      | jump l => exact absurd rfl (hJump l note)
      | _ => cases hLine
    | _ => cases hLine

theorem Contained.onBase {proc : ProcDecl}
    (hBody : Contained (proc.vars.map (·.slot)) lines own others)
    (hWalk : Walk (Goes lines) (own ++ others) passed here) : OnBase proc passed here := by
  have hHere := InStep.walk hBody hWalk
  constructor
  · intro note rest hLine
    obtain ⟨noted, s', hNoted, hDrift⟩ := hHere.along_of_ne_jump hLine (by simp)
    simp only [Line.drift?, Instr.drift?, Option.ite_none_right_eq_some] at hDrift
    obtain ⟨text, hText, hOffset⟩ := Option.bind_eq_some_iff.mp (hDrift.1 trivial)
    rcases hNoted with rfl | rfl
    · cases hText
    · refine ⟨notedName text, by rw [hText]; rfl, ?_⟩
      rw [ProcDecl.offset?_frames]
      exact hOffset
  · rintro before x k note rfl
    generalize hPassed : before ++ [.instr (.skipNe x k) note] = passed at hWalk
    cases hWalk with
    | start => simp at hPassed
    | step hBefore hStep =>
      obtain ⟨rfl, hLine⟩ := List.append_inj' hPassed rfl
      obtain rfl := (List.cons.inj hLine).1
      obtain ⟨rest, hRest⟩ := hStep.exists_rest
      obtain ⟨noted, s', -, hDrift⟩ :=
        (InStep.walk hBody hBefore).along_of_ne_jump hRest (by simp)
      simp only [Line.drift?, Instr.drift?, Option.ite_none_right_eq_some] at hDrift
      rw [displacement_append, hDrift.1]
      rfl
  · intro l rest hLine
    obtain ⟨noted, s', -, hDrift⟩ := hHere.along_of_ne_jump hLine (by simp)
    simp only [Line.drift?, Option.ite_none_right_eq_some] at hDrift
    exact hDrift.1
  · intro note rest hLine
    obtain ⟨noted, s', -, hDrift⟩ := hHere.along_of_ne_jump hLine (by simp)
    simp only [Line.drift?, Instr.drift?, Option.ite_none_right_eq_some] at hDrift
    exact hDrift.1 trivial trivial

end

section

variable {program : Program} {proc : ProcDecl} {stackWords n n' : Nat} {lines : List Line}

theorem DeclsLines.exists_proc {decls : List Decl} (h : DeclsLines program decls n lines n')
    (hProc : .proc proc ∈ decls) :
    ∃ pre own rest m m', lines = pre ++ (own ++ rest) ∧ ProcLines program proc m own m' := by
  induction h with
  | nil n => simp at hProc
  | var _ ih => exact ih (by simpa using hProc)
  | @proc first decls _ a _ b _ hFirst hDecls ih =>
    rcases List.mem_cons.mp hProc with hSame | hMore
    · cases hSame
      exact ⟨[], a, b, _, _, rfl, hFirst⟩
    · obtain ⟨pre, own, rest, m, m', rfl, hOwn⟩ := ih hMore
      exact ⟨a ++ pre, own, rest, m, m', by rw [List.append_assoc], hOwn⟩

theorem ProgramLines.exists_proc (h : ProgramLines program stackWords lines)
    (hProc : .proc proc ∈ program.decls) :
    ∃ own rest m m', own ++ rest <:+ lines ∧ ProcLines program proc m own m' := by
  obtain ⟨hDecls, hMain⟩ := h
  obtain ⟨pre, own, rest, m, m', rfl, hOwn⟩ := hDecls.exists_proc hProc
  rw [List.append_assoc, List.append_assoc, ← List.append_assoc]
  exact ⟨own, _, m, m', List.suffix_append _ _, hOwn⟩

/-- The jumps of a body lead to labels of its own. -/
theorem contained_body (hNamed : program.WellNamed) (hSpelled : program.Spelled)
    (hProc : .proc proc ∈ program.decls) (hNodup : (labelsOf lines).Nodup)
    {body others : List Line} {last : UInt8}
    (hBody : BodyCode (program.env proc.vars) 0 n body last n')
    (hSuffix : (body ++ (settleCode last ++ (leaveFrame ++ [plain .ret, blank]))) ++ others <:+
      lines) :
    Contained (proc.vars.map (·.slot)) lines
      (body ++ (settleCode last ++ (leaveFrame ++ [plain .ret, blank]))) others := by
  refine ⟨drift_procedure hBody, hSuffix, hNodup, ?_⟩
  intro l hl hBranch
  have hLabels := bodyLabels (hSpelled.env hNamed (.inr ⟨proc, hProc, rfl⟩)) hBody
  have hSettle : Within (fun _ => False) (settleCode last) := within_settleCode
  have hLeave := within_leaveFrame (P := (· = .stackZone)) rfl
  rw [targetsOf_append, targetsOf_append] at hl
  rw [labelsOf_append]
  rcases List.mem_append.mp hl with hl | hl
  · rcases hLabels.closed l hl with h | h
    · exact List.mem_append_left _ h
    · rcases h with (rfl | rfl | rfl | ⟨_, _, rfl, -⟩) | ⟨_, _, rfl, -⟩ <;> cases hBranch
  · rcases List.mem_append.mp hl with hl | hl
    · exact (hSettle.targetsOf l hl).elim
    · obtain rfl := hLeave.targetsOf l hl
      cases hBranch

end

/-- In every listing that lowering returns for a program with all its names in order, whether or not
mistakes came up on the way, each procedure is on its base on every path from the making of its
frame. A frame that is too large has no body. -/
theorem base_displacement_agrees {source : String} {stackWords : Nat} {lines : List Line}
    {proc : ProcDecl} (hNames : nameErrors (parse source).1 = [])
    (hLines : (lowerFrom .initial stackWords (parse source).1).1 = .ok lines)
    (hProc : .proc proc ∈ (parse source).1.decls) :
    (proc.frameSize ≤ maxFrame ∧ ∃ start,
      .label (.procedure proc.name.name) :: (enterFrame (UInt8.ofNat proc.frameSize) ++ start) <:+
        lines ∧
      ∀ passed here, Walk (Goes lines) start passed here → OnBase proc passed here) ∨
    (maxFrame < proc.frameSize ∧ ∃ rest,
      .label (.procedure proc.name.name) :: plain .ret :: rest <:+ lines) := by
  have hNamed := Program.wellNamed_of_nameErrors hNames
  have hSpelled := parse_spelled source
  have hWritten := programLines_of_lowerFrom hNamed hLines
  have hNodup := (hWritten.wellFormed hNamed hSpelled).nodup
  obtain ⟨own, rest, m, m', hSuffix, hOwn⟩ := hWritten.exists_proc hProc
  cases hOwn with
  | tooLarge hSize => exact .inr ⟨hSize, blank :: rest, hSuffix⟩
  | @body body last _ hSize hBody =>
    left
    rw [List.cons_append, List.append_assoc] at hSuffix
    refine ⟨hSize, _, hSuffix, ?_⟩
    intro passed here hWalk
    have hInner := (List.suffix_append _ _).trans ((List.suffix_cons _ _).trans hSuffix)
    exact (contained_body hNamed hSpelled hProc hNodup hBody hInner).onBase hWalk

/-- There is no code for a quotient or a product: one statement is given up in a branch, after a
local was read, and one after the branches meet. -/
def strays : String :=
  "procedure f(n: integer; m: long); begin if m then m := n - (m / n) else n := m; m := n * 2 end;
   begin f(1, 2) end."

theorem strays_base_displacement_agrees : nameErrors (parse strays).1 = [] ∧
    (lowerFrom .initial 4 (parse strays).1).2.errors.length = 2 ∧
    ∃ lines proc start, (lowerFrom .initial 4 (parse strays).1).1 = .ok lines ∧
      .proc proc ∈ (parse strays).1.decls ∧ proc.vars.length = 2 ∧
      .label (.procedure proc.name.name) :: (enterFrame (UInt8.ofNat proc.frameSize) ++ start) <:+
        lines ∧
      ∀ passed here, Walk (Goes lines) start passed here → OnBase proc passed here := by
  have hChecks : nameErrors (parse strays).1 = [] ∧ (checkKinds (parse strays).1).2.reports = [] ∧
      (lowerFrom .initial 4 (parse strays).1).2.errors.length = 2 ∧
      ∃ proc ∈ (parse strays).1.procs, proc.frameSize ≤ maxFrame ∧ proc.vars.length = 2 := by
    decide +kernel
  obtain ⟨hNames, hKinds, hErrors, proc, hMem, hSize, hVars⟩ := hChecks
  obtain ⟨lines, hLines⟩ := lowerFrom_ok 4 hNames hKinds
  have hProc := Program.mem_procs.mp hMem
  rcases base_displacement_agrees hNames hLines hProc with ⟨-, start, hStart⟩ | ⟨hLarge, -⟩
  · exact ⟨hNames, hErrors, lines, proc, start, hLines, hProc, hVars, hStart⟩
  · exact absurd hSize (Nat.not_le_of_lt hLarge)

end ChipPascal
