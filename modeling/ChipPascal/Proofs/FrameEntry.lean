import ChipPascal.Proofs.BaseDisplacement
import ChipPascal.Proofs.Safety
import ChipPascal.Proofs.Stages

/-!
# Frames and the stack pointer

A procedure is accepted if its variables take at most 255 bytes. The byte below them, which takes
the base of the caller, is not counted. So a frame at the bottom of the stack is out of reach of
what is pushed later, with one exception: if the variables take 255 bytes, the pointer wraps around
and comes to stand at the saved base.
-/

namespace ChipPascal

open Machine Line
open Lowering hiding State

/-- The stack pointer is above the byte `bottom`, where the base of the caller is saved, and above
every byte of every variable. -/
structure ProcDecl.AboveFrame (proc : ProcDecl) (bottom : Nat) (s : State) : Prop where
  saved : bottom < (s.reg .stack).toNat
  var : ∀ decl ∈ proc.vars, ∃ offset, proc.frames.offset? decl.name.name = some offset ∧
    ∀ i < decl.typeOf.bytes, (s.reg .base).toNat + offset.toNat + i < (s.reg .stack).toNat

def Stmt.callee? : Stmt → Option String
  | .call name [] => some name.name
  | _ => none

section

variable {program : Program} {stackWords : Nat} {lines : List Line} {image : Image}
  {proc : ProcDecl} {s t : State}

/-- Each variable of a frame that is not too large has its bytes within it. -/
theorem ProcDecl.exists_offset (hVars : NamedVars [] proc.vars) (hSize : proc.frameSize ≤ maxFrame)
    {decl : VarDecl} (hDecl : decl ∈ proc.vars) :
    ∃ offset, proc.frames.offset? decl.name.name = some offset ∧
      offset.toNat + decl.typeOf.bytes ≤ proc.frameSize := by
  have hFind := findVar_of_mem hVars.nodup.1 hDecl
  have hLe : varOffset proc.vars decl.name.name + decl.typeOf.bytes ≤ proc.frameSize :=
    varOffset_add_le hFind
  refine ⟨UInt8.ofNat (varOffset proc.vars decl.name.name), ?_, ?_⟩
  · rw [proc.offset?_frames, Slot.offset?_eq, place?_slot hFind]
    rfl
  · unfold maxFrame at hSize
    rw [UInt8.toNat_ofNat_of_lt' (by show _ < 256; omega)]
    exact hLe

/-- How high the pointer is above a frame at the bottom of the stack. -/
theorem ProcDecl.toNat_stack (hStack : t.reg .stack = 1 + UInt8.ofNat proc.frameSize) :
    (t.reg .stack).toNat = (1 + proc.frameSize) % 256 := by
  rw [hStack, UInt8.toNat_add, UInt8.toNat_ofNat']
  show (1 + proc.frameSize % 256) % 256 = _
  omega

theorem ProcDecl.aboveFrame_iff (hVars : NamedVars [] proc.vars)
    (hSize : proc.frameSize ≤ maxFrame) (hBase : t.reg .base = 1)
    (hStack : t.reg .stack = 1 + UInt8.ofNat proc.frameSize) :
    proc.AboveFrame 0 t ↔ proc.frameSize < maxFrame := by
  have hTop := ProcDecl.toNat_stack hStack
  unfold maxFrame at hSize ⊢
  constructor
  · intro h
    have hSaved := h.saved
    omega
  · intro hLess
    refine ⟨by omega, ?_⟩
    intro decl hDecl
    obtain ⟨offset, hOffset, hLe⟩ := ProcDecl.exists_offset hVars hSize hDecl
    refine ⟨offset, hOffset, ?_⟩
    intro i hi
    rw [hBase, hTop]
    show 1 + offset.toNat + i < _
    omega

theorem Loaded.get?_procedure (h : Loaded program lines image) (hProc : proc ∈ program.procs) :
    image.labels.get? (Label.procedure proc.name.name).text =
      some (image.addr (.procedure proc.name.name)) := by
  obtain ⟨-, n, code, n', rest, hCode, pre, hLines⟩ := h.proc proc hProc
  cases hCode with
  | mk hSize hBody =>
  rw [h.assembled.label hLines.symm, h.assembled.addr_eq hLines.symm]

/-- From the label of a procedure to the first line of its body, on an empty stack. -/
theorem Compiled.path_enterEmpty (h : Compiled program stackWords lines)
    (hAssembled : Assembled lines image) (hRoom : zone image.addr < memorySize)
    (hProc : proc ∈ program.procs) (hPc : s.pc = image.addr (.procedure proc.name.name))
    (hEmpty : s.reg .stack = 0) :
    proc.frameSize ≤ maxFrame ∧ ∃ body t,
      (.label (.procedure proc.name.name) ::
        (enterFrame (UInt8.ofNat proc.frameSize) ++ body)) <:+ lines ∧
      Path image s.calls.length 0 s t ∧ At lines body t.pc ∧ t.calls = s.calls ∧
      t.byte (zone image.addr) = s.reg .base ∧ t.reg .base = 1 ∧
      t.reg .stack = 1 + UInt8.ofNat proc.frameSize := by
  obtain ⟨-, n, code, n', rest, hCode, hSuffix⟩ := h.proc_suffix hProc
  cases hCode with
  | @mk body last _ hSize hBody =>
  simp only [List.cons_append, List.append_assoc] at hSuffix
  have hAt := hPc ▸ hAssembled.at_label hSuffix
  have hBottom : zone image.addr + (s.reg .stack).toNat < memorySize := by rwa [hEmpty]
  obtain ⟨t, hRun, hStack, -, hBase, hSaved, -⟩ :=
    run_enterFrame hBottom (UInt8.ofNat proc.frameSize)
  rw [hEmpty] at hStack hBase hSaved
  obtain ⟨hPath, hNext, hCalls⟩ := runLines_path hAssembled hAt hRun
  exact ⟨hSize, _, t, hSuffix, hPath, hNext, hCalls, hSaved, hBase, hStack⟩

theorem Stmt.callee?_eq_some {stmt : Stmt} {callee : String} (h : stmt.callee? = some callee) :
    ∃ name, stmt = .call name [] ∧ name.name = callee := by
  unfold Stmt.callee? at h
  split at h
  · next name => exact ⟨name, rfl, Option.some.inj h⟩
  · cases h

/-- The first statement of the main body finds an empty stack, and so does a procedure without
parameters that is called there. -/
theorem Compiled.after_firstCall (h : Compiled program stackWords lines)
    (hLoaded : Loaded program lines image) {callee : String}
    (hFirst : program.body.stmts.head?.bind Stmt.callee? = some callee)
    (hUser : Intrinsic.ofName? callee = none) :
    ∃ n s, after image n initial = some s ∧ s.pc = image.addr (.procedure callee) ∧
      s.reg .stack = 0 := by
  obtain ⟨name, stmts, hBody, rfl⟩ : ∃ name stmts,
      program.body.stmts = .call name [] :: stmts ∧ name.name = callee := by
    obtain ⟨stmt, hHead, hCallee⟩ := Option.bind_eq_some_iff.mp hFirst
    obtain ⟨stmts, hBody⟩ := List.head?_eq_some_iff.mp hHead
    obtain ⟨name, rfl, hName⟩ := Stmt.callee?_eq_some hCallee
    exact ⟨name, stmts, hBody, hName⟩
  obtain ⟨-, -, hCode⟩ := h
  cases hCode with
  | @mk decls n main last n' hDecls hMain =>
  rw [hBody] at hMain
  cases hMain with
  | cons hStmt hStmts =>
  cases hStmt with
  | call hCall =>
  cases hCall with
  | intrinsic hName =>
    rw [hUser] at hName
    cases hName
  | @user params _ _ _ hName hProc hCount hArgs =>
    obtain rfl : params = [] := List.length_eq_zero_iff.mp hCount.symm
    cases hArgs
    obtain ⟨s, ⟨m, hAfter, -⟩, hAt, -, hs⟩ := hLoaded.path_setup rfl
    obtain ⟨t, hRun, hStack⟩ : ∃ t, runLines image.addr
        [noted (.addByte .stack 1) ("call " ++ name.name), plain (.addByte .stack (-stagedBytes []))]
        s = some t ∧ t.reg .stack = s.reg .stack := by
      simp +decide only [noted_eq, plain_eq, stagedBytes, List.foldl_nil, runLines_addByte,
        runLines_nil, State.reg_setReg, if_true, Option.some.injEq, exists_eq_left',
        UInt8.add_assoc, UInt8.add_eq_left]
    have hStaged : At _ ([noted (.addByte .stack 1) ("call " ++ name.name),
      plain (.addByte .stack (-stagedBytes []))] ++ plain (.call (.procedure name.name)) :: _) s.pc :=
        hAt
    obtain ⟨⟨k, hAfter', -⟩, hCall, -⟩ := runLines_path hLoaded.assembled hStaged hRun
    have hStep := hLoaded.assembled.step_call hCall
    refine ⟨m + (k + 1),
      { t with pc := image.addr (.procedure name.name), calls := (t.pc + 2) :: t.calls },
      ?_, rfl, hStack.trans hs.stack⟩
    rw [after_add hAfter, after_add hAfter', after_succ hStep]
    rfl

end

/-- A procedure that is entered on an empty stack saves the base of the caller at the bottom, and
then the stack pointer is above its frame if and only if its variables take less than 255 bytes. -/
theorem aboveFrame_iff_frameSize_lt {source : String} {options : CompileOptions} {c : Compilation}
    {lines : List Line} {image : Image} (hCompile : compile source options = .ok c)
    (hLines : c.listing = some lines) (hRoom : zoneStart lines ≤ 0xFFF)
    (hImage : assemble? (listingText lines) = some image) {proc : ProcDecl}
    (hProc : proc ∈ (parse source).1.procs) {s : State}
    (hPc : image.labels.get? (Label.procedure proc.name.name).text = some s.pc)
    (hEmpty : s.reg .stack = 0) :
    proc.frameSize ≤ maxFrame ∧ ∃ body t,
      (.label (.procedure proc.name.name) ::
        (enterFrame (UInt8.ofNat proc.frameSize) ++ body)) <:+ lines ∧
      Path image s.calls.length 0 s t ∧ At lines body t.pc ∧ t.calls = s.calls ∧
      t.byte (zoneStart lines) = s.reg .base ∧ t.reg .base = 1 ∧
      (t.reg .stack).toNat = (1 + proc.frameSize) % 256 ∧
      (proc.AboveFrame 0 t ↔ proc.frameSize < maxFrame) := by
  have h := compile_listing hCompile hLines
  have hAssembled := h.wellFormed.assembled hImage
  have hZone := h.zone_eq_zoneStart hAssembled
  have hBottom : zone image.addr < memorySize := by
    rw [hZone]
    exact Nat.lt_succ_of_le hRoom
  have hEntry : s.pc = image.addr (.procedure proc.name.name) := by simp [Image.addr, hPc]
  obtain ⟨hSize, body, t, hSuffix, hPath, hAt, hCalls, hSaved, hBase, hStack⟩ :=
    h.path_enterEmpty hAssembled hBottom hProc hEntry hEmpty
  have hVars := (h.proc_suffix hProc).1
  rw [hZone] at hSaved
  exact ⟨hSize, body, t, hSuffix, hPath, hAt, hCalls, hSaved, hBase,
    ProcDecl.toNat_stack hStack, ProcDecl.aboveFrame_iff hVars hSize hBase hStack⟩

def snug : String :=
  "var x: long; procedure f(); var k: long; begin k := x; x := k end; begin f() end."

theorem snug_aboveFrame : ∃ c lines image proc n s t, compile snug ⟨0, false⟩ = .ok c ∧
    c.listing = some lines ∧ zoneStart lines + 256 ≤ 0xFFF ∧
    assemble? (listingText lines) = some image ∧ proc ∈ (parse snug).1.procs ∧
    after image n initial = some s ∧
    image.labels.get? (Label.procedure proc.name.name).text = some s.pc ∧ s.reg .stack = 0 ∧
    Path image s.calls.length 0 s t ∧ proc.frameSize = 2 ∧ proc.AboveFrame 0 t := by
  obtain ⟨c, lines, hCompile, hLines, hTest⟩ :=
    exists_listing (p := fun lines => decide (zoneStart lines + 256 ≤ 0xFFF) &&
        (parse snug).1.procs.any (fun proc => proc.name.name = "f" ∧ proc.frameSize = 2) &&
        decide ((parse snug).1.body.stmts.head?.bind Stmt.callee? = some "f"))
      (by
        rw [show compile snug _ = _ from compile_ofList _ _,
          show parse snug = _ from parse_ofList _]
        decide +kernel :
          ((compile snug ⟨0, false⟩).toOption.bind (·.listing)).any _ = true)
  simp only [Bool.and_eq_true, List.any_eq_true, decide_eq_true_eq] at hTest
  obtain ⟨⟨hRoom, proc, hProc, hName, hSize⟩, hFirst⟩ := hTest
  have h := compile_listing hCompile hLines
  obtain ⟨image, -, hImage, hHasRoom, -⟩ := h.exists_checked hRoom (by dsimp only; omega)
  have hLoaded := h.loaded hImage hHasRoom
  obtain ⟨n, s, hAfter, hPc, hEmpty⟩ := h.after_firstCall hLoaded hFirst (by decide)
  have hLabel := hLoaded.get?_procedure hProc
  rw [hName, ← hPc, ← hName] at hLabel
  obtain ⟨-, body, t, -, hPath, -, -, -, -, -, hAbove⟩ :=
    aboveFrame_iff_frameSize_lt hCompile hLines (by omega) hImage hProc hLabel hEmpty
  exact ⟨c, lines, image, proc, n, s, t, hCompile, hLines, hRoom, hImage, hProc, hAfter, hLabel,
    hEmpty, hPath, hSize, hAbove.mpr (by rw [hSize]; decide)⟩

/-! ### A frame of 255 bytes -/

/-- A text in which no stage finds a mistake is compiled to what lowering makes of it. -/
theorem exists_compilation {source : String} {stackWords : Nat} (hRead : (parse source).2 = [])
    (hNames : nameErrors (parse source).1 = [])
    (hKinds : (checkKinds (parse source).1).2.reports = [])
    (hErrors : (lowerFrom .initial stackWords (parse source).1).2.errors = []) :
    ∃ c lines, compile source ⟨stackWords, false⟩ = .ok c ∧ c.listing = some lines ∧
      (lowerFrom .initial stackWords (parse source).1).1 = .ok lines := by
  obtain ⟨c, hCompile, hEnds⟩ := compile_ends source ⟨stackWords, false⟩
  cases hEnds with
  | unread h => exact absurd hRead h
  | unnamed _ h => exact absurd hNames h
  | unkinded _ _ h => exact absurd hKinds h
  | checked _ _ _ h => cases h
  | @lowered lines s _ _ _ _ hLower =>
    rw [hLower] at hErrors
    exact ⟨_, lines, hCompile, if_pos hErrors, by rw [hLower]⟩

/-- A procedure whose variables take 255 bytes: 126 of two bytes each, and three of one. -/
def brimText : List Char :=
  "procedure p(); var ".toList ++
    ("abcdefghijklmn".toList.flatMap fun c => "123456789".toList.flatMap fun d =>
      c :: d :: ": long; ".toList) ++
    "x: integer; y: integer; z: integer; begin end; begin p() end.".toList

/-- The machine gets to a body with the stack pointer at the saved base. -/
theorem brim_not_aboveFrame : ∃ c lines image proc n t body,
    compile (String.ofList brimText) ⟨0, false⟩ = .ok c ∧ c.listing = some lines ∧
    zoneStart lines + 256 ≤ 0xFFF ∧ assemble? (listingText lines) = some image ∧
    proc ∈ (parse (String.ofList brimText)).1.procs ∧ after image n initial = some t ∧
    (.label (.procedure proc.name.name) ::
      (enterFrame (UInt8.ofNat proc.frameSize) ++ body)) <:+ lines ∧ At lines body t.pc ∧
    t.reg .base = 1 ∧ t.reg .stack = 0 ∧ ¬ proc.AboveFrame 0 t := by
  have hTest : ((parseChars brimText).2.isEmpty && (nameErrors (parseChars brimText).1).isEmpty &&
      (checkKinds (parseChars brimText).1).2.reports.isEmpty &&
      (lowerFrom .initial 0 (parseChars brimText).1).2.errors.isEmpty &&
      ((lowerFrom .initial 0 (parseChars brimText).1).1.toOption.all
        fun lines => zoneStart lines + 256 ≤ 0xFFF) &&
      decide ((parseChars brimText).1.body.stmts.head?.bind Stmt.callee? = some "p") &&
      (parseChars brimText).1.procs.any
        fun proc => proc.name.name = "p" ∧ proc.frameSize = maxFrame) = true := by
    decide +kernel
  rw [← parse_ofList] at hTest
  simp only [Bool.and_eq_true, List.isEmpty_iff, List.any_eq_true, decide_eq_true_eq] at hTest
  obtain ⟨⟨⟨⟨⟨⟨hRead, hNames⟩, hKinds⟩, hErrors⟩, hRoom⟩, hFirst⟩, proc, hProc, hName, hSize⟩ := hTest
  obtain ⟨c, lines, hCompile, hLines, hLower⟩ := exists_compilation hRead hNames hKinds hErrors
  rw [hLower] at hRoom
  have hRoom : zoneStart lines + 256 ≤ 0xFFF := of_decide_eq_true hRoom
  have h := compile_listing hCompile hLines
  obtain ⟨image, -, hImage, hHasRoom, -⟩ := h.exists_checked hRoom (by dsimp only; omega)
  have hLoaded := h.loaded hImage hHasRoom
  obtain ⟨n, s, hAfter, hPc, hEmpty⟩ := h.after_firstCall hLoaded hFirst (by decide)
  obtain ⟨-, body, t, hSuffix, ⟨m, hAfter', -⟩, hAt, -, -, hBase, hStack⟩ :=
    h.path_enterEmpty hLoaded.assembled (zone_lt hHasRoom 0) hProc (hName ▸ hPc) hEmpty
  refine ⟨c, lines, image, proc, n + m, t, body, hCompile, hLines, hRoom, hImage, hProc,
    (after_add hAfter m).trans hAfter', hSuffix, hAt, hBase, ?_, ?_⟩
  · rw [hStack, hSize]
    rfl
  · rw [ProcDecl.aboveFrame_iff (hLoaded.proc proc hProc).1 (Nat.le_of_eq hSize) hBase hStack, hSize]
    exact Nat.lt_irrefl _

end ChipPascal
