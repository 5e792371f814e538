import ChipPascal.Proofs.ListingLabels

/-!
# Paths through a listing

Control passes from a line to the next one, over the instruction after a test, or to a label. Along
every such path the index register is where the last `ld I` has put it: what a listing reads and
writes through a label lies within the room that the label has.
-/

namespace ChipPascal

open Lowering Line

/-! ### Walks -/

def dropCell : List Line → List Line
  | [] => []
  | line :: rest => if line.cells = 0 then dropCell rest else rest

/-- Control can go on to the next line. -/
def Line.passes : Line → Bool
  | instr (.jump _) _ | instr .ret _ => false
  | _ => true

/-- At `here` control carries out a line and stands at `there`. A test goes either way, and a call
goes on to the next line. -/
inductive Goes (lines : List Line) : List Line → Line → List Line → Prop
  | pass {line rest} (h : line.passes = true) : Goes lines (line :: rest) line rest
  | skip {x k note rest} :
    Goes lines (.instr (.skipNe x k) note :: rest) (.instr (.skipNe x k) note) (dropCell rest)
  | jump {l note rest after} (h : .label l :: after <:+ lines) :
    Goes lines (.instr (.jump l) note :: rest) (.instr (.jump l) note) (.label l :: after)

/-- As `Goes`, and also into procedures and back, to behind any call. -/
inductive Crosses (lines : List Line) : List Line → Line → List Line → Prop
  | goes {here line there} (h : Goes lines here line there) : Crosses lines here line there
  | call {l note rest after} (h : .label l :: after <:+ lines) :
    Crosses lines (.instr (.call l) note :: rest) (.instr (.call l) note) (.label l :: after)
  | ret {l note note' rest after} (h : .instr (.call l) note' :: after <:+ lines) :
    Crosses lines (.instr .ret note :: rest) (.instr .ret note) after

/-- `Walk step start passed here`: from `start` control has carried out the lines `passed` and
stands at `here`. -/
inductive Walk (step : List Line → Line → List Line → Prop) (start : List Line) :
    List Line → List Line → Prop
  | start : Walk step start [] start
  | step {passed here line there} (h : Walk step start passed here)
    (hStep : step here line there) : Walk step start (passed ++ [line]) there

/-! ### What the index register points at -/

namespace Instr

def reach : Instr → Nat
  | save x | load x => x.val + 1
  | decimal _ => 3
  | draw _ _ rows => rows.toNat
  | _ => 0

def setsIndex : Instr → Bool
  | index _ | indexByte _ | glyph _ | addIndex _ => true
  | _ => false

end Instr

def Line.setsIndex : Line → Bool
  | instr i _ => i.setsIndex
  | _ => false

def Label.room? : Label → Option Nat
  | global _ => some 2
  | bcdLow | bcdHigh => some 4
  | _ => none

/-- What is known of `I` between two lines. -/
inductive Hold where
  /-- Control may come from elsewhere. -/
  | lost
  | held (l : Label)
  /-- Set, but not at a label. -/
  | away
  /-- After a test, before the jump that it may skip. -/
  | testing
deriving DecidableEq, Repr

def Hold.admits (bytes : Nat) : Hold → Bool
  | away => true
  | held l => l.room?.any (bytes ≤ ·)
  | lost | testing => false

def Instr.hold? (h : Hold) (i : Instr) : Option Hold :=
  match i with
  | index l => some (.held l)
  | indexByte _ | glyph _ => some .away
  | addIndex _ => if h = .held .stackZone then some .away else none
  | skipNe _ _ => some .testing
  | jump _ | call _ | ret => some .lost
  | save _ | load _ | decimal _ | draw .. | set .. | copy .. | add .. | addByte .. | sub .. | xor ..
  | or .. | cls | breakpoint => if i.reach = 0 ∨ h.admits i.reach then some h else none

def Line.hold? : Hold → Line → Option Hold
  | .testing, .instr (.jump _) _ => some .lost
  | .testing, _ => none
  | _, .label _ => some .lost
  | h, .instr i _ => i.hold? h
  | h, .blank | h, .remark _ | h, .word => some h

/-- Nothing goes astray in the lines, whatever is known of `I` before. -/
def Tracked (lines : List Line) : Prop :=
  ∀ h, h ≠ .testing → ∃ h', h' ≠ .testing ∧ lines.foldlM Line.hold? h = some h'

section

variable {g h k : Hold} {i : Instr} {a b lines : List Line}

/-- Knowing more of `I` does no harm: what passes with nothing known passes anyway, and either the
instruction sets `I` or what was known stays known. -/
theorem Instr.hold?_of_lost (hLost : i.hold? .lost = some g) (k : Hold) :
    i.hold? k = some g ∨ g = .lost ∧ i.hold? k = some k := by
  cases i with
  | addIndex x => simp [Instr.hold?] at hLost
  | save x | load x | decimal x => simp [Instr.hold?, Instr.reach, Hold.admits] at hLost
  | draw x y rows =>
    simp only [Instr.hold?, Hold.admits, Bool.false_eq_true, or_false,
      Option.ite_none_right_eq_some] at hLost ⊢
    obtain ⟨hRows, hSame⟩ := hLost
    exact .inr ⟨(Option.some.inj hSame).symm, if_pos (.inl hRows)⟩
  | index l | indexByte n | glyph x | skipNe x n | jump l | call l | ret => exact .inl hLost
  | _ => exact .inr ⟨(Option.some.inj hLost).symm, rfl⟩

theorem Line.hold?_instr (hk : k ≠ .testing) (note : Option String) :
    (Line.instr i note).hold? k = i.hold? k := by
  cases k with
  | testing => exact absurd rfl hk
  | _ => rfl

theorem Line.hold?_label (hk : k ≠ .testing) (l : Label) : (Line.label l).hold? k = some .lost := by
  cases k with
  | testing => exact absurd rfl hk
  | _ => rfl

theorem Line.hold?_of_lost {line : Line} (hLost : line.hold? .lost = some g) (hk : k ≠ .testing) :
    line.hold? k = some g ∨ g = .lost ∧ line.hold? k = some k := by
  cases line with
  | instr i note =>
    rw [Line.hold?_instr hk]
    exact Instr.hold?_of_lost hLost k
  | label l =>
    left
    rw [Line.hold?_label hk]
    exact hLost
  | _ =>
    right
    refine ⟨(Option.some.inj hLost).symm, ?_⟩
    cases k with
    | testing => exact absurd rfl hk
    | _ => rfl

/-- Where nothing goes astray while nothing is known of `I`, nothing does while more is. -/
theorem tracked_of_lost (hLost : lines.foldlM Line.hold? .lost = some g) (hg : g ≠ .testing) :
    Tracked lines := by
  intro k hk
  induction lines generalizing k with
  | nil => exact ⟨k, hk, rfl⟩
  | cons line lines ih =>
    obtain ⟨g₁, hLine, hRest⟩ := Option.bind_eq_some_iff.mp hLost
    rcases Line.hold?_of_lost hLine hk with hSame | ⟨rfl, hKept⟩
    · refine ⟨g, hg, ?_⟩
      rw [List.foldlM_cons, hSame]
      exact hRest
    · obtain ⟨g', hg', hFold⟩ := ih hRest k hk
      refine ⟨g', hg', ?_⟩
      rw [List.foldlM_cons, hKept]
      exact hFold

theorem Tracked.append (ha : Tracked a) (hb : Tracked b) : Tracked (a ++ b) := by
  intro h hh
  obtain ⟨h₁, hh₁, ha'⟩ := ha h hh
  obtain ⟨h₂, hh₂, hb'⟩ := hb h₁ hh₁
  refine ⟨h₂, hh₂, ?_⟩
  rw [List.foldlM_append, ha']
  exact hb'

/-! ### Every listing is tracked -/

theorem tracked_piece (h : Piece lines) : Tracked lines := by
  cases h with
  | literal mode wide value =>
    cases mode <;> cases wide <;> exact tracked_of_lost rfl (by simp)
  | unary op wide => cases op <;> cases wide <;> exact tracked_of_lost rfl (by simp)
  | spill wide => cases wide <;> exact tracked_of_lost rfl (by simp)
  | reload mode wide => cases mode <;> cases wide <;> exact tracked_of_lost rfl (by simp)
  | stage type => cases type <;> exact tracked_of_lost rfl (by simp)
  | intrinsic intrinsic => cases intrinsic <;> exact tracked_of_lost rfl (by simp)
  | bcd => exact tracked_of_lost rfl (by simp)
  | gap => exact tracked_of_lost rfl (by simp)

theorem tracked_settleCode (last : UInt8) : Tracked (settleCode last) := by
  unfold settleCode
  split <;> exact tracked_of_lost rfl (by simp)

theorem tracked_testCode (wide : Bool) (l : Label) : Tracked (testCode wide l) := by
  cases wide <;> exact tracked_of_lost rfl (by simp)

theorem tracked_label (l : Label) : Tracked [.label l] := tracked_of_lost rfl (by simp)

variable {env : Env} {last last' : UInt8} {n n' : Nat}

/-- A variable is reached through its own label or on the stack, then read or written. -/
theorem tracked_address {name note : String} {isGlobal : Bool} {after : List Line}
    (h : AddressCode env.slots name note isGlobal last lines last')
    (hGlobal : ∃ g, g ≠ .testing ∧ after.foldlM Line.hold? (.held (.global name)) = some g)
    (hSlot : ∃ g, g ≠ .testing ∧ after.foldlM Line.hold? .away = some g) :
    Tracked (lines ++ after) := by
  cases h with
  | global last =>
    obtain ⟨g, hg, hAfter⟩ := hGlobal
    exact tracked_of_lost hAfter hg
  | slot last offset hOffset =>
    obtain ⟨g, hg, hAfter⟩ := hSlot
    split <;> exact tracked_of_lost hAfter hg

theorem tracked_strand (h : Strand env last lines last') : Tracked lines := by
  induction h with
  | nil last => exact tracked_of_lost rfl (by simp)
  | append _ _ ih ih' => exact ih.append ih'
  | piece h => exact tracked_piece h
  | @read mode wide name info _ _ _ hInfo hAddress =>
    apply tracked_address hAddress
    · cases mode <;> cases wide <;> cases info.type <;> exact ⟨_, by simp, rfl⟩
    · cases mode <;> cases wide <;> cases info.type <;> exact ⟨_, by simp, rfl⟩
  | @write name info _ _ _ hInfo hAddress =>
    apply tracked_address hAddress
    · cases info.type <;> exact ⟨_, by simp, rfl⟩
    · cases info.type <;> exact ⟨_, by simp, rfl⟩
  | prepare hProc => exact tracked_of_lost rfl (by simp)
  | call hProc hName => exact tracked_of_lost rfl (by simp)

theorem tracked_test (h : Strand env last lines last') (wide : Bool) (l : Label) :
    Tracked (lines ++ (settleCode last' ++ testCode wide l)) :=
  (tracked_strand h).append ((tracked_settleCode last').append (tracked_testCode wide l))

/-- Nothing goes astray in a body, whichever branch is taken. -/
theorem tracked_body (h : BodyCode env last n lines last' n') : Tracked lines := by
  induction h with
  | strand h => exact tracked_strand h
  | unused => exact tracked_of_lost rfl (by simp)
  | append _ _ ih ih' => exact ih.append ih'
  | ifThen hCond _ ih =>
    exact (tracked_test hCond _ _).append
      (ih.append ((tracked_settleCode _).append (tracked_label _)))
  | ifElse hCond _ _ ih ih' =>
    have hTurn : ∀ l m, Tracked [plain (.jump l), .label m] := fun l m =>
      tracked_of_lost rfl (by simp)
    exact (tracked_test hCond _ _).append (ih.append ((tracked_settleCode _).append
      ((hTurn _ _).append (ih'.append ((tracked_settleCode _).append (tracked_label _))))))

theorem tracked_proc {program : Program} {proc : ProcDecl}
    (h : ProcLines program proc n lines n') : Tracked lines := by
  cases h with
  | tooLarge hSize => exact tracked_of_lost rfl (by simp)
  | @body body last _ hSize hBody =>
    have hEnter : Tracked (enterFrame (UInt8.ofNat proc.frameSize)) := by
      unfold enterFrame
      split <;> exact tracked_of_lost rfl (by simp)
    have hLeave : Tracked (leaveFrame ++ [plain .ret, blank]) := tracked_of_lost rfl (by simp)
    exact (tracked_label _).append (hEnter.append ((tracked_body hBody).append
      ((tracked_settleCode last).append hLeave)))

theorem tracked_decls {program : Program} {decls : List Decl}
    (h : DeclsLines program decls n lines n') : Tracked lines := by
  induction h with
  | nil n => exact tracked_of_lost rfl (by simp)
  | var _ ih => exact ih
  | proc hProc _ ih => exact (tracked_proc hProc).append ih

/-- Lines without instructions do nothing to `I`. -/
theorem tracked_of_no_instr (h : ∀ i note, .instr i note ∉ lines) : Tracked lines := by
  induction lines with
  | nil => exact tracked_of_lost rfl (by simp)
  | cons line lines ih =>
    have hRest := ih fun i note hMem => h i note (List.mem_cons_of_mem line hMem)
    have hLine : Tracked [line] := by
      cases line with
      | instr i note => exact absurd List.mem_cons_self (h i note)
      | _ => exact tracked_of_lost rfl (by simp)
    exact hLine.append hRest

theorem ProgramLines.tracked {program : Program} {stackWords : Nat}
    (h : ProgramLines program stackWords lines) : Tracked lines := by
  obtain ⟨hDecls, hMain⟩ := h
  next decls _ main last _ =>
  have hPreamble : Tracked (preamble program.name.name) := tracked_of_lost rfl (by simp)
  have hFinish : Tracked finishCode := tracked_of_lost rfl (by simp)
  have hData : Tracked (dataSection (program.globals.map (·.name.name)) stackWords) :=
    tracked_of_no_instr instr_not_mem_dataSection
  exact hPreamble.append ((tracked_decls hDecls).append ((tracked_label .entry).append
    ((tracked_body hMain).append ((tracked_settleCode last).append (hFinish.append hData)))))

/-! ### Walks from where the index register is set -/

/-- Nothing goes astray from here on, and `I` may still be at `l`. -/
def StillAt (l : Label) (here : List Line) : Prop :=
  ∃ h g, (h = .held l ∨ h = .lost ∨ h = .testing) ∧ here.foldlM Line.hold? h = some g

variable {l : Label} {here there : List Line} {line : Line} {note : Option String}

theorem Line.hold?_kept (hLine : line.hold? h = some g) (hKeeps : line.setsIndex = false) :
    g = h ∨ g = .lost ∨ g = .testing := by
  by_cases hh : h = .testing
  · subst hh
    cases line with
    | instr i note =>
      cases i with
      | jump l => exact .inr (.inl (Option.some.inj hLine).symm)
      | _ => cases hLine
    | _ => cases hLine
  · cases line with
    | label m =>
      rw [Line.hold?_label hh] at hLine
      exact .inr (.inl (Option.some.inj hLine).symm)
    | instr i note =>
      rw [Line.hold?_instr hh] at hLine
      cases i with
      | index m | indexByte k | glyph x | addIndex x => cases hKeeps
      | skipNe x k => exact .inr (.inr (Option.some.inj hLine).symm)
      | jump m | call m | ret => exact .inr (.inl (Option.some.inj hLine).symm)
      | _ =>
        simp only [Instr.hold?] at hLine
        grind
    | _ =>
      cases h with
      | testing => exact absurd rfl hh
      | _ => exact .inl (Option.some.inj hLine).symm

theorem Tracked.of_suffix (hAll : Tracked lines) (hSuffix : here <:+ lines) :
    ∃ h g, here.foldlM Line.hold? h = some g := by
  obtain ⟨pre, rfl⟩ := hSuffix
  obtain ⟨g, -, hFold⟩ := hAll .lost (by simp)
  rw [List.foldlM_append] at hFold
  obtain ⟨h, -, hHere⟩ := Option.bind_eq_some_iff.mp hFold
  exact ⟨h, g, hHere⟩

theorem Tracked.stillAt_label (hAll : Tracked lines) {m : Label}
    (hSuffix : .label m :: here <:+ lines) : StillAt l (.label m :: here) := by
  obtain ⟨h, g, hFold⟩ := hAll.of_suffix hSuffix
  refine ⟨.lost, g, .inr (.inl rfl), ?_⟩
  cases h with
  | testing => cases hFold
  | _ => exact hFold

/-- Nothing is known of `I` behind a call, so it may still be anywhere. -/
theorem Tracked.stillAt_return (hAll : Tracked lines) {m : Label}
    (hSuffix : .instr (.call m) note :: here <:+ lines) : StillAt l here := by
  obtain ⟨h, g, hFold⟩ := hAll.of_suffix hSuffix
  refine ⟨.lost, g, .inr (.inl rfl), ?_⟩
  cases h with
  | testing => cases hFold
  | _ => exact hFold

/-- One step of control that does not set `I`. -/
theorem StillAt.step (hAll : Tracked lines) (h : StillAt l here)
    (hStep : Crosses lines here line there) (hKeeps : line.setsIndex = false) :
    StillAt l there := by
  obtain ⟨k, g, hk, hFold⟩ := h
  cases hStep with
  | call hLabel => exact hAll.stillAt_label hLabel
  | ret hCall => exact hAll.stillAt_return hCall
  | goes hGoes =>
    cases hGoes with
    | jump hLabel => exact hAll.stillAt_label hLabel
    | pass hPasses =>
      obtain ⟨k', hLine, hRest⟩ := Option.bind_eq_some_iff.mp hFold
      refine ⟨k', g, ?_, hRest⟩
      rcases Line.hold?_kept hLine hKeeps with rfl | hk'
      · exact hk
      · exact .inr hk'
    | @skip x n note rest =>
      -- what a test may skip is a jump, after which nothing is known of `I`
      obtain ⟨k', hLine, hRest⟩ := Option.bind_eq_some_iff.mp hFold
      have hTesting : k' = .testing := by
        by_cases hk : k = .testing
        · subst hk
          cases hLine
        · rw [Line.hold?_instr hk] at hLine
          exact (Option.some.inj hLine).symm
      subst hTesting
      cases rest with
      | nil => exact ⟨.testing, g, .inr (.inr rfl), hRest⟩
      | cons next rest =>
        obtain ⟨k'', hNext, hRest⟩ := Option.bind_eq_some_iff.mp hRest
        cases next with
        | instr i note =>
          cases i with
          | jump m =>
            obtain rfl := Option.some.inj hNext
            exact ⟨.lost, g, .inr (.inl rfl), hRest⟩
          | _ => cases hNext
        | _ => cases hNext

/-- `I` may still be at the label all along a walk that does not set it. -/
theorem StillAt.walk (hAll : Tracked lines) {start passed : List Line} (h : StillAt l start)
    (hWalk : Walk (Crosses lines) start passed here)
    (hKeeps : ∀ line ∈ passed, line.setsIndex = false) : StillAt l here := by
  induction hWalk with
  | start => exact h
  | step _ hStep ih =>
    obtain ⟨hBefore, hLine⟩ := List.forall_mem_append.mp hKeeps
    exact (ih hBefore).step hAll hStep (hLine _ List.mem_cons_self)

/-- An access is only let through where it has room. -/
theorem Instr.room_of_hold? (hReach : i.reach ≠ 0) (hHold : i.hold? h = some g) :
    h = .away ∨ ∃ l room, h = .held l ∧ l.room? = some room ∧ i.reach ≤ room := by
  have hAdmits : h.admits i.reach = true := by
    cases i with
    | save x | load x | decimal x | draw x y rows =>
      simp only [Instr.hold?, Option.ite_none_right_eq_some] at hHold
      exact hHold.1.resolve_left hReach
    | _ => exact absurd rfl hReach
  cases h with
  | away => exact .inl rfl
  | lost | testing => cases hAdmits
  | held l =>
    simp only [Hold.admits, Option.any_eq_true, decide_eq_true_eq] at hAdmits
    obtain ⟨room, hRoom, hLe⟩ := hAdmits
    exact .inr ⟨l, room, rfl, hRoom, hLe⟩

/-- What is read or written while `I` is where `ld I` has put it lies in the room of the label. No
label but that of the stack is left by adding to `I`. -/
theorem Tracked.access (hAll : Tracked lines) {note' : Option String} {start passed : List Line}
    (hStart : .instr (.index l) note :: start <:+ lines)
    (hWalk : Walk (Crosses lines) start passed (.instr i note' :: here))
    (hKeeps : ∀ line ∈ passed, line.setsIndex = false) :
    (i.reach ≠ 0 → ∃ room, l.room? = some room ∧ i.reach ≤ room) ∧
      ∀ x, i = .addIndex x → l = .stackZone := by
  have hFirst : StillAt l start := by
    obtain ⟨h, g, hFold⟩ := hAll.of_suffix hStart
    refine ⟨.held l, g, .inl rfl, ?_⟩
    cases h with
    | testing => cases hFold
    | _ => exact hFold
  obtain ⟨h, g, hh, hFold⟩ := hFirst.walk hAll hWalk hKeeps
  obtain ⟨k, hLine, -⟩ := Option.bind_eq_some_iff.mp hFold
  have hNot : h ≠ .testing ∨ ∃ m, i = .jump m := by
    by_cases hTesting : h = .testing
    · subst hTesting
      cases i with
      | jump m => exact .inr ⟨m, rfl⟩
      | _ => cases hLine
    · exact .inl hTesting
  rcases hNot with hNot | ⟨m, rfl⟩
  · rw [Line.hold?_instr hNot] at hLine
    constructor
    · intro hReach
      rcases Instr.room_of_hold? hReach hLine with rfl | ⟨m, room, rfl, hRoom, hLe⟩
      · simp at hh
      · obtain rfl : m = l := by simpa using hh
        exact ⟨room, hRoom, hLe⟩
    · rintro x rfl
      simp only [Instr.hold?, Option.ite_none_right_eq_some] at hLine
      obtain ⟨rfl, -⟩ := hLine
      have hSame : Label.stackZone = l := by simpa using hh
      exact hSame.symm
  · exact ⟨fun hReach => absurd rfl hReach, by rintro x ⟨⟩⟩

end

end ChipPascal
