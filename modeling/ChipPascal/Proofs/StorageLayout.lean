import ChipPascal.Proofs.ControlPaths
import ChipPascal.Proofs.DataLayout

/-!
# Where a listing puts things

A listing is laid out from the origin on, first its instructions, then its data. The labels of the
data divide it into areas without a byte in common, and what is reached through a label lies in its
area. This holds of every listing that lowering returns, also if statements were given up.
-/

namespace ChipPascal

open Machine Line
open Lowering hiding State

/-! ### Addresses without a bound -/

namespace Machine

def statementPlaces (k : Nat) : List Item → List (Nat × Statement)
  | [] => []
  | .label _ :: items => statementPlaces k items
  | .word :: items => statementPlaces (k + 1) items
  | .code statement :: items => (cellAddress k, statement) :: statementPlaces (k + 1) items

structure Layout where
  labels : Bindings Nat
  code : List (Nat × Statement)

/-- Lays out a listing, however far it reaches. -/
def layOut (listing : String) : Layout :=
  ⟨labelPlaces 0 [] (readItems listing), statementPlaces 0 (readItems listing)⟩

/-- The image has everything where the layout says. -/
structure Image.Holds (image : Image) (layout : Layout) : Prop where
  label : ∀ name, image.labels.get? name = (layout.labels.get? name).map UInt16.ofNat
  code : ∀ address statement, (∃ op, image.fetch? address = some (.code statement op)) ↔
    (address.toNat, statement) ∈ layout.code

theorem mem_statementPlaces (labels : Labels) {k address : Nat} {statement : Statement}
    {items : List Item} :
    (address, statement) ∈ statementPlaces k items ↔
      ∃ j op, (items.filterMap (cell? labels))[j]? = some (.code statement op) ∧
        address = cellAddress (k + j) := by
  induction items generalizing k with
  | nil => simp [statementPlaces]
  | cons item items ih =>
    cases item with
    | label name => exact ih
    | word =>
      rw [statementPlaces, ih]
      constructor
      · rintro ⟨j, op, hCell, rfl⟩
        exact ⟨j + 1, op, hCell, by rw [Nat.add_right_comm, Nat.add_assoc]⟩
      · rintro ⟨j, op, hCell, rfl⟩
        cases j with
        | zero => cases hCell
        | succ j => exact ⟨j, op, hCell, by rw [Nat.add_right_comm, Nat.add_assoc]⟩
    | code first =>
      rw [statementPlaces, List.mem_cons, ih]
      constructor
      · rintro (hFirst | ⟨j, op, hCell, rfl⟩)
        · obtain ⟨rfl, rfl⟩ := Prod.mk.inj hFirst
          exact ⟨0, decode labels statement, rfl, rfl⟩
        · exact ⟨j + 1, op, hCell, by rw [Nat.add_right_comm, Nat.add_assoc]⟩
      · rintro ⟨j, op, hCell, rfl⟩
        cases j with
        | zero =>
          cases hCell
          exact .inl rfl
        | succ j => exact .inr ⟨j, op, hCell, by rw [Nat.add_right_comm, Nat.add_assoc]⟩

/-- The assembler lays a listing out, unless it reaches too far. -/
theorem holds_layOut {listing : String} {image : Image} (h : assemble? listing = some image) :
    image.Holds (layOut listing) := by
  simp only [assemble?, Option.ite_none_right_eq_some, Option.some.injEq] at h
  obtain ⟨-, rfl⟩ := h
  constructor
  · intro name
    have hPlaces := placeLabels_eq_map 0 [] (readItems listing)
    rw [List.map_nil] at hPlaces
    rw [hPlaces, Bindings.get?_map]
    rfl
  · intro address statement
    rw [layOut, mem_statementPlaces (placeLabels 0 [] (readItems listing))]
    simp only [Image.fetch?_eq_some, List.getElem?_toArray, Nat.zero_add]
    constructor
    · rintro ⟨op, k, hCell, hAddress⟩
      exact ⟨k, op, hCell, hAddress⟩
    · rintro ⟨k, op, hCell, hAddress⟩
      exact ⟨op, k, hCell, hAddress⟩

end Machine

/-! ### Instructions before data -/

def Line.instr? : Line → Option Instr
  | instr i _ => some i
  | _ => none

def instrsOf (lines : List Line) : List Instr := lines.filterMap (·.instr?)

section

variable {env : Env} {program : Program} {last last' : UInt8} {n n' stackWords : Nat}
  {lines code rest : List Line}

theorem Within.word_not_mem {P : Label → Prop} (h : Within P lines) : .word ∉ lines :=
  fun hMem => h .word hMem

theorem word_not_mem_settleCode : .word ∉ settleCode last :=
  (within_settleCode (P := fun _ => True)).word_not_mem

/-- There is no data within the code of a body. -/
theorem word_not_mem_body (hEnv : env.Spelled) (h : BodyCode env last n lines last' n') :
    .word ∉ lines := by
  induction h with
  | strand h => exact (within_strand hEnv h).word_not_mem
  | unused => simp
  | append _ _ ih ih' => exact List.not_mem_append ih ih'
  | @ifThen wide _ n _ _ _ _ _ hCond _ ih =>
    apply List.not_mem_append (within_test hEnv hCond).word_not_mem
    apply List.not_mem_append ih
    exact List.not_mem_append word_not_mem_settleCode (by simp)
  | ifElse hCond _ _ ih ih' =>
    apply List.not_mem_append (within_test hEnv hCond).word_not_mem
    apply List.not_mem_append ih
    apply List.not_mem_append word_not_mem_settleCode
    apply List.not_mem_append (by simp [plain])
    apply List.not_mem_append ih'
    exact List.not_mem_append word_not_mem_settleCode (by simp)

theorem word_not_mem_proc (hNamed : program.WellNamed) (hSpelled : program.Spelled)
    {proc : ProcDecl} (hProc : .proc proc ∈ program.decls)
    (h : ProcLines program proc n lines n') : .word ∉ lines := by
  cases h with
  | tooLarge hSize => simp [plain]
  | body hSize hBody =>
    have hEnter := within_enterFrame (P := fun _ => True) trivial (UInt8.ofNat proc.frameSize)
    have hLeave := within_leaveFrame (P := fun _ => True) trivial
    have hScope : program.Scope proc.vars := .inr ⟨proc, hProc, rfl⟩
    apply List.not_mem_cons_of_ne_of_not_mem (by simp)
    apply List.not_mem_append hEnter.word_not_mem
    apply List.not_mem_append (word_not_mem_body (hSpelled.env hNamed hScope) hBody)
    exact List.not_mem_append word_not_mem_settleCode hLeave.word_not_mem

theorem word_not_mem_decls (hNamed : program.WellNamed) (hSpelled : program.Spelled)
    {decls : List Decl} (hSub : ∀ decl ∈ decls, decl ∈ program.decls)
    (h : DeclsLines program decls n lines n') : .word ∉ lines := by
  induction h with
  | nil n => simp
  | var _ ih => exact ih fun decl hDecl => hSub decl (List.mem_cons_of_mem _ hDecl)
  | proc hProc _ ih =>
    apply List.not_mem_append (word_not_mem_proc hNamed hSpelled (hSub _ List.mem_cons_self) hProc)
    exact ih fun decl hDecl => hSub decl (List.mem_cons_of_mem _ hDecl)

/-- The data comes after all the code, and has no instructions. -/
theorem ProgramLines.exists_code (hNamed : program.WellNamed) (hSpelled : program.Spelled)
    (h : ProgramLines program stackWords lines) :
    ∃ code, lines = code ++ dataSection (program.globals.map (·.name.name)) stackWords ∧
      .word ∉ code := by
  obtain ⟨hDecls, hMain⟩ := h
  next decls _ main last _ =>
  refine ⟨preamble program.name.name ++ (decls ++ (.label .entry :: (main ++ (settleCode last ++
    finishCode)))), by simp, ?_⟩
  apply List.not_mem_append (by simp [preamble, plain])
  apply List.not_mem_append (word_not_mem_decls hNamed hSpelled (fun _ h => h) hDecls)
  apply List.not_mem_cons_of_ne_of_not_mem (by simp)
  apply List.not_mem_append (word_not_mem_body (hSpelled.env hNamed (.inl rfl)) hMain)
  exact List.not_mem_append word_not_mem_settleCode (by simp [finishCode, plain])

/-- Without data among it, code has a cell for each instruction. -/
theorem cellCount_eq_length (h : .word ∉ code) : cellCount code = (instrsOf code).length := by
  induction code with
  | nil => rfl
  | cons line code ih =>
    have hRest := ih fun hMem => h (List.mem_cons_of_mem line hMem)
    cases line with
    | word => exact absurd List.mem_cons_self h
    | instr i note => simp [instrsOf, Line.instr?, Line.cells, hRest, Nat.add_comm]
    | _ => simpa [instrsOf, Line.instr?, Line.cells] using hRest

theorem instrsOf_eq_nil (h : ∀ i note, .instr i note ∉ lines) : instrsOf lines = [] := by
  apply List.filterMap_eq_nil_iff.mpr
  intro line hLine
  cases line with
  | instr i note => exact absurd hLine (h i note)
  | _ => rfl

/-- As long as no data comes in between, instructions follow one another. -/
theorem statementPlaces_code (h : .word ∉ code) (k : Nat) (items : List Item) :
    statementPlaces k (code.filterMap Line.item? ++ items) =
      ((instrsOf code).mapIdx fun j i =>
        (cellAddress (k + j), (⟨i.mnemonic, i.operands⟩ : Statement))) ++
      statementPlaces (k + (instrsOf code).length) items := by
  induction code generalizing k with
  | nil => rfl
  | cons line code ih =>
    have hRest := ih fun hMem => h (List.mem_cons_of_mem line hMem)
    cases line with
    | word => exact absurd List.mem_cons_self h
    | instr i note =>
      have hNext := hRest (k + 1)
      have hShift : ∀ j, k + 1 + j = k + (j + 1) := fun j => by omega
      simp only [hShift] at hNext
      show (cellAddress k, _) :: statementPlaces (k + 1) (code.filterMap Line.item? ++ items) =
        List.mapIdx _ (i :: instrsOf code) ++ _
      rw [hNext, List.mapIdx_cons]
      rfl
    | _ => exact hRest k

theorem statementPlaces_data (h : ∀ i note, .instr i note ∉ lines) (k : Nat) :
    statementPlaces k (lines.filterMap Line.item?) = [] := by
  induction lines generalizing k with
  | nil => rfl
  | cons line lines ih =>
    have hRest := ih fun i note hMem => h i note (List.mem_cons_of_mem line hMem)
    cases line with
    | instr i note => exact absurd List.mem_cons_self (h i note)
    | word => exact hRest (k + 1)
    | _ => exact hRest k

end

/-! ### Areas -/

def addressOf? (lines : List Line) (l : Label) : Option Nat :=
  (layOut (listingText lines)).labels.get? l.text

def codeEnd (lines : List Line) : Nat := origin + 2 * (instrsOf lines).length

def Program.storage (program : Program) (stackWords : Nat) : List (Label × Nat) :=
  program.globals.map (fun decl => (.global decl.name.name, 2)) ++
    [(.bcdLow, 4), (.bcdHigh, 4), (.stackZone, 2 * stackWords)]

/-- How the listing of a program is laid out. -/
structure LaidOut (program : Program) (stackWords : Nat) (lines : List Line) : Prop where
  closed : ∀ l ∈ targetsOf lines, l.text ∈ (labelsOf lines).map (·.text)
  nodup : ((labelsOf lines).map (·.text)).Nodup
  ordered : ∀ before i note after, lines = before ++ .instr i note :: after → .word ∉ before
  code : (layOut (listingText lines)).code =
    (instrsOf lines).mapIdx fun k i => (0x200 + 2 * k, ⟨i.mnemonic, i.operands⟩)
  global : ∀ k decl, program.globals[k]? = some decl →
    addressOf? lines (.global decl.name.name) = some (codeEnd lines + 2 * k)
  bcdLow : addressOf? lines .bcdLow = some (codeEnd lines + 2 * program.globals.length)
  bcdHigh : addressOf? lines .bcdHigh = some (codeEnd lines + 2 * program.globals.length + 4)
  stackZone : addressOf? lines .stackZone = some (codeEnd lines + 2 * program.globals.length + 8)
  /-- The bytes of an area are those of the words after its label. -/
  words : ∀ l size, (l, size) ∈ program.storage stackWords →
    ∃ before after, lines = before ++ .label l :: (List.replicate (size / 2) .word ++ after)
  /-- Each area ends before the next one starts. -/
  apart : (program.storage stackWords).Pairwise fun a b =>
    ∃ x y, addressOf? lines a.1 = some x ∧ addressOf? lines b.1 = some y ∧ x + a.2 ≤ y
  /-- On no path is anything but the area read or written while `I` is at its label. -/
  access : ∀ l size note start passed i note' after,
    (l, size) ∈ program.storage stackWords → l ≠ .stackZone →
    .instr (.index l) note :: start <:+ lines →
    Walk (Crosses lines) start passed (.instr i note' :: after) →
    (∀ line ∈ passed, line.setsIndex = false) → i.reach ≤ size ∧ ∀ x, i ≠ .addIndex x

section

variable {program : Program} {stackWords : Nat} {lines code : List Line}

theorem WellFormed.addressOf? (h : WellFormed lines) {pre rest : List Line} {l : Label}
    (hLines : lines = pre ++ .label l :: rest) :
    addressOf? lines l = some (cellAddress (cellCount pre)) := by
  rw [ChipPascal.addressOf?, layOut, readItems_listingText h.tidy]
  have hRest := h.not_mem_rest hLines
  rw [hLines]
  exact labelPlaces_get? hRest

theorem storage_cases {k : Nat} {l : Label} {size : Nat}
    (h : (program.storage stackWords)[k]? = some (l, size)) :
    (∃ decl, program.globals[k]? = some decl ∧ l = .global decl.name.name ∧ size = 2) ∨
      k = program.globals.length ∧ l = .bcdLow ∧ size = 4 ∨
      k = program.globals.length + 1 ∧ l = .bcdHigh ∧ size = 4 ∨
      k = program.globals.length + 2 ∧ l = .stackZone ∧ size = 2 * stackWords := by
  rw [Program.storage, List.getElem?_append] at h
  split at h
  · left
    rw [List.getElem?_map] at h
    obtain ⟨decl, hDecl, hEq⟩ := Option.map_eq_some_iff.mp h
    obtain ⟨rfl, rfl⟩ := Prod.mk.inj hEq
    exact ⟨decl, hDecl, rfl, rfl⟩
  · next hLe =>
    right
    rw [List.length_map] at h hLe
    generalize hj : k - program.globals.length = j at h
    match j, h with
    | 0, h =>
      cases h
      exact .inl ⟨by omega, rfl, rfl⟩
    | 1, h =>
      cases h
      exact .inr (.inl ⟨by omega, rfl, rfl⟩)
    | 2, h =>
      cases h
      exact .inr (.inr ⟨by omega, rfl, rfl⟩)
    | j + 3, h => simp at h

/-- The area in place `k`: up to the first zone there is one word for each, then there are two. -/
theorem exists_area (code : List Line) {k : Nat} {l : Label} {size : Nat}
    (h : (program.storage stackWords)[k]? = some (l, size)) :
    ∃ pre rest, code ++ dataSection (program.globals.map (·.name.name)) stackWords =
        pre ++ .label l :: (List.replicate (size / 2) .word ++ rest) ∧
      cellCount pre = cellCount code + (k + (k - program.globals.length)) := by
  have hLength : (program.globals.map (·.name.name)).length = program.globals.length :=
    List.length_map _
  rcases storage_cases h with ⟨decl, hDecl, rfl, rfl⟩ | ⟨rfl, rfl, rfl⟩ | ⟨rfl, rfl, rfl⟩ |
    ⟨rfl, rfl, rfl⟩
  · obtain ⟨hLt, rfl⟩ := List.getElem?_eq_some_iff.mp hDecl
    have hGlobals : program.globals =
        program.globals.take k ++ program.globals[k] :: program.globals.drop (k + 1) := by
      rw [List.getElem_cons_drop, List.take_append_drop]
    have hNames := congrArg (List.map (·.name.name)) hGlobals
    rw [List.map_append, List.map_cons] at hNames
    obtain ⟨pre, rest, hSplit, hCount⟩ := exists_global code stackWords hNames
    refine ⟨pre, rest, hSplit, ?_⟩
    rw [hCount, List.length_map, List.length_take]
    omega
  · obtain ⟨pre, rest, hSplit, hCount⟩ := exists_bcdLow code
      (program.globals.map (·.name.name)) stackWords
    exact ⟨pre, rest, hSplit, by omega⟩
  · obtain ⟨pre, rest, hSplit, hCount⟩ := exists_bcdHigh code
      (program.globals.map (·.name.name)) stackWords
    exact ⟨pre, rest, hSplit, by omega⟩
  · obtain ⟨pre, hSplit, hCount⟩ := exists_zone code
      (program.globals.map (·.name.name)) stackWords
    refine ⟨pre, [], ?_, by omega⟩
    rw [hSplit, Nat.mul_div_cancel_left stackWords (by decide), List.append_nil]

variable (hWell : WellFormed lines)
  (hLines : lines = code ++ dataSection (program.globals.map (·.name.name)) stackWords)
  (hCode : .word ∉ code)

include hLines in
theorem instrsOf_eq_code : instrsOf lines = instrsOf code := by
  have hData : instrsOf (dataSection (program.globals.map (·.name.name)) stackWords) = [] :=
    instrsOf_eq_nil instr_not_mem_dataSection
  rw [hLines, instrsOf, List.filterMap_append, ← instrsOf, ← instrsOf, hData, List.append_nil]

include hWell hLines hCode

/-- Where the area in place `k` starts. -/
theorem addressOf?_area {k : Nat} {l : Label} {size : Nat}
    (h : (program.storage stackWords)[k]? = some (l, size)) :
    addressOf? lines l = some (codeEnd lines + 2 * (k + (k - program.globals.length))) := by
  obtain ⟨pre, rest, hSplit, hCount⟩ := exists_area code h
  rw [hWell.addressOf? (hLines.trans hSplit), hCount, cellCount_eq_length hCode, codeEnd,
    instrsOf_eq_code hLines, cellAddress, Nat.mul_add, Nat.add_assoc]

/-- The areas have no byte in common. -/
theorem storage_apart : (program.storage stackWords).Pairwise fun a b =>
    ∃ x y, addressOf? lines a.1 = some x ∧ addressOf? lines b.1 = some y ∧ x + a.2 ≤ y := by
  apply List.pairwise_iff_getElem.mpr
  intro j k hj hk hjk
  have hFirst := List.getElem?_eq_getElem hj
  have hSecond := List.getElem?_eq_getElem hk
  generalize (program.storage stackWords)[j] = first at hFirst
  generalize (program.storage stackWords)[k] = second at hSecond
  refine ⟨_, _, addressOf?_area hWell hLines hCode hFirst,
    addressOf?_area hWell hLines hCode hSecond, ?_⟩
  have hLength : (program.storage stackWords).length = program.globals.length + 3 := by
    simp [Program.storage]
  rcases storage_cases hFirst with
    ⟨decl, hDecl, -, hSize⟩ | ⟨hPlace, -, hSize⟩ | ⟨hPlace, -, hSize⟩ | ⟨hPlace, -, hSize⟩
  · have hLt := (List.getElem?_eq_some_iff.mp hDecl).1
    omega
  · omega
  · omega
  · omega

/-- Instructions are laid out from 0x200 on, two bytes each. -/
theorem code_layOut : (layOut (listingText lines)).code =
    (instrsOf lines).mapIdx fun k i => (0x200 + 2 * k, ⟨i.mnemonic, i.operands⟩) := by
  rw [layOut, readItems_listingText hWell.tidy, instrsOf_eq_code hLines, hLines,
    List.filterMap_append, statementPlaces_code hCode, statementPlaces_data instr_not_mem_dataSection,
    List.append_nil]
  simp only [Nat.zero_add]
  rfl

omit hWell in
theorem word_not_mem_before {before after : List Line} {i : Instr} {note : Option String}
    (h : lines = before ++ .instr i note :: after) : .word ∉ before := by
  intro hWord
  rcases List.append_eq_append_iff.mp (hLines.symm.trans h) with ⟨mid, -, hData⟩ | ⟨mid, hBefore, -⟩
  · have hMem : .instr i note ∈ dataSection (program.globals.map (·.name.name)) stackWords := by
      simp [hData]
    exact instr_not_mem_dataSection i note hMem
  · apply hCode
    rw [hBefore]
    exact List.mem_append_left mid hWord

end

theorem Program.room?_of_mem_storage {program : Program} {stackWords size : Nat} {l : Label}
    (h : (l, size) ∈ program.storage stackWords) (hl : l ≠ .stackZone) : l.room? = some size := by
  obtain ⟨k, hk⟩ := List.getElem?_of_mem h
  rcases storage_cases hk with ⟨decl, -, rfl, rfl⟩ | ⟨-, rfl, rfl⟩ | ⟨-, rfl, rfl⟩ | ⟨-, rfl, -⟩
  · rfl
  · rfl
  · rfl
  · exact absurd rfl hl

/-- A listing is laid out as code first, then one area after the other. -/
theorem ProgramLines.laidOut {program : Program} {stackWords : Nat} {lines : List Line}
    (hNamed : program.WellNamed) (hSpelled : program.Spelled)
    (h : ProgramLines program stackWords lines) : LaidOut program stackWords lines := by
  have hWell := h.wellFormed hNamed hSpelled
  obtain ⟨code, hLines, hCode⟩ := h.exists_code hNamed hSpelled
  have hArea := @addressOf?_area program stackWords lines code hWell hLines hCode
  have hZones : ∀ j : Fin 3, (program.storage stackWords)[program.globals.length + j.val]? =
      [(Label.bcdLow, 4), (Label.bcdHigh, 4), (Label.stackZone, 2 * stackWords)][j.val]? := by
    intro j
    rw [Program.storage, List.getElem?_append_right (by simp)]
    simp
  constructor
  · intro l hl
    exact List.mem_map_of_mem (hWell.closed l hl)
  · apply List.Pairwise.map Label.text _ hWell.nodup
    intro a b hab hText
    exact hab (Label.text_injective hText)
  · intro before i note after hSplit
    exact word_not_mem_before hLines hCode hSplit
  · exact code_layOut hWell hLines hCode
  · intro k decl hDecl
    have hLt := (List.getElem?_eq_some_iff.mp hDecl).1
    have hGlobal : (program.storage stackWords)[k]? = some (.global decl.name.name, 2) := by
      rw [Program.storage, List.getElem?_append_left (by simpa using hLt), List.getElem?_map, hDecl]
      rfl
    rw [hArea hGlobal, Nat.sub_eq_zero_of_le (Nat.le_of_lt hLt), Nat.add_zero]
  · rw [hArea (hZones 0)]
    congr 1
    simp
  · rw [hArea (hZones 1)]
    congr 1
    omega
  · rw [hArea (hZones 2)]
    congr 1
    omega
  · intro l size hMem
    obtain ⟨k, hk⟩ := List.getElem?_of_mem hMem
    obtain ⟨pre, rest, hSplit, -⟩ := exists_area code hk
    exact ⟨pre, rest, hLines.trans hSplit⟩
  · exact storage_apart hWell hLines hCode
  · intro l size note start passed i note' after hMem hl hStart hWalk hKeeps
    have hRoom := Program.room?_of_mem_storage hMem hl
    obtain ⟨hReach, hMoves⟩ := h.tracked.access hStart hWalk hKeeps
    constructor
    · by_cases hNone : i.reach = 0
      · omega
      · obtain ⟨room, hRoom', hLe⟩ := hReach hNone
        rw [hRoom] at hRoom'
        obtain rfl := Option.some.inj hRoom'
        exact hLe
    · intro x hx
      exact hl (hMoves x hx)

/-- Every listing that lowering returns for a program with all its names in order is laid out so,
whether or not mistakes came up on the way; and the assembler puts it there. -/
theorem lowered_listing_laid_out {source : String} {stackWords : Nat} {lines : List Line}
    (hNames : nameErrors (parse source).1 = [])
    (hLines : (lowerFrom .initial stackWords (parse source).1).1 = .ok lines) :
    LaidOut (parse source).1 stackWords lines ∧
      ∀ image, assemble? (listingText lines) = some image →
        image.Holds (layOut (listingText lines)) := by
  have hNamed := Program.wellNamed_of_nameErrors hNames
  have hWritten := programLines_of_lowerFrom hNamed hLines
  exact ⟨hWritten.laidOut hNamed (parse_spelled source), fun _ => holds_layOut⟩

/-- A program of which one statement is given up, and half of another. -/
def givenUp : String :=
  "var x: long; procedure f(n: integer); begin x := n * 2; if n then f(x - (n / 2)) end;
   begin f(3) end."

theorem givenUp_laid_out : nameErrors (parse givenUp).1 = [] ∧
    (lowerFrom .initial 4 (parse givenUp).1).2.errors.length = 2 ∧
    ∃ lines, (lowerFrom .initial 4 (parse givenUp).1).1 = .ok lines ∧
      LaidOut (parse givenUp).1 4 lines := by
  have hChecks : nameErrors (parse givenUp).1 = [] ∧ (checkKinds (parse givenUp).1).2.reports = [] ∧
      (lowerFrom .initial 4 (parse givenUp).1).2.errors.length = 2 := by decide +kernel
  obtain ⟨hNames, hKinds, hErrors⟩ := hChecks
  obtain ⟨lines, hLines⟩ := lowerFrom_ok 4 hNames hKinds
  exact ⟨hNames, hErrors, lines, hLines, (lowered_listing_laid_out hNames hLines).1⟩

end ChipPascal
