import ChipPascal.Machine.Step
import ChipPascal.Proofs.Decoding

/-!
# Where the lines of a listing lie

A place in a listing is given by the lines from there on. The program counter stands at a place if
as many cells come before it as the counter says, so lines without a cell can be passed for free.
-/

namespace ChipPascal

open Machine

namespace Line

def cells : Line → Nat
  | instr .. | word => 1
  | blank | remark _ | label _ => 0

def label? : Line → Option Label
  | label l => some l
  | _ => none

def target? : Line → Option Label
  | instr i _ => i.target?
  | _ => none

@[simp] theorem plain_eq (i : Instr) : plain i = .instr i none := rfl

@[simp] theorem noted_eq (i : Instr) (note : String) : noted i note = .instr i note := rfl

end Line

def cellCount : List Line → Nat
  | [] => 0
  | line :: lines => line.cells + cellCount lines

def labelsOf (lines : List Line) : List Label := lines.filterMap (·.label?)

def targetsOf (lines : List Line) : List Label := lines.filterMap (·.target?)

section

variable (a b : List Line) (line : Line)

@[simp] theorem cellCount_nil : cellCount [] = 0 := rfl

@[simp] theorem cellCount_cons : cellCount (line :: a) = line.cells + cellCount a := rfl

@[simp] theorem cellCount_append : cellCount (a ++ b) = cellCount a + cellCount b := by
  induction a with
  | nil => simp
  | cons line a ih => simp [ih, Nat.add_assoc]

theorem cellCount_words (n : Nat) : cellCount (List.replicate n .word) = n := by
  induction n with
  | zero => rfl
  | succ n ih => rw [List.replicate_succ, cellCount_cons, ih, Line.cells, Nat.add_comm]

@[simp] theorem labelsOf_append : labelsOf (a ++ b) = labelsOf a ++ labelsOf b := by
  simp [labelsOf]

@[simp] theorem targetsOf_append : targetsOf (a ++ b) = targetsOf a ++ targetsOf b := by
  simp [targetsOf]

end

/-- What makes a listing one that the assembler reads as it was meant. -/
structure WellFormed (lines : List Line) : Prop where
  tidy : ∀ line ∈ lines, line.Tidy
  nodup : (labelsOf lines).Nodup
  closed : ∀ l ∈ targetsOf lines, l ∈ labelsOf lines

def place (pre : List Line) : UInt16 := UInt16.ofNat (cellAddress (cellCount pre))

/-! ### Labels -/

/-- The labels among `items`, the first of which is cell `k`, however far they lie. -/
def labelPlaces (k : Nat) (places : Bindings Nat) : List Item → Bindings Nat
  | [] => places
  | .label name :: items => labelPlaces k ((name, cellAddress k) :: places) items
  | .word :: items => labelPlaces (k + 1) places items
  | .code _ :: items => labelPlaces (k + 1) places items

/-- The assembler keeps sixteen bits of each address. -/
theorem placeLabels_eq_map (k : Nat) (places : Bindings Nat) (items : List Item) :
    placeLabels k (places.map fun p => (p.1, UInt16.ofNat p.2)) items =
      (labelPlaces k places items).map fun p => (p.1, UInt16.ofNat p.2) := by
  induction items generalizing k places with
  | nil => rfl
  | cons item items ih =>
    cases item with
    | label name => exact ih k ((name, cellAddress k) :: places)
    | word => exact ih (k + 1) places
    | code statement => exact ih (k + 1) places

theorem Bindings.get?_map {α β : Type} (f : α → β) (bs : Bindings α) (name : String) :
    Bindings.get? (bs.map fun p => (p.1, f p.2)) name = (bs.get? name).map f := by
  induction bs with
  | nil => rfl
  | cons p bs ih =>
    obtain ⟨key, value⟩ := p
    simp only [List.map_cons, Bindings.get?, ih]
    split <;> rfl

section

variable {lines : List Line}

theorem labelPlaces_append (k : Nat) (acc : Bindings Nat) (a b : List Line) :
    labelPlaces k acc ((a ++ b).filterMap Line.item?) =
      labelPlaces (k + cellCount a) (labelPlaces k acc (a.filterMap Line.item?))
        (b.filterMap Line.item?) := by
  induction a generalizing k acc with
  | nil => rfl
  | cons line a ih =>
    cases line with
    | blank => simpa [List.filterMap_cons, Line.item?, Line.cells] using ih k acc
    | remark text => simpa [List.filterMap_cons, Line.item?, Line.cells] using ih k acc
    | label l => simpa [Line.item?, Line.cells, labelPlaces] using ih k _
    | word =>
      have := ih (k + 1) acc
      simpa [Line.item?, Line.cells, labelPlaces, Nat.add_assoc] using this
    | instr i note =>
      have := ih (k + 1) acc
      simpa [Line.item?, Line.cells, labelPlaces, Nat.add_assoc] using this

theorem labelPlaces_get?_of_not_mem {l : Label} (h : l ∉ labelsOf lines) (k : Nat)
    (acc : Bindings Nat) :
    (labelPlaces k acc (lines.filterMap Line.item?)).get? l.text = acc.get? l.text := by
  induction lines generalizing k acc with
  | nil => rfl
  | cons line lines ih =>
    cases line with
    | blank => exact ih h k acc
    | remark text => exact ih h k acc
    | word => exact ih h (k + 1) acc
    | instr i note => exact ih h (k + 1) acc
    | label m =>
      have hRest : l ∉ labelsOf lines := fun hMem => h (List.mem_cons_of_mem m hMem)
      have hNe : m.text ≠ l.text := by
        intro hText
        rw [Label.text_injective hText] at h
        exact h (List.mem_cons_self)
      refine (ih hRest k _).trans ?_
      simp [Bindings.get?, hNe]

/-- A label has the address of what comes after it, if it does not come again. -/
theorem labelPlaces_get? {pre rest : List Line} {l : Label} (h : l ∉ labelsOf rest) :
    (labelPlaces 0 [] ((pre ++ .label l :: rest).filterMap Line.item?)).get? l.text =
      some (cellAddress (cellCount pre)) := by
  rw [labelPlaces_append]
  refine (labelPlaces_get?_of_not_mem h (0 + cellCount pre) _).trans ?_
  simp [Bindings.get?]

/-- A label gets the place of the cell behind it, as nothing later takes its name. -/
theorem placeLabels_get? {pre rest : List Line} {l : Label} (h : l ∉ labelsOf rest) :
    (placeLabels 0 [] ((pre ++ .label l :: rest).filterMap Line.item?)).get? l.text =
      some (place pre) := by
  have hPlaces := placeLabels_eq_map 0 [] ((pre ++ .label l :: rest).filterMap Line.item?)
  rw [List.map_nil] at hPlaces
  rw [hPlaces, Bindings.get?_map, labelPlaces_get? h]
  rfl

/-! ### Cells -/

theorem length_cells (labels : Labels) :
    ((lines.filterMap Line.item?).filterMap (cell? labels)).length = cellCount lines := by
  induction lines with
  | nil => rfl
  | cons line lines ih =>
    cases line <;>
      simp [List.filterMap_cons, Line.item?, cell?, Line.cells, ih, Nat.add_comm]

theorem getElem?_cells {pre rest : List Line} {line : Line} (labels : Labels)
    (h : line.cells = 1) :
    (((pre ++ line :: rest).filterMap Line.item?).filterMap (cell? labels))[cellCount pre]? =
      line.item?.bind (cell? labels) := by
  rw [List.filterMap_append, List.filterMap_append,
    List.getElem?_append_right (Nat.le_of_eq (length_cells labels)), length_cells,
    Nat.sub_self]
  cases line with
  | word => rfl
  | instr i note => rfl
  | _ => simp [Line.cells] at h

theorem exists_instr_of_getElem?_cells {labels : Labels} {k : Nat} {statement : Statement}
    {op : Except OperandFault Op}
    (h : ((lines.filterMap Line.item?).filterMap (cell? labels))[k]? = some (.code statement op)) :
    ∃ pre i note rest, lines = pre ++ .instr i note :: rest ∧ cellCount pre = k := by
  induction lines generalizing k with
  | nil => simp at h
  | cons line lines ih =>
    cases line with
    | blank | remark _ | label _ =>
      obtain ⟨pre, i, note, rest, rfl, hCount⟩ := ih h
      refine ⟨_ :: pre, i, note, rest, rfl, ?_⟩
      simp [Line.cells, hCount]
    | word =>
      cases k with
      | zero => cases h
      | succ k =>
        obtain ⟨pre, i, note, rest, rfl, rfl⟩ := ih h
        exact ⟨.word :: pre, i, note, rest, rfl, Nat.add_comm _ _⟩
    | instr j m =>
      cases k with
      | zero => exact ⟨[], j, m, lines, rfl, rfl⟩
      | succ k =>
        obtain ⟨pre, i, note, rest, rfl, rfl⟩ := ih h
        exact ⟨.instr j m :: pre, i, note, rest, rfl, Nat.add_comm _ _⟩

theorem toNat_place {pre : List Line} (h : cellAddress (cellCount pre) < 0x10000) :
    (place pre).toNat = cellAddress (cellCount pre) := by
  rw [place, UInt16.toNat_ofNat', Nat.mod_eq_of_lt h]

/-- A cell is fetched from its own address only. -/
theorem Image.fetch?_eq_some {image : Image} {address : UInt16} {cell : Cell} :
    image.fetch? address = some cell ↔
      ∃ k, image.cells[k]? = some cell ∧ address.toNat = cellAddress k := by
  rw [Image.fetch?]
  constructor
  · intro h
    split at h
    · next hEven =>
      refine ⟨_, h, ?_⟩
      simp only [cellAddress, origin] at hEven ⊢
      omega
    · cases h
  · rintro ⟨k, hCell, hAddress⟩
    rw [cellAddress] at hAddress
    have hEven : origin ≤ address.toNat ∧ address.toNat % 2 = 0 := by
      simp only [origin] at hAddress ⊢
      omega
    have hIndex : (address.toNat - origin) / 2 = k := by omega
    rw [if_pos hEven, hIndex]
    exact hCell

theorem place_of_fetch? {image : Image} {pc : UInt16} {cell : Cell}
    (h : image.fetch? pc = some cell) :
    ∃ k, image.cells[k]? = some cell ∧
      ∀ pre : List Line, cellCount pre = k → pc = place pre := by
  obtain ⟨k, hCell, hAddress⟩ := Image.fetch?_eq_some.mp h
  refine ⟨k, hCell, ?_⟩
  rintro pre rfl
  rw [place, ← hAddress, UInt16.ofNat_toNat]

theorem Image.fetch?_place {image : Image} {pre : List Line} {cell : Cell}
    (h : cellAddress (cellCount pre) < 0x10000) (hCell : image.cells[cellCount pre]? = some cell) :
    image.fetch? (place pre) = some cell :=
  Image.fetch?_eq_some.mpr ⟨_, hCell, toNat_place h⟩

end

/-! ### Assembled listings -/

def Machine.Image.addr (image : Image) (l : Label) : UInt16 :=
  (image.labels.get? l.text).getD 0

/-- The image holds the lines, each in its place. -/
structure Assembled (lines : List Line) (image : Image) : Prop where
  fits : cellAddress (cellCount lines) < 0x10000
  label : ∀ {pre l rest}, lines = pre ++ .label l :: rest →
    image.labels.get? l.text = some (place pre)
  instr : ∀ {pre i note rest}, lines = pre ++ .instr i note :: rest →
    ∃ statement, image.fetch? (place pre) = some (.code statement (.ok (i.op image.addr)))
  code : ∀ {pc statement op}, image.fetch? pc = some (.code statement op) →
    ∃ pre i note rest, lines = pre ++ .instr i note :: rest ∧ pc = place pre

theorem mem_labelsOf {lines : List Line} {l : Label} :
    l ∈ labelsOf lines ↔ ∃ pre rest, lines = pre ++ .label l :: rest := by
  constructor
  · intro h
    obtain ⟨line, hLine, hl⟩ := List.mem_filterMap.mp h
    obtain ⟨pre, rest, rfl⟩ := List.append_of_mem hLine
    cases line with
    | label m =>
      cases hl
      exact ⟨pre, rest, rfl⟩
    | _ => simp [Line.label?] at hl
  · rintro ⟨pre, rest, rfl⟩
    simp [labelsOf, Line.label?]

section

variable {lines : List Line} {image : Image}

theorem WellFormed.not_mem_rest (h : WellFormed lines) {pre rest : List Line} {l : Label}
    (hLines : lines = pre ++ .label l :: rest) : l ∉ labelsOf rest := by
  have hNodup := h.nodup
  rw [hLines, labelsOf_append] at hNodup
  have hTail : (l :: labelsOf rest).Nodup := (List.nodup_append.mp hNodup).2.1
  exact (List.nodup_cons.mp hTail).1

/-- What the assembler makes of a well-formed listing. -/
theorem WellFormed.assembled (h : WellFormed lines)
    (hImage : assemble? (listingText lines) = some image) : Assembled lines image := by
  simp only [assemble?, readItems_listingText h.tidy] at hImage
  split at hImage
  · next hFits =>
    rw [length_cells] at hFits
    obtain rfl := Option.some.inj hImage
    have hLabel : ∀ {pre l rest}, lines = pre ++ .label l :: rest →
        (placeLabels 0 [] (lines.filterMap Line.item?)).get? l.text = some (place pre) := by
      intro pre l rest hLines
      have hRest := h.not_mem_rest hLines
      rw [hLines]
      exact placeLabels_get? hRest
    refine ⟨hFits, hLabel, ?_, ?_⟩
    · intro pre i note rest hLines
      have hPre : cellAddress (cellCount pre) < 0x10000 := by
        rw [hLines, cellCount_append] at hFits
        simp only [cellAddress] at hFits ⊢
        omega
      refine ⟨⟨i.mnemonic, i.operands⟩, ?_⟩
      apply Image.fetch?_place hPre
      rw [List.getElem?_toArray, hLines, getElem?_cells _ rfl, ← hLines]
      simp only [Line.item?, Option.bind_some, cell?]
      rw [decode_instr]
      intro l hl
      have hMem : l ∈ labelsOf lines := by
        refine h.closed l (List.mem_filterMap.mpr ⟨.instr i note, ?_, hl⟩)
        rw [hLines]
        simp
      obtain ⟨pre', rest', hLines'⟩ := mem_labelsOf.mp hMem
      simp [Image.addr, hLabel hLines']
    · intro pc statement op hFetch
      obtain ⟨k, hCell, hPlace⟩ := place_of_fetch? hFetch
      rw [List.getElem?_toArray] at hCell
      obtain ⟨pre, i, note, rest, hLines, hCount⟩ := exists_instr_of_getElem?_cells hCell
      exact ⟨pre, i, note, rest, hLines, hPlace pre hCount⟩
  · simp at hImage

/-- A listing that is well formed is refused only for its size. -/
theorem WellFormed.assemble?_isSome (h : WellFormed lines)
    (hFits : cellAddress (cellCount lines) < 0x10000) :
    ∃ image, assemble? (listingText lines) = some image := by
  simp only [assemble?, readItems_listingText h.tidy, length_cells, hFits, if_true]
  exact ⟨_, rfl⟩

theorem Assembled.addr_eq (h : Assembled lines image) {pre rest : List Line} {l : Label}
    (hLines : lines = pre ++ .label l :: rest) : image.addr l = place pre := by
  simp [Image.addr, h.label hLines]

end

/-! ### Places -/

/-- The counter `pc` stands where `rest` begins. -/
def At (lines rest : List Line) (pc : UInt16) : Prop := ∃ pre, lines = pre ++ rest ∧ pc = place pre

section

variable {lines rest : List Line} {image : Image} {pc : UInt16}

/-- Lines without a cell are passed without a step. -/
theorem At.pass {line : Line} (hCells : line.cells = 0) (h : At lines (line :: rest) pc) :
    At lines rest pc := by
  obtain ⟨pre, hLines, hPc⟩ := h
  refine ⟨pre ++ [line], by simp [hLines], ?_⟩
  simp [hPc, place, hCells]

theorem At.next {line : Line} (hCells : line.cells = 1) (h : At lines (line :: rest) pc) :
    At lines rest (pc + 2) := by
  obtain ⟨pre, hLines, hPc⟩ := h
  refine ⟨pre ++ [line], by simp [hLines], ?_⟩
  have hAddress : cellAddress (cellCount pre + 1) = cellAddress (cellCount pre) + 2 := rfl
  simp only [hPc, place, cellCount_append, cellCount_cons, cellCount_nil, hCells, Nat.add_zero,
    hAddress, UInt16.ofNat_add]
  rfl

theorem Assembled.at_label (h : Assembled lines image) {l : Label}
    (hLines : (.label l :: rest) <:+ lines) : At lines rest (image.addr l) := by
  obtain ⟨pre, hPre⟩ := hLines
  exact At.pass rfl ⟨pre, hPre.symm, h.addr_eq hPre.symm⟩

/-- A step of the machine carries out the instruction it stands at. -/
theorem Assembled.step_eq (h : Assembled lines image) {i : Instr} {note : Option String}
    {s : State} (hs : At lines (.instr i note :: rest) s.pc) :
    ∃ statement, step image s =
      (execute (i.op image.addr) s).mapError (·.fault s.pc statement) := by
  obtain ⟨pre, hLines, hPc⟩ := hs
  obtain ⟨statement, hFetch⟩ := h.instr hLines
  exact ⟨statement, by simp only [step, hPc, hFetch]⟩

/-- The machine executes the instruction that the listing has at the counter. -/
theorem Assembled.step_running (h : Assembled lines image) {i : Instr} {note : Option String}
    {s t : State} (hs : At lines (.instr i note :: rest) s.pc)
    (hRun : execute (i.op image.addr) s = .ok (.running t)) :
    step image s = .ok (.running t) := by
  obtain ⟨statement, hStep⟩ := h.step_eq hs
  rw [hStep, hRun]
  rfl

end

end ChipPascal
