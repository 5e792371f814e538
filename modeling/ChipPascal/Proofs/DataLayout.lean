import ChipPascal.Proofs.ExprSimulation
import ChipPascal.Proofs.ListingLabels

/-!
# Where variables lie

The data of a listing comes after all code: a word for each global variable, the zones for decimal
digits and the stack zone. In a frame, each variable has bytes of its own.
-/

namespace ChipPascal

open Machine Line
open Lowering hiding State

/-! ### Data after the code -/

/-- Globals have words of their own, then come the digits, then the stack. -/
structure DataMap (addr : Label → UInt16) (names : List String) : Prop where
  global : ∀ name ∈ names, (addr (.global name)).toNat + 2 ≤ (addr .bcdLow).toNat
  apart : ∀ a ∈ names, ∀ b ∈ names, a ≠ b →
    (addr (.global a)).toNat + 2 ≤ (addr (.global b)).toNat ∨
      (addr (.global b)).toNat + 2 ≤ (addr (.global a)).toNat
  bcdHigh : (addr .bcdLow).toNat + 4 = (addr .bcdHigh).toNat
  stackZone : (addr .bcdHigh).toNat + 4 = zone addr

section

variable {lines code : List Line} {image : Image} {names : List String} {stackWords : Nat}

/-- A label stands for the address of the first cell behind it. -/
theorem Assembled.toNat_addr (h : Assembled lines image) {pre rest : List Line} {l : Label}
    (hLines : lines = pre ++ .label l :: rest) :
    (image.addr l).toNat = cellAddress (cellCount pre) := by
  have hFits := h.fits
  rw [h.addr_eq hLines, toNat_place]
  rw [hLines, cellCount_append] at hFits
  simp only [cellAddress] at hFits ⊢
  omega

theorem cellCount_globals (names : List String) :
    cellCount (names.flatMap fun name => [.label (.global name), .word]) = names.length := by
  induction names with
  | nil => rfl
  | cons name names ih => simp [Line.cells, ih, Nat.add_comm]

/-- The words of the globals stand in the order of the names. -/
theorem exists_global (code : List Line) (stackWords : Nat) {a b : List String} {name : String}
    (hNames : names = a ++ name :: b) :
    ∃ pre rest, code ++ dataSection names stackWords =
        pre ++ .label (.global name) :: .word :: rest ∧
      cellCount pre = cellCount code + a.length := by
  refine ⟨code ++ (.remark "global vars" ::
      a.flatMap fun name => [.label (.global name), .word]),
    (b.flatMap fun name => [.label (.global name), .word]) ++
      (dataSection [] stackWords).tail, ?_, ?_⟩
  · rw [hNames]
    simp [dataSection]
  · simp [Line.cells, cellCount_globals]

theorem exists_bcdLow (code : List Line) (names : List String) (stackWords : Nat) :
    ∃ pre rest, code ++ dataSection names stackWords =
        pre ++ .label .bcdLow :: .word :: .word :: rest ∧
      cellCount pre = cellCount code + names.length := by
  refine ⟨code ++ (.remark "global vars" ::
      (names.flatMap fun name => [.label (.global name), .word]) ++ [blank]),
    (dataSection [] stackWords).drop 5, ?_, ?_⟩
  · simp [dataSection]
  · simp [Line.cells, cellCount_globals]

theorem exists_bcdHigh (code : List Line) (names : List String) (stackWords : Nat) :
    ∃ pre rest, code ++ dataSection names stackWords =
        pre ++ .label .bcdHigh :: .word :: .word :: rest ∧
      cellCount pre = cellCount code + names.length + 2 := by
  refine ⟨code ++ (.remark "global vars" ::
      (names.flatMap fun name => [.label (.global name), .word]) ++
        [blank, .label .bcdLow, .word, .word, blank]),
    (dataSection [] stackWords).drop 9, ?_, ?_⟩
  · simp [dataSection]
  · simp [Line.cells, cellCount_globals, Nat.add_assoc]

theorem exists_zone (code : List Line) (names : List String) (stackWords : Nat) :
    ∃ pre, code ++ dataSection names stackWords =
        pre ++ .label .stackZone :: List.replicate stackWords .word ∧
      cellCount pre = cellCount code + names.length + 4 := by
  refine ⟨code ++ (.remark "global vars" ::
    (names.flatMap fun name => [.label (.global name), .word]) ++
      [blank, .label .bcdLow, .word, .word, blank, .label .bcdHigh, .word, .word, blank]), ?_, ?_⟩
  · simp [dataSection]
  · simp [Line.cells, cellCount_globals, Nat.add_assoc]

theorem Assembled.toNat_addr_global (h : Assembled lines image)
    (hLines : lines = code ++ dataSection names stackWords) {a b : List String} {name : String}
    (hNames : names = a ++ name :: b) :
    (image.addr (.global name)).toNat = cellAddress (cellCount code + a.length) := by
  obtain ⟨pre, rest, hSplit, hCount⟩ := exists_global code stackWords hNames
  rw [h.toNat_addr (hLines.trans hSplit), hCount]

theorem Assembled.toNat_addr_bcdLow (h : Assembled lines image)
    (hLines : lines = code ++ dataSection names stackWords) :
    (image.addr .bcdLow).toNat = cellAddress (cellCount code + names.length) := by
  obtain ⟨pre, rest, hSplit, hCount⟩ := exists_bcdLow code names stackWords
  rw [h.toNat_addr (hLines.trans hSplit), hCount]

theorem Assembled.toNat_addr_bcdHigh (h : Assembled lines image)
    (hLines : lines = code ++ dataSection names stackWords) :
    (image.addr .bcdHigh).toNat = cellAddress (cellCount code + names.length + 2) := by
  obtain ⟨pre, rest, hSplit, hCount⟩ := exists_bcdHigh code names stackWords
  rw [h.toNat_addr (hLines.trans hSplit), hCount]

/-- The stack zone starts behind the code, the globals and the two zones for digits. -/
theorem Assembled.zone_eq (h : Assembled lines image)
    (hLines : lines = code ++ dataSection names stackWords) :
    zone image.addr = cellAddress (cellCount code + names.length + 4) := by
  obtain ⟨pre, hSplit, hCount⟩ := exists_zone code names stackWords
  rw [zone, h.toNat_addr (hLines.trans hSplit), hCount]

/-- Globals, digit zones and stack follow each other in memory without overlap. -/
theorem Assembled.dataMap (h : Assembled lines image)
    (hLines : lines = code ++ dataSection names stackWords) : DataMap image.addr names := by
  have hLow := h.toNat_addr_bcdLow hLines
  have hHigh := h.toNat_addr_bcdHigh hLines
  have hZone := h.zone_eq hLines
  simp only [cellAddress] at hLow hHigh hZone
  refine ⟨?_, ?_, by omega, by omega⟩
  · intro name hName
    obtain ⟨a, b, hNames⟩ := List.append_of_mem hName
    have hAddr := h.toNat_addr_global hLines hNames
    have hLength : names.length = a.length + (b.length + 1) := by simp [hNames]
    simp only [cellAddress] at hAddr
    omega
  · intro x hx y hy hNe
    obtain ⟨a, b, hNames⟩ := List.append_of_mem hx
    obtain ⟨c, d, hNames'⟩ := List.append_of_mem hy
    have hAddr := h.toNat_addr_global hLines hNames
    have hAddr' := h.toNat_addr_global hLines hNames'
    have hPlaces : a.length ≠ c.length := by
      intro hLength
      have hSame : a ++ x :: b = c ++ y :: d := hNames ▸ hNames'
      obtain ⟨-, hTail⟩ := List.append_inj hSame hLength
      exact hNe (List.cons.inj hTail).1
    simp only [cellAddress] at hAddr hAddr'
    omega

end

/-! ### Slots of a frame -/

namespace Slot

variable {a b : String} {slots : List Slot} {p q : Nat}

theorem place?_add_size_le {slot : Slot} (hFind : slots.find? (·.name = a) = some slot)
    (hp : place? a slots = some p) : p + slot.size.toNat ≤ total slots := by
  induction slots generalizing p with
  | nil => simp at hFind
  | cons first slots ih =>
    by_cases hName : first.name = a
    · simp only [place?, List.find?_cons, hName, decide_true, if_true, Option.some.injEq]
        at hp hFind
      subst hp hFind
      simp [total]
    · simp only [place?, List.find?_cons, hName, decide_false, if_false, Option.map_eq_some_iff]
        at hp hFind
      obtain ⟨r, hr, rfl⟩ := hp
      have hRest := ih hFind hr
      simp only [total]
      omega

/-- Slots of different names have no byte in common. -/
theorem place?_apart {first second : Slot} (hNe : a ≠ b)
    (hFirst : slots.find? (·.name = a) = some first)
    (hSecond : slots.find? (·.name = b) = some second)
    (hp : place? a slots = some p) (hq : place? b slots = some q) :
    p + first.size.toNat ≤ q ∨ q + second.size.toNat ≤ p := by
  induction slots generalizing p q with
  | nil => simp at hFirst
  | cons slot slots ih =>
    simp only [place?, List.find?_cons] at hp hq hFirst hSecond
    by_cases ha : slot.name = a
    · simp only [ha, hNe, decide_true, if_true, if_false, Option.some.injEq,
        Option.map_eq_some_iff] at hp hq hFirst
      obtain ⟨r, -, rfl⟩ := hq
      subst hp hFirst
      omega
    · by_cases hb : slot.name = b
      · simp only [hb, Ne.symm hNe, decide_true, if_true, if_false, Option.some.injEq,
          Option.map_eq_some_iff] at hp hq hSecond
        obtain ⟨r, -, rfl⟩ := hp
        subst hq hSecond
        omega
      · simp only [ha, hb, decide_false, if_false, Option.map_eq_some_iff] at hp hq hFirst hSecond
        obtain ⟨r, hr, rfl⟩ := hp
        obtain ⟨r', hr', rfl⟩ := hq
        have hRest := ih hFirst hSecond hr hr'
        omega

theorem place?_of_find? {slot : Slot} (hFind : slots.find? (·.name = a) = some slot) :
    ∃ p, place? a slots = some p := by
  induction slots with
  | nil => simp at hFind
  | cons first slots ih =>
    by_cases hName : first.name = a
    · exact ⟨0, by simp [place?, hName]⟩
    · simp only [List.find?_cons, hName, decide_false] at hFind
      obtain ⟨p, hp⟩ := ih hFind
      exact ⟨first.size.toNat + p, by simp [place?, hName, hp]⟩

end Slot

def varOffset (vars : List VarDecl) (name : String) : Nat :=
  (Slot.place? name (vars.map (·.slot))).getD 0

section

variable {vars : List VarDecl} {name other : String} {decl decl' : VarDecl}

theorem find?_slot (h : findVar vars name = some decl) :
    (vars.map (·.slot)).find? (·.name = name) = some decl.slot := by
  rw [List.find?_map]
  exact Option.map_eq_some_iff.mpr ⟨decl, h, rfl⟩

theorem place?_slot (h : findVar vars name = some decl) :
    Slot.place? name (vars.map (·.slot)) = some (varOffset vars name) := by
  obtain ⟨p, hp⟩ := Slot.place?_of_find? (find?_slot h)
  rw [varOffset, hp]
  rfl

theorem toNat_slot_size (decl : VarDecl) : decl.slot.size.toNat = decl.typeOf.bytes :=
  ValueType.toNat_size decl.typeOf

/-- A variable ends within its frame. -/
theorem varOffset_add_le (h : findVar vars name = some decl) :
    varOffset vars name + decl.typeOf.bytes ≤ varBytes vars := by
  have hLe := Slot.place?_add_size_le (find?_slot h) (place?_slot h)
  rw [toNat_slot_size, Slot.total_map_slot] at hLe
  exact hLe

/-- Two variables of a frame share no byte. -/
theorem varOffset_apart (hNe : name ≠ other) (h : findVar vars name = some decl)
    (h' : findVar vars other = some decl') :
    varOffset vars name + decl.typeOf.bytes ≤ varOffset vars other ∨
      varOffset vars other + decl'.typeOf.bytes ≤ varOffset vars name := by
  have hApart := Slot.place?_apart hNe (find?_slot h) (find?_slot h') (place?_slot h)
    (place?_slot h')
  rw [toNat_slot_size, toNat_slot_size] at hApart
  exact hApart

end

end ChipPascal
