import ChipPascal.Frames

/-!
# The frame in force

While a program is lowered, the active block is the outermost one, which never gets a slot, or one
directly inside it. `Shows` gives the slots and the displacement in force in either case.
-/

namespace ChipPascal

namespace Slot

def place? (name : String) : List Slot → Option Nat
  | [] => none
  | slot :: slots =>
    if slot.name = name then some 0 else (place? name slots).map (slot.size.toNat + ·)

/-- An offset is a place, kept in a byte. -/
theorem offset?_eq (name : String) (slots : List Slot) :
    offset? name slots = (place? name slots).map UInt8.ofNat := by
  induction slots with
  | nil => rfl
  | cons slot slots ih =>
    by_cases h : slot.name = name
    · simp [offset?, place?, h]
    · simp only [offset?, place?, h, if_false, ih, Option.map_map]
      congr 1
      funext n
      simp [UInt8.ofNat_add]

theorem offset?_isSome_iff (name : String) (slots : List Slot) :
    (offset? name slots).isSome ↔ name ∈ slots.map (·.name) := by
  induction slots with
  | nil => simp [offset?]
  | cons slot slots ih =>
    by_cases h : slot.name = name
    · simp [offset?, h]
    · simp only [offset?, h, if_false, Option.isSome_map, ih, List.map_cons, List.mem_cons,
        Ne.symm h, false_or]

end Slot

namespace Frames

variable {f : Frames} {slots : List Slot} {last : UInt8}

/-- The outermost block is active, and nothing is displaced. -/
structure AtRoot (f : Frames) : Prop where
  active : f.active = 0
  root : f.table[0]? = some ⟨none, [], 0⟩

/-- A block inside the outermost one is active. -/
structure InFrame (f : Frames) (slots : List Slot) (last : UInt8) : Prop where
  pos : 0 < f.active
  root : f.table[0]? = some ⟨none, [], 0⟩
  here : f.table[f.active]? = some ⟨some 0, slots, last⟩

def Shows (f : Frames) (slots : List Slot) (last : UInt8) : Prop :=
  (f.AtRoot ∧ slots = [] ∧ last = 0) ∨ f.InFrame slots last

theorem atRoot_empty : empty.AtRoot := ⟨rfl, rfl⟩

theorem AtRoot.shows (h : f.AtRoot) : f.Shows [] 0 := .inl ⟨h, rfl, rfl⟩

/-- A procedure starts with an empty frame and nothing displaced. -/
theorem AtRoot.openLocal (h : f.AtRoot) : f.openLocal.InFrame [] 0 := by
  have hSize : 0 < f.table.size := (Array.getElem?_eq_some_iff.mp h.root).1
  refine ⟨hSize, ?_, ?_⟩
  · simp only [Frames.openLocal, Frames.enter, child, Array.getElem?_push]
    rw [if_neg (by omega)]
    exact h.root
  · simp [Frames.openLocal, Frames.enter, child]

theorem InFrame.enter (h : f.InFrame slots last) : (f.enter 0).AtRoot := ⟨rfl, h.root⟩

theorem InFrame.push (h : f.InFrame slots last) (name : String) (size : UInt8) :
    (f.push name size).InFrame (slots ++ [⟨name, size⟩]) last := by
  have hPos := h.pos
  refine ⟨hPos, ?_, ?_⟩
  · simp only [Frames.push, Array.getElem?_modify]
    rw [if_neg (by omega)]
    exact h.root
  · simp [Frames.push, Array.getElem?_modify, h.here]

theorem InFrame.setLast (h : f.InFrame slots last) (offset : UInt8) :
    (f.setLast f.active offset).InFrame slots offset := by
  have hPos := h.pos
  refine ⟨hPos, ?_, ?_⟩
  · simp only [Frames.setLast, Array.getElem?_modify]
    rw [if_neg (by omega)]
    exact h.root
  · simp [Frames.setLast, Array.getElem?_modify, h.here]

theorem slotsAt_setLast (f : Frames) (i j : Nat) (offset : UInt8) :
    (f.setLast i offset).slotsAt j = f.slotsAt j := by
  simp only [Frames.slotsAt, Frames.setLast, Array.getElem?_modify]
  by_cases hij : i = j
  · cases f.table[j]? <;> simp [hij]
  · simp [hij]

theorem Shows.slotsAt (h : f.Shows slots last) : f.slotsAt f.active = slots := by
  rcases h with ⟨hRoot, rfl, rfl⟩ | hFrame
  · simp [Frames.slotsAt, hRoot.active, hRoot.root]
  · simp [Frames.slotsAt, hFrame.here]

theorem Shows.size (h : f.Shows slots last) : f.size = Slot.total slots := by
  rw [Frames.size, h.slotsAt]

theorem Shows.last_eq (h : f.Shows slots last) : f.last = last := by
  rcases h with ⟨hRoot, rfl, rfl⟩ | hFrame
  · simp [Frames.last, hRoot.active, hRoot.root]
  · simp [Frames.last, hFrame.here]

/-- Only the slots of the active block itself can be reached. -/
theorem Shows.offset? (h : f.Shows slots last) (name : String) :
    f.offset? name = Slot.offset? name slots := by
  rcases h with ⟨hRoot, rfl, rfl⟩ | hFrame
  · rw [Frames.offset?, offsetFrom?, hRoot.active, hRoot.root]
    rfl
  · have hPos := hFrame.pos
    rw [Frames.offset?, offsetFrom?, hFrame.here]
    cases hOffset : Slot.offset? name slots with
    | some offset => simp only [hOffset]
    | none =>
      simp only [hOffset, hPos, if_true]
      rw [offsetFrom?, hFrame.root]
      rfl

/-- A request is answered relative to the displacement in force. -/
theorem Shows.offsetFromLast? (h : f.Shows slots last) (name : String) :
    f.offsetFromLast? name =
      (Slot.offset? name slots).map fun offset => (offset - last, f.setLast f.active offset) := by
  rw [Frames.offsetFromLast?, h.offset?, h.last_eq]

theorem Shows.setLast (h : f.Shows slots last) {name : String} {offset : UInt8}
    (hOffset : Slot.offset? name slots = some offset) :
    (f.setLast f.active offset).Shows slots offset := by
  rcases h with ⟨hRoot, rfl, rfl⟩ | hFrame
  · simp [Slot.offset?] at hOffset
  · exact .inr (hFrame.setLast offset)

theorem active_settleFrom (f : Frames) (i : Nat) : (f.settleFrom i).active = f.active := by
  fun_induction settleFrom f i with
  | case3 f i _ _ _ _ _ ih => exact ih
  | _ => rfl

theorem active_settle (f : Frames) : f.settle.active = f.active := active_settleFrom f f.active

theorem setLast_zero_root (h : f.table[0]? = some ⟨none, [], 0⟩) :
    (f.setLast 0 0).table = f.table := by
  apply Array.ext_getElem?
  intro i
  simp only [Frames.setLast, Array.getElem?_modify]
  by_cases hi : 0 = i
  · subst hi
    simp [h]
  · simp [hi]

theorem InFrame.settle (h : f.InFrame slots last) : f.settle.InFrame slots 0 := by
  have hPos := h.pos
  have hSet := h.setLast 0
  have hRoot : f.settle = (f.setLast f.active 0).setLast 0 0 := by
    rw [Frames.settle, settleFrom, h.here]
    simp only [hPos, if_true]
    rw [settleFrom, hSet.root]
  have hTable : f.settle.table = (f.setLast f.active 0).table := by
    rw [hRoot, setLast_zero_root hSet.root]
  have hActive : f.settle.active = f.active := by
    rw [hRoot]
    rfl
  exact ⟨hActive ▸ hPos, hTable ▸ hSet.root, by rw [hActive, hTable]; exact hSet.here⟩

theorem AtRoot.settle (h : f.AtRoot) : f.settle.AtRoot := by
  have hSettle : f.settle = f.setLast 0 0 := by
    rw [Frames.settle, h.active, settleFrom, h.root]
  rw [hSettle]
  exact ⟨h.active, setLast_zero_root h.root ▸ h.root⟩

theorem Shows.settle (h : f.Shows slots last) : f.settle.Shows slots 0 := by
  rcases h with ⟨hRoot, rfl, rfl⟩ | hFrame
  · exact .inl ⟨hRoot.settle, rfl, rfl⟩
  · exact .inr hFrame.settle

end Frames

end ChipPascal
