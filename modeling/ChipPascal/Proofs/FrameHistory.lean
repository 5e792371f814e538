import ChipPascal.Proofs.DataLayout
import ChipPascal.Proofs.Nesting

/-!
# Frame blocks and what was pushed in them

A history keeps the slots in the order in which they were pushed, each with its block. From it the
offset of a name can be computed at once: the bytes before the slot in its block, less those of the
frames that lie between. The blocks give the same, in a byte that wraps.
-/

namespace ChipPascal

/-! ### Operations -/

namespace Frames

inductive Op where
  | child (parent : Nat)
  | enter (block : Nat)
  | push (name : String) (size : UInt8)
  | request (name : String)
  | settle

/-- A request for a name that has no slot changes nothing. -/
def apply (f : Frames) : Op → Frames
  | .child parent => f.child parent
  | .enter block => f.enter block
  | .push name size => f.push name size
  | .request name => ((f.offsetFromLast? name).map (·.2)).getD f
  | .settle => f.settle

def run (f : Frames) (ops : List Op) : Frames := ops.foldl apply f

/-- Only blocks that exist are entered or given a child. -/
def Admits (f : Frames) : Op → Prop
  | .child parent => parent < f.table.size
  | .enter block => block < f.table.size
  | .push _ _ => True
  | .request _ => True
  | .settle => True

def AdmitsAll (f : Frames) : List Op → Prop
  | [] => True
  | op :: ops => f.Admits op ∧ (f.apply op).AdmitsAll ops

instance (f : Frames) : (op : Op) → Decidable (f.Admits op)
  | .child _ => inferInstanceAs (Decidable (_ < _))
  | .enter _ => inferInstanceAs (Decidable (_ < _))
  | .push _ _ => inferInstanceAs (Decidable True)
  | .request _ => inferInstanceAs (Decidable True)
  | .settle => inferInstanceAs (Decidable True)

instance decidableAdmitsAll (f : Frames) : (ops : List Op) → Decidable (f.AdmitsAll ops)
  | [] => inferInstanceAs (Decidable True)
  | op :: ops =>
    have := decidableAdmitsAll (f.apply op) ops
    inferInstanceAs (Decidable (_ ∧ _))

end Frames

/-! ### Histories -/

structure Push where
  block : Nat
  slot : Slot

structure FrameHistory where
  nesting : Nesting
  active : Nat
  /-- The earliest comes first. -/
  pushes : List Push

namespace FrameHistory

open Frames

def empty : FrameHistory := ⟨.single, 0, []⟩

def apply (h : FrameHistory) : Op → FrameHistory
  | .child parent => { h with nesting := h.nesting.child parent }
  | .enter block => { h with active := block }
  | .push name size => { h with pushes := h.pushes ++ [⟨h.active, name, size⟩] }
  | .request _ => h
  | .settle => h

def run (h : FrameHistory) (ops : List Op) : FrameHistory := ops.foldl apply h

def slotsOf (h : FrameHistory) (i : Nat) : List Slot :=
  (h.pushes.filter (·.block = i)).map (·.slot)

def HasSlot (h : FrameHistory) (name : String) (i : Nat) : Prop :=
  ∃ slot ∈ h.slotsOf i, slot.name = name

instance (h : FrameHistory) (name : String) (i : Nat) : Decidable (h.HasSlot name i) :=
  inferInstanceAs (Decidable (∃ slot ∈ h.slotsOf i, slot.name = name))

def bytesBefore (h : FrameHistory) (name : String) (i : Nat) : Nat :=
  Slot.total ((h.slotsOf i).takeWhile (·.name ≠ name))

/-- The bytes of the frames of some blocks, each with the byte of a saved base. -/
def frameBytes (h : FrameHistory) : List Nat → Nat
  | [] => 0
  | i :: blocks => Slot.total (h.slotsOf i) + 1 + h.frameBytes blocks

theorem slotsOf_push (h : FrameHistory) (name : String) (size : UInt8) (i : Nat) :
    (h.apply (.push name size)).slotsOf i =
      if h.active = i then h.slotsOf i ++ [⟨name, size⟩] else h.slotsOf i := by
  simp only [apply, slotsOf, List.filter_append, List.map_append]
  by_cases hi : h.active = i <;> simp [hi]

end FrameHistory

/-! ### Slots of one block -/

namespace Slot

variable {name : String} {slots more : List Slot}

theorem place?_eq_some (h : ∃ slot ∈ slots, slot.name = name) :
    place? name slots = some (total (slots.takeWhile (·.name ≠ name))) := by
  induction slots with
  | nil => simp at h
  | cons slot slots ih =>
    by_cases hName : slot.name = name
    · simp [place?, hName, total]
    · have hRest : ∃ slot ∈ slots, slot.name = name := by simpa [hName] using h
      simp [place?, hName, total, ih hRest]

theorem offset?_eq_some (h : ∃ slot ∈ slots, slot.name = name) :
    offset? name slots = some (UInt8.ofNat (total (slots.takeWhile (·.name ≠ name)))) := by
  rw [offset?_eq, place?_eq_some h, Option.map_some]

theorem offset?_eq_none_iff : offset? name slots = none ↔ ¬∃ slot ∈ slots, slot.name = name := by
  rw [← Option.not_isSome_iff_eq_none, offset?_isSome_iff, List.mem_map]

/-- Slots behind a name do not move it. -/
theorem offset?_append (h : ∃ slot ∈ slots, slot.name = name) :
    offset? name (slots ++ more) = offset? name slots := by
  induction slots with
  | nil => simp at h
  | cons slot slots ih =>
    by_cases hName : slot.name = name
    · simp [offset?, hName]
    · have hRest : ∃ slot ∈ slots, slot.name = name := by simpa [hName] using h
      simp [offset?, hName, ih hRest]

theorem find?_of_mem (hNames : (slots.map (·.name)).Nodup) {slot : Slot} (hSlot : slot ∈ slots) :
    slots.find? (·.name = slot.name) = some slot := by
  induction slots with
  | nil => cases hSlot
  | cons first slots ih =>
    rw [List.map_cons, List.nodup_cons] at hNames
    rcases List.mem_cons.mp hSlot with rfl | hMem
    · simp
    · have hOther : first.name ≠ slot.name := fun hEq =>
        hNames.1 (hEq ▸ List.mem_map_of_mem hMem)
      rw [List.find?_cons_of_neg (by simpa using hOther)]
      exact ih hNames.2 hMem

/-- Every byte of a block belongs to a slot. -/
theorem exists_place?_of_lt (hNames : (slots.map (·.name)).Nodup) {n : Nat}
    (hn : n < total slots) :
    ∃ slot ∈ slots, ∃ p, place? slot.name slots = some p ∧ p ≤ n ∧ n < p + slot.size.toNat := by
  induction slots generalizing n with
  | nil => exact absurd hn (Nat.not_lt_zero n)
  | cons first slots ih =>
    rw [List.map_cons, List.nodup_cons] at hNames
    rcases Nat.lt_or_ge n first.size.toNat with hFirst | hLater
    · exact ⟨first, List.mem_cons_self, 0, by simp [place?], Nat.zero_le n, by omega⟩
    · rw [total] at hn
      have hRest : n - first.size.toNat < total slots := by omega
      obtain ⟨slot, hSlot, p, hp, hLe, hLt⟩ := ih hNames.2 hRest
      have hOther : first.name ≠ slot.name := fun hEq =>
        hNames.1 (hEq ▸ List.mem_map_of_mem hSlot)
      refine ⟨slot, List.mem_cons_of_mem _ hSlot, first.size.toNat + p, ?_, ?_, ?_⟩
      · simp [place?, hOther, hp]
      · omega
      · omega

end Slot

/-! ### The blocks -/

namespace Frames

variable {f : Frames} {h : FrameHistory} {name : String}

def links (f : Frames) : List (Option Nat) := f.table.toList.map (·.enclosing)

theorem length_links (f : Frames) : f.links.length = f.table.size := by
  simp [links]

theorem getElem?_links (f : Frames) (i : Nat) :
    f.links[i]? = f.table[i]?.map (·.enclosing) := by
  simp [links]

theorem exists_block {i : Nat} {link : Option Nat} (hLink : f.links[i]? = some link) :
    ∃ last, f.table[i]? = some ⟨link, f.slotsAt i, last⟩ := by
  rw [getElem?_links, Option.map_eq_some_iff] at hLink
  obtain ⟨block, hBlock, rfl⟩ := hLink
  exact ⟨block.last, by simp [slotsAt, hBlock]⟩

theorem links_child (f : Frames) (parent : Nat) :
    (f.child parent).links = f.links ++ [some parent] := by
  simp [links, child]

theorem links_push (f : Frames) (name : String) (size : UInt8) :
    (f.push name size).links = f.links := by
  apply List.ext_getElem?
  intro i
  simp only [getElem?_links, push, Array.getElem?_modify]
  split
  · cases f.table[i]? <;> rfl
  · rfl

theorem links_setLast (f : Frames) (i : Nat) (offset : UInt8) :
    (f.setLast i offset).links = f.links := by
  apply List.ext_getElem?
  intro j
  simp only [getElem?_links, setLast, Array.getElem?_modify]
  split
  · cases f.table[j]? <;> rfl
  · rfl

theorem slotsAt_child (f : Frames) (parent i : Nat) :
    (f.child parent).slotsAt i = f.slotsAt i := by
  simp only [slotsAt, child, Array.getElem?_push]
  by_cases hi : i = f.table.size
  · subst hi
    simp
  · simp [hi]

theorem slotsAt_push (hActive : f.active < f.table.size) (name : String) (size : UInt8) (i : Nat) :
    (f.push name size).slotsAt i =
      if f.active = i then f.slotsAt i ++ [⟨name, size⟩] else f.slotsAt i := by
  simp only [slotsAt, push, Array.getElem?_modify]
  by_cases hi : f.active = i
  · subst hi
    simp [hActive]
  · simp [hi]

/-! ### What the blocks have of a history -/

/-- The blocks lead along the same ways, and have the slots that were pushed in them. -/
structure Refines (f : Frames) (h : FrameHistory) : Prop where
  follows : h.nesting.Follows f.links
  active : f.active = h.active
  inside : f.active < f.table.size
  slots : ∀ i, f.slotsAt i = h.slotsOf i

theorem refines_empty : empty.Refines .empty := by
  refine ⟨Nesting.follows_single, rfl, Nat.zero_lt_one, ?_⟩
  intro i
  cases i <;> rfl

theorem Refines.child (hr : f.Refines h) {parent : Nat} (hParent : parent < f.table.size) :
    (f.child parent).Refines (h.apply (.child parent)) := by
  refine ⟨?_, hr.active, ?_, ?_⟩
  · rw [links_child]
    exact hr.follows.child (f.length_links.symm ▸ hParent)
  · have hInside := hr.inside
    simp only [Frames.child, Array.size_push]
    omega
  · intro i
    rw [slotsAt_child]
    exact hr.slots i

theorem Refines.enter (hr : f.Refines h) {block : Nat} (hBlock : block < f.table.size) :
    (f.enter block).Refines (h.apply (.enter block)) :=
  ⟨hr.follows, rfl, hBlock, hr.slots⟩

theorem Refines.push (hr : f.Refines h) (name : String) (size : UInt8) :
    (f.push name size).Refines (h.apply (.push name size)) := by
  refine ⟨?_, hr.active, ?_, ?_⟩
  · rw [links_push]
    exact hr.follows
  · simpa [Frames.push] using hr.inside
  · intro i
    rw [slotsAt_push hr.inside, FrameHistory.slotsOf_push, hr.slots, hr.active]

theorem Refines.setLast (hr : f.Refines h) (i : Nat) (offset : UInt8) :
    (f.setLast i offset).Refines h := by
  refine ⟨?_, hr.active, ?_, ?_⟩
  · rw [links_setLast]
    exact hr.follows
  · simpa [Frames.setLast] using hr.inside
  · intro j
    rw [slotsAt_setLast]
    exact hr.slots j

/-- Settling is not seen by the history, which has no displacements. -/
theorem Refines.settleFrom (hr : f.Refines h) (i : Nat) : (f.settleFrom i).Refines h := by
  fun_induction Frames.settleFrom f i with
  | case1 => exact hr
  | case2 => exact hr.setLast _ 0
  | case3 f i _ _ _ _ _ ih => exact ih (hr.setLast i 0)
  | case4 => exact hr.setLast _ 0

theorem Refines.request (hr : f.Refines h) (name : String) :
    (f.apply (.request name)).Refines h := by
  rw [Frames.apply, offsetFromLast?]
  cases f.offset? name with
  | none => exact hr
  | some offset => exact hr.setLast f.active offset

/-- One operation. -/
theorem Refines.apply (hr : f.Refines h) {op : Op} (hOp : f.Admits op) :
    (f.apply op).Refines (h.apply op) := by
  cases op with
  | child parent => exact hr.child hOp
  | enter block => exact hr.enter hOp
  | push name size => exact hr.push name size
  | request name => exact hr.request name
  | settle => exact hr.settleFrom f.active

/-- Any number of operations. -/
theorem Refines.run (hr : f.Refines h) {ops : List Op} (hOps : f.AdmitsAll ops) :
    (f.run ops).Refines (h.run ops) := by
  induction ops generalizing f h with
  | nil => exact hr
  | cons op ops ih => exact ih (hr.apply hOps.1) hOps.2

/-! ### Offsets -/

/-- A slot of the block itself is found there, however the blocks around it are laid out. -/
theorem Refines.offsetFrom?_own (hr : f.Refines h) {i : Nat} (hi : i < f.links.length)
    (hName : h.HasSlot name i) : f.offsetFrom? name i = Slot.offset? name (h.slotsOf i) := by
  obtain ⟨last, hBlock⟩ := exists_block (List.getElem?_eq_getElem hi)
  rw [offsetFrom?, hBlock]
  simp only [hr.slots, Slot.offset?_eq_some hName]

theorem Refines.offset?_own (hr : f.Refines h) (hName : h.HasSlot name h.active) :
    f.offset? name = Slot.offset? name (h.slotsOf h.active) := by
  have hInside : h.active < f.links.length := hr.active ▸ f.length_links.symm ▸ hr.inside
  rw [Frames.offset?, hr.active, hr.offsetFrom?_own hInside hName]

theorem Refines.offsetFrom?_outermost (hr : f.Refines h) {i : Nat}
    (hLink : f.links[i]? = some none) (hName : ¬h.HasSlot name i) :
    f.offsetFrom? name i = none := by
  obtain ⟨last, hBlock⟩ := exists_block hLink
  rw [offsetFrom?, hBlock]
  simp only [hr.slots, Slot.offset?_eq_none_iff.mpr hName]

/-- A name of an outer block is found below the frame of the inner one. -/
theorem Refines.offsetFrom?_inner (hr : f.Refines h) {i j : Nat}
    (hLink : f.links[i]? = some (some j)) (hName : ¬h.HasSlot name i) :
    f.offsetFrom? name i = (f.offsetFrom? name j).map fun outer =>
      outer - UInt8.ofNat (Slot.total (h.slotsOf j)) - 1 := by
  obtain ⟨last, hBlock⟩ := exists_block hLink
  rw [offsetFrom?, hBlock]
  simp only [hr.slots, Slot.offset?_eq_none_iff.mpr hName, hr.follows.less i j hLink, if_true]

/-- A name has no offset if no block on the way outwards has it. -/
theorem Refines.offsetFrom?_eq_none_iff (hr : f.Refines h) (name : String) :
    ∀ i, i < f.links.length →
      (f.offsetFrom? name i = none ↔ ∀ j ∈ h.nesting.way i, ¬h.HasSlot name j) := by
  have hOwn : ∀ i, i < f.links.length → h.HasSlot name i → f.offsetFrom? name i ≠ none := by
    intro i hi hName hNone
    rw [hr.offsetFrom?_own hi hName, Slot.offset?_eq_none_iff] at hNone
    exact hNone hName
  refine hr.follows.induct ?_ ?_
  · intro i hLink
    have hi := (List.getElem?_eq_some_iff.mp hLink).1
    rw [hr.follows.outermost i hLink]
    by_cases hName : h.HasSlot name i
    · simp [hOwn i hi hName, hName]
    · simp [hr.offsetFrom?_outermost hLink hName, hName]
  · intro i j hLink ih
    have hi := (List.getElem?_eq_some_iff.mp hLink).1
    rw [hr.follows.inner i j hLink]
    by_cases hName : h.HasSlot name i
    · simp [hOwn i hi hName, hName]
    · rw [hr.offsetFrom?_inner hLink hName, Option.map_eq_none_iff, ih]
      simp [hName]

theorem toNat_sub_frame (outer : UInt8) (bytes : Nat) :
    ((outer - UInt8.ofNat bytes - 1).toNat : Int) = ((outer.toNat : Int) - (bytes + 1)) % 256 := by
  have hOuter := outer.toNat_lt
  simp only [UInt8.toNat_sub, UInt8.toNat_ofNat', UInt8.toNat_one]
  omega

/-- Each block that is left on the way outwards takes the bytes of the next frame, and one more, off
the offset. -/
theorem Refines.offsetFrom?_eq (hr : f.Refines h) {name : String} {owner : Nat}
    (hName : h.HasSlot name owner) :
    ∀ i, i < f.links.length → ∀ inner outer, h.nesting.way i = inner ++ owner :: outer →
      (∀ j ∈ inner, ¬h.HasSlot name j) →
      ∃ offset, f.offsetFrom? name i = some offset ∧
        (offset.toNat : Int) =
          ((h.bytesBefore name owner : Int) - h.frameBytes (inner ++ [owner]).tail) % 256 := by
  have hOwn : owner < f.links.length → ∃ offset, f.offsetFrom? name owner = some offset ∧
      (offset.toNat : Int) = ((h.bytesBefore name owner : Int) - h.frameBytes []) % 256 := by
    intro hOwner
    refine ⟨_, (hr.offsetFrom?_own hOwner hName).trans (Slot.offset?_eq_some hName), ?_⟩
    simp [FrameHistory.bytesBefore, FrameHistory.frameBytes]
  refine hr.follows.induct ?_ ?_
  · intro i hLink inner outer hWay hInner
    rw [hr.follows.outermost i hLink] at hWay
    cases inner with
    | nil =>
      obtain ⟨rfl, -⟩ := List.cons.inj hWay
      exact hOwn (List.getElem?_eq_some_iff.mp hLink).1
    | cons first inner => simp at hWay
  · intro i j hLink ih inner outer hWay hInner
    rw [hr.follows.inner i j hLink] at hWay
    cases inner with
    | nil =>
      obtain ⟨rfl, -⟩ := List.cons.inj hWay
      exact hOwn (List.getElem?_eq_some_iff.mp hLink).1
    | cons first inner =>
      obtain ⟨rfl, hRest⟩ := List.cons.inj hWay
      obtain ⟨offset, hOffset, hValue⟩ := ih inner outer hRest fun k hk =>
        hInner k (List.mem_cons_of_mem _ hk)
      have hInside := (List.getElem?_eq_some_iff.mp hLink).1
      have hLess := hr.follows.less _ j hLink
      have hHead := hr.follows.head?_way (i := j) (by omega)
      have hBytes : h.frameBytes (inner ++ [owner]) =
          Slot.total (h.slotsOf j) + 1 + h.frameBytes (inner ++ [owner]).tail := by
        rw [hRest] at hHead
        cases inner <;> cases hHead <;> rfl
      refine ⟨offset - UInt8.ofNat (Slot.total (h.slotsOf j)) - 1, ?_, ?_⟩
      · rw [hr.offsetFrom?_inner hLink (hInner _ List.mem_cons_self), hOffset, Option.map_some]
      · rw [toNat_sub_frame, hValue, List.cons_append, List.tail_cons, hBytes]
        push_cast
        omega

/-! ### Layouts after any operations -/

/-- Byte `n` of the frame of block `i` belongs to `slot`. -/
def Covers (f : Frames) (i : Nat) (slot : Slot) (n : Nat) : Prop :=
  ∃ offset, (f.enter i).offset? slot.name = some offset ∧
    offset.toNat ≤ n ∧ n < offset.toNat + slot.size.toNat

/-- The blocks are laid out as their history says. -/
structure LaidOut (f : Frames) (h : FrameHistory) : Prop where
  size : f.size = Slot.total (h.slotsOf h.active)
  missing : ∀ name, f.offset? name = none ↔ ∀ i ∈ h.nesting.way h.active, ¬h.HasSlot name i
  /-- The frames between are those of the blocks around the active one, up to the owner's. -/
  offset : ∀ name inner owner outer, h.nesting.way h.active = inner ++ owner :: outer →
    (∀ i ∈ inner, ¬h.HasSlot name i) → h.HasSlot name owner →
    ∃ offset, f.offset? name = some offset ∧
      (offset.toNat : Int) =
        ((h.bytesBefore name owner : Int) - h.frameBytes (inner ++ [owner]).tail) % 256
  /-- Further slots do not move those that are there. -/
  stable : ∀ name, h.HasSlot name h.active → ∀ more : List Slot,
    (f.run (more.map fun slot => .push slot.name slot.size)).offset? name = f.offset? name
  /-- Slots of different names share no byte and leave none between them, if a byte can count
  them. -/
  tiles : ∀ i, i < f.table.size → ((h.slotsOf i).map (·.name)).Nodup →
    Slot.total (h.slotsOf i) ≤ 256 →
    (h.slotsOf i).Pairwise (fun a b => ∀ n, ¬(f.Covers i a n ∧ f.Covers i b n)) ∧
      ∀ n, (∃ slot ∈ h.slotsOf i, f.Covers i slot n) ↔ n < Slot.total (h.slotsOf i)

/-- Later slots leave the offsets of earlier ones as they are. -/
theorem Refines.stable (hr : f.Refines h) (hName : h.HasSlot name h.active) (more : List Slot) :
    (f.run (more.map fun slot => .push slot.name slot.size)).offset? name = f.offset? name := by
  induction more generalizing f h with
  | nil => rfl
  | cons slot more ih =>
    have hPush := hr.push slot.name slot.size
    have hSlots : (h.apply (.push slot.name slot.size)).slotsOf h.active =
        h.slotsOf h.active ++ [slot] := by
      rw [FrameHistory.slotsOf_push, if_pos rfl]
    have hName' : (h.apply (.push slot.name slot.size)).HasSlot name h.active := by
      obtain ⟨old, hOld, hEq⟩ := hName
      exact ⟨old, hSlots ▸ List.mem_append_left _ hOld, hEq⟩
    calc (f.run ((slot :: more).map fun slot => .push slot.name slot.size)).offset? name
        = (f.push slot.name slot.size).offset? name := ih hPush hName'
      _ = Slot.offset? name (h.slotsOf h.active ++ [slot]) :=
          (hPush.offset?_own hName').trans (congrArg _ hSlots)
      _ = Slot.offset? name (h.slotsOf h.active) := Slot.offset?_append hName
      _ = f.offset? name := (hr.offset?_own hName).symm

/-- A slot of a frame that a byte can count has the bytes from its place on. -/
theorem Refines.covers_iff (hr : f.Refines h) {i : Nat} (hi : i < f.table.size)
    (hNames : ((h.slotsOf i).map (·.name)).Nodup) (hTotal : Slot.total (h.slotsOf i) ≤ 256)
    {slot : Slot} (hSlot : slot ∈ h.slotsOf i) {p : Nat}
    (hp : Slot.place? slot.name (h.slotsOf i) = some p) (n : Nat) :
    f.Covers i slot n ↔ p ≤ n ∧ n < p + slot.size.toNat := by
  have hEnd := Slot.place?_add_size_le (Slot.find?_of_mem hNames hSlot) hp
  have hOffset : (f.enter i).offset? slot.name = some (UInt8.ofNat p) :=
    calc (f.enter i).offset? slot.name
        = Slot.offset? slot.name (h.slotsOf i) := (hr.enter hi).offset?_own ⟨slot, hSlot, rfl⟩
      _ = some (UInt8.ofNat p) := by rw [Slot.offset?_eq, hp, Option.map_some]
  simp only [Covers, hOffset, Option.some.injEq, exists_eq_left', UInt8.toNat_ofNat']
  -- the place of a slot without bytes may be 256, which wraps
  omega

/-- The slots of a block cover its bytes, each of them once. -/
theorem Refines.tiles (hr : f.Refines h) {i : Nat} (hi : i < f.table.size)
    (hNames : ((h.slotsOf i).map (·.name)).Nodup) (hTotal : Slot.total (h.slotsOf i) ≤ 256) :
    (h.slotsOf i).Pairwise (fun a b => ∀ n, ¬(f.Covers i a n ∧ f.Covers i b n)) ∧
      ∀ n, (∃ slot ∈ h.slotsOf i, f.Covers i slot n) ↔ n < Slot.total (h.slotsOf i) := by
  have hPlace : ∀ {slot : Slot}, slot ∈ h.slotsOf i →
      ∃ p, Slot.place? slot.name (h.slotsOf i) = some p := fun hSlot =>
    Slot.place?_of_find? (Slot.find?_of_mem hNames hSlot)
  constructor
  · have hDistinct : (h.slotsOf i).Pairwise fun a b => a.name ≠ b.name :=
      List.pairwise_map.mp hNames
    refine hDistinct.imp_of_mem ?_
    rintro a b ha hb hne n ⟨hInA, hInB⟩
    obtain ⟨p, hp⟩ := hPlace ha
    obtain ⟨q, hq⟩ := hPlace hb
    have hApart := Slot.place?_apart hne (Slot.find?_of_mem hNames ha)
      (Slot.find?_of_mem hNames hb) hp hq
    rw [hr.covers_iff hi hNames hTotal ha hp] at hInA
    rw [hr.covers_iff hi hNames hTotal hb hq] at hInB
    omega
  · intro n
    constructor
    · rintro ⟨slot, hSlot, hIn⟩
      obtain ⟨p, hp⟩ := hPlace hSlot
      have hEnd := Slot.place?_add_size_le (Slot.find?_of_mem hNames hSlot) hp
      rw [hr.covers_iff hi hNames hTotal hSlot hp] at hIn
      omega
    · intro hn
      obtain ⟨slot, hSlot, p, hp, hRange⟩ := Slot.exists_place?_of_lt hNames hn
      exact ⟨slot, hSlot, (hr.covers_iff hi hNames hTotal hSlot hp n).mpr hRange⟩

/-- All that is said of the layout follows from the history. -/
theorem Refines.laidOut (hr : f.Refines h) : f.LaidOut h where
  size := by rw [Frames.size, hr.slots, hr.active]
  missing name := by
    rw [Frames.offset?, ← hr.active]
    exact hr.offsetFrom?_eq_none_iff name f.active (f.length_links.symm ▸ hr.inside)
  offset name inner owner outer hWay hInner hName := by
    rw [← hr.active] at hWay
    exact hr.offsetFrom?_eq hName f.active (f.length_links.symm ▸ hr.inside) inner outer hWay hInner
  stable name hName more := hr.stable hName more
  tiles _ hi hNames hTotal := hr.tiles hi hNames hTotal

/-- After any operations on blocks that exist, the blocks are laid out as their history says. -/
theorem laidOut_run {ops : List Op} (hOps : empty.AdmitsAll ops) :
    (empty.run ops).LaidOut (FrameHistory.empty.run ops) :=
  (refines_empty.run hOps).laidOut

/-- A frame of 257 bytes with two slots called `x`, an empty one within it, and one of three bytes
within that. -/
def wrapped : List Op :=
  [.child 0, .enter 1, .push "a" 255, .push "x" 1, .push "x" 1, .child 1, .child 2, .enter 3,
    .push "p" 1, .push "q" 2, .request "x", .settle]

theorem wrapped_laidOut :
    (∃ offset : UInt8, (empty.run wrapped).offset? "x" = some offset ∧
        (offset.toNat : Int) = (255 - 259) % 256) ∧
      (empty.run wrapped).offset? "y" = none ∧
      ((empty.run wrapped).run [.push "q" 7]).offset? "q" = (empty.run wrapped).offset? "q" ∧
      ∀ n, (∃ slot ∈ [Slot.mk "p" 1, ⟨"q", 2⟩], (empty.run wrapped).Covers 3 slot n) ↔ n < 3 := by
  have hOps : empty.AdmitsAll wrapped := by decide +kernel
  have hLaid := laidOut_run hOps
  have hSlots : (FrameHistory.empty.run wrapped).slotsOf 3 = [⟨"p", 1⟩, ⟨"q", 2⟩] := by
    decide +kernel
  have hBefore : (FrameHistory.empty.run wrapped).bytesBefore "x" 1 = 255 := by decide +kernel
  have hFrames : (FrameHistory.empty.run wrapped).frameBytes [2, 1] = 259 := by decide +kernel
  refine ⟨?_, ?_, ?_, ?_⟩
  · have hOffset := hLaid.offset "x" [3, 2] 1 [0] (by decide +kernel) (by decide +kernel)
      (by decide +kernel)
    simp only [List.cons_append, List.nil_append, List.tail_cons, hBefore, hFrames] at hOffset
    exact hOffset
  · exact (hLaid.missing "y").mpr (by decide +kernel)
  · exact hLaid.stable "q" (by decide +kernel) [⟨"q", 7⟩]
  · have hTiles := hLaid.tiles 3 (by decide +kernel) (by decide +kernel) (by decide +kernel)
    rw [hSlots] at hTiles
    exact hTiles.2

end Frames

end ChipPascal
