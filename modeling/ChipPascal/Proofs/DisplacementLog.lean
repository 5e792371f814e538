import ChipPascal.Proofs.ExprLowering
import ChipPascal.Proofs.FrameHistory
import Mathlib.Logic.Function.Iterate

/-!
# Displacements and what was answered

A request is answered with what to add to a base register that may be displaced already. A log keeps
these answers, each with the block that was active, and the settlements between them, so that the
displacement of a block can be added up from what was answered in it. The blocks keep the same, in a
byte that wraps.
-/

namespace ChipPascal

/-! ### Events -/

inductive DisplacementEvent where
  | answered (block : Nat) (delta : UInt8)
  | settled (block : Nat)

namespace DisplacementEvent

def block : DisplacementEvent → Nat
  | answered block _ => block
  | settled block => block

def delta? (i : Nat) : DisplacementEvent → Option UInt8
  | answered block delta => if block = i then some delta else none
  | settled _ => none

/-- A settlement reaches the block in which it is made, and those that enclose it. -/
def Reaches (n : Nesting) (i : Nat) : DisplacementEvent → Prop
  | answered _ _ => False
  | settled block => i ∈ n.way block

instance (n : Nesting) (i : Nat) : (e : DisplacementEvent) → Decidable (e.Reaches n i)
  | answered _ _ => inferInstanceAs (Decidable False)
  | settled block => inferInstanceAs (Decidable (i ∈ n.way block))

/-- What was answered in block `i` since the latest settlement that reaches it. The latest event
comes first. -/
def deltas (n : Nesting) (i : Nat) (events : List DisplacementEvent) : List UInt8 :=
  (events.takeWhile (¬·.Reaches n i)).filterMap (·.delta? i)

variable {n n' : Nesting} {i j : Nat} {delta : UInt8} {events : List DisplacementEvent}

theorem deltas_answered :
    deltas n i (answered i delta :: events) = delta :: deltas n i events := by
  simp [deltas, Reaches, delta?]

theorem deltas_answered_of_ne (h : j ≠ i) :
    deltas n i (answered j delta :: events) = deltas n i events := by
  simp [deltas, Reaches, delta?, h]

/-- Nothing before a settling counts for the blocks that it reaches. -/
theorem deltas_settled (h : i ∈ n.way j) : deltas n i (settled j :: events) = [] := by
  simp [deltas, Reaches, h]

theorem deltas_settled_of_notMem (h : i ∉ n.way j) :
    deltas n i (settled j :: events) = deltas n i events := by
  simp [deltas, Reaches, delta?, h]

theorem deltas_congr (h : ∀ e ∈ events, n.way e.block = n'.way e.block) :
    deltas n i events = deltas n' i events := by
  induction events with
  | nil => rfl
  | cons e events ih =>
    have hRest := ih fun e' he' => h e' (List.mem_cons_of_mem e he')
    have hWay := h e List.mem_cons_self
    cases e with
    | answered j delta =>
      by_cases hj : j = i
      · subst hj
        rw [deltas_answered, deltas_answered, hRest]
      · rw [deltas_answered_of_ne hj, deltas_answered_of_ne hj, hRest]
    | settled j =>
      by_cases hi : i ∈ n.way j
      · rw [deltas_settled hi, deltas_settled (hWay ▸ hi)]
      · rw [deltas_settled_of_notMem hi, deltas_settled_of_notMem (hWay ▸ hi), hRest]

theorem deltas_eq_nil (h : ∀ e ∈ events, e.block ≠ i) : deltas n i events = [] := by
  apply List.filterMap_eq_nil_iff.mpr
  intro e he
  have hBlock := h e ((List.takeWhile_sublist _).mem he)
  cases e with
  | answered j delta => exact if_neg hBlock
  | settled j => rfl

end DisplacementEvent

/-! ### Logs -/

structure DisplacementLog where
  history : FrameHistory
  /-- The latest comes first. -/
  events : List DisplacementEvent

namespace DisplacementLog

open Frames DisplacementEvent

def empty : DisplacementLog := ⟨.empty, []⟩

def event? (l : DisplacementLog) : Op → Option UInt8 → Option DisplacementEvent
  | .request _, some delta => some (.answered l.history.active delta)
  | .settle, _ => some (.settled l.history.active)
  | _, _ => none

def record (l : DisplacementLog) (op : Op) (answer : Option UInt8) : DisplacementLog :=
  ⟨l.history.apply op, (l.event? op answer).toList ++ l.events⟩

def sum : List UInt8 → Nat
  | [] => 0
  | delta :: deltas => delta.toNat + sum deltas

def displacement (l : DisplacementLog) (i : Nat) : Nat :=
  sum (deltas l.history.nesting i l.events)

variable {l : DisplacementLog} {i : Nat}

/-- An answered request displaces the active block by its answer. -/
theorem displacement_answered (name : String) (delta : UInt8) :
    (l.record (.request name) (some delta)).displacement l.history.active =
      delta.toNat + l.displacement l.history.active :=
  congrArg sum deltas_answered

theorem displacement_answered_of_ne (name : String) (delta : UInt8) (h : l.history.active ≠ i) :
    (l.record (.request name) (some delta)).displacement i = l.displacement i :=
  congrArg sum (deltas_answered_of_ne h)

theorem displacement_settled (h : i ∈ l.history.nesting.way l.history.active) :
    (l.record .settle none).displacement i = 0 :=
  congrArg sum (deltas_settled h)

theorem displacement_settled_of_notMem (h : i ∉ l.history.nesting.way l.history.active) :
    (l.record .settle none).displacement i = l.displacement i :=
  congrArg sum (deltas_settled_of_notMem h)

theorem displacement_child (h : ∀ e ∈ l.events, e.block < l.history.nesting.ways.length)
    (parent : Nat) : (l.record (.child parent) none).displacement i = l.displacement i := by
  -- the ways of the blocks that are there already stay as they are
  apply congrArg sum
  apply deltas_congr
  intro e he
  exact Nesting.way_child_of_lt (h e he)

theorem displacement_eq_zero (h : ∀ e ∈ l.events, e.block ≠ i) : l.displacement i = 0 :=
  congrArg sum (deltas_eq_nil h)

end DisplacementLog

namespace Frames

variable {f : Frames} {h : FrameHistory} {l : DisplacementLog} {name : String}

/-- Only a request for a name that has a slot is answered. -/
def answer? (f : Frames) : Op → Option UInt8
  | .request name => (f.offsetFromLast? name).map (·.1)
  | _ => none

def log (f : Frames) (l : DisplacementLog) : List Op → DisplacementLog
  | [] => l
  | op :: ops => (f.apply op).log (l.record op (f.answer? op)) ops

/-! ### Displacements of all blocks -/

theorem last_enter (f : Frames) (i : Nat) :
    (f.enter i).last = ((f.table[i]?).map (·.last)).getD 0 := by
  rw [last, enter]
  cases f.table[i]? <;> rfl

theorem last_enter_child (f : Frames) (parent : Nat) {i : Nat} (hi : i < f.table.size) :
    ((f.child parent).enter i).last = (f.enter i).last := by
  rw [last_enter, last_enter, child, Array.getElem?_push_lt hi, Array.getElem?_eq_getElem hi]

theorem last_enter_child_size (f : Frames) (parent : Nat) :
    ((f.child parent).enter f.table.size).last = 0 := by
  rw [last_enter, child, Array.getElem?_push_size]
  rfl

theorem last_enter_push (f : Frames) (name : String) (size : UInt8) (i : Nat) :
    ((f.push name size).enter i).last = (f.enter i).last := by
  rw [last_enter, last_enter, push, Array.getElem?_modify]
  split
  · cases f.table[i]? <;> rfl
  · rfl

theorem last_enter_setLast {i : Nat} (hi : i < f.table.size) (offset : UInt8) :
    ((f.setLast i offset).enter i).last = offset := by
  rw [last_enter, setLast, Array.getElem?_modify, if_pos rfl, Array.getElem?_eq_getElem hi]
  rfl

theorem last_enter_setLast_of_ne {i j : Nat} (h : i ≠ j) (offset : UInt8) :
    ((f.setLast i offset).enter j).last = (f.enter j).last := by
  rw [last_enter, last_enter, setLast, Array.getElem?_modify, if_neg h]

/-! ### The walk outwards -/

def forget (f : Frames) (blocks : List Nat) : Frames := blocks.foldl (·.setLast · 0) f

/-- One turn of a walk: the displacement of a block is forgotten, and the next one is the block that
encloses it. -/
def settleTurn : Frames × Option Nat → Frames × Option Nat
  | (f, none) => (f, none)
  | (f, some i) => (f.setLast i 0, (f.table[i]?).bind (·.enclosing))

theorem active_forget (f : Frames) (blocks : List Nat) : (f.forget blocks).active = f.active := by
  induction blocks generalizing f with
  | nil => rfl
  | cons i blocks ih => exact ih (f.setLast i 0)

theorem getElem?_forget_of_notMem {blocks : List Nat} {k : Nat} (hk : k ∉ blocks) :
    (f.forget blocks).table[k]? = f.table[k]? := by
  induction blocks generalizing f with
  | nil => rfl
  | cons i blocks ih =>
    rw [List.mem_cons, not_or] at hk
    calc (f.forget (i :: blocks)).table[k]?
        = (f.setLast i 0).table[k]? := ih hk.2
      _ = f.table[k]? := by rw [setLast, Array.getElem?_modify, if_neg (Ne.symm hk.1)]

/-- Forgetting a block resets its displacement and nothing else of it. -/
theorem getElem?_forget {blocks : List Nat} {k : Nat} (hk : k ∈ blocks) :
    (f.forget blocks).table[k]? = (f.table[k]?).map ({ · with last := 0 }) := by
  induction blocks generalizing f with
  | nil => cases hk
  | cons i blocks ih =>
    by_cases hLater : k ∈ blocks
    · calc (f.forget (i :: blocks)).table[k]?
          = ((f.setLast i 0).table[k]?).map ({ · with last := 0 }) := ih hLater
        _ = (f.table[k]?).map ({ · with last := 0 }) := by
          rw [setLast, Array.getElem?_modify]
          split
          · rw [Option.map_map]
            rfl
          · rfl
    · obtain rfl : k = i := (List.mem_cons.mp hk).resolve_right hLater
      calc (f.forget (k :: blocks)).table[k]?
          = (f.setLast k 0).table[k]? := getElem?_forget_of_notMem hLater
        _ = (f.table[k]?).map ({ · with last := 0 }) := by
          rw [setLast, Array.getElem?_modify, if_pos rfl]

/-- The walk outwards forgets exactly the blocks on the way. -/
theorem settleFrom_eq_forget {n : Nesting} {links : List (Option Nat)} (hn : n.Follows links) :
    ∀ i, i < links.length → ∀ f : Frames, f.links = links → f.settleFrom i = f.forget (n.way i) := by
  -- a turn changes the blocks but not their links, so the induction is for all blocks with these
  refine hn.induct ?_ ?_
  · rintro i hLink f rfl
    obtain ⟨last, hBlock⟩ := exists_block hLink
    rw [settleFrom, hBlock, hn.outermost i hLink]
    rfl
  · rintro i j hLink ih f rfl
    obtain ⟨last, hBlock⟩ := exists_block hLink
    rw [settleFrom, hBlock, hn.inner i j hLink]
    simp only [hn.less i j hLink, if_true]
    exact ih (f.setLast i 0) (links_setLast f i 0)

/-- After `k` turns the first `k` blocks of the way are settled, and the walk has come to the next
one. -/
theorem iterate_settleTurn {n : Nesting} {links : List (Option Nat)} (hn : n.Follows links) :
    ∀ i, i < links.length → ∀ f : Frames, f.links = links → ∀ k,
      settleTurn^[k] (f, some i) = (f.forget ((n.way i).take k), (n.way i)[k]?) := by
  have hDone : ∀ k (f : Frames), settleTurn^[k] (f, none) = (f, none) := fun k f =>
    Function.iterate_fixed rfl k
  refine hn.induct ?_ ?_
  · rintro i hLink f rfl k
    obtain ⟨last, hBlock⟩ := exists_block hLink
    rw [hn.outermost i hLink]
    cases k with
    | zero => rfl
    | succ k =>
      rw [Function.iterate_succ_apply, settleTurn, hBlock, List.take_succ_cons, List.take_nil]
      exact hDone k (f.setLast i 0)
  · rintro i j hLink ih f rfl k
    obtain ⟨last, hBlock⟩ := exists_block hLink
    rw [hn.inner i j hLink]
    cases k with
    | zero => rfl
    | succ k =>
      rw [Function.iterate_succ_apply, settleTurn, hBlock]
      exact ih (f.setLast i 0) (links_setLast f i 0) k

theorem Refines.settle_eq_forget (hr : f.Refines h) :
    f.settle = f.forget (h.nesting.way h.active) := by
  rw [settle, settleFrom_eq_forget hr.follows _ (f.length_links.symm ▸ hr.inside) f rfl, hr.active]

/-- The loop that settles ends after one turn for each block on the way outwards. -/
theorem Refines.iterate_settleTurn (hr : f.Refines h) :
    settleTurn^[(h.nesting.way h.active).length] (f, some f.active) = (f.settle, none) := by
  rw [Frames.iterate_settleTurn hr.follows _ (f.length_links.symm ▸ hr.inside) f rfl, hr.active,
    List.take_length, List.getElem?_eq_none (Nat.le_refl _), hr.settle_eq_forget]

theorem last_enter_forget {blocks : List Nat} {i : Nat} (hi : i ∈ blocks) :
    ((f.forget blocks).enter i).last = 0 := by
  rw [last_enter, getElem?_forget hi]
  cases f.table[i]? <;> rfl

theorem last_enter_forget_of_notMem {blocks : List Nat} {i : Nat} (hi : i ∉ blocks) :
    ((f.forget blocks).enter i).last = (f.enter i).last := by
  rw [last_enter, last_enter, getElem?_forget_of_notMem hi]

/-! ### Requests -/

theorem answer?_request {offset : UInt8} (hOffset : f.offset? name = some offset) :
    f.answer? (.request name) = some (offset - f.last) := by
  rw [answer?, offsetFromLast?, hOffset]
  rfl

theorem apply_request {offset : UInt8} (hOffset : f.offset? name = some offset) :
    f.apply (.request name) = f.setLast f.active offset := by
  rw [apply, offsetFromLast?, hOffset]
  rfl

theorem answer?_request_eq_none_iff : f.answer? (.request name) = none ↔ f.offset? name = none := by
  rw [answer?, offsetFromLast?, Option.map_eq_none_iff, Option.map_eq_none_iff]

theorem apply_request_of_none (hOffset : f.offset? name = none) : f.apply (.request name) = f := by
  rw [apply, offsetFromLast?, hOffset]
  rfl

/-- The answer to a request and the displacement so far add up to the offset, modulo a byte. -/
theorem toNat_sub_add (offset last : UInt8) {n : Nat} (hLast : last.toNat = n % 256) :
    ((offset - last).toNat + n) % 256 = offset.toNat := by
  have hOffset := offset.toNat_lt
  rw [UInt8.toNat_sub]
  omega

/-! ### What the blocks keep of a log -/

theorem Refines.size_table (hr : f.Refines h) : f.table.size = h.nesting.ways.length := by
  rw [← length_links, hr.follows.length]

/-- The blocks are as the history says, and keep in a byte what the events add up to. -/
structure Logged (f : Frames) (l : DisplacementLog) : Prop where
  refines : f.Refines l.history
  blocks : ∀ e ∈ l.events, e.block < l.history.nesting.ways.length
  last : ∀ i, i < l.history.nesting.ways.length → (f.enter i).last.toNat = l.displacement i % 256

theorem logged_empty : empty.Logged .empty := by
  refine ⟨refines_empty, nofun, ?_⟩
  intro i hi
  obtain rfl : i = 0 := Nat.lt_one_iff.mp hi
  rfl

theorem Logged.active_lt (hl : f.Logged l) : l.history.active < l.history.nesting.ways.length := by
  rw [← hl.refines.active, ← hl.refines.size_table]
  exact hl.refines.inside

theorem Logged.child (hl : f.Logged l) {parent : Nat} (hParent : parent < f.table.size) :
    (f.child parent).Logged (l.record (.child parent) none) := by
  have hLength : (l.history.apply (.child parent)).nesting.ways.length =
      l.history.nesting.ways.length + 1 := List.length_append
  refine ⟨hl.refines.child hParent, ?_, ?_⟩
  · intro e he
    have hBlock := hl.blocks e he
    exact hLength ▸ Nat.lt_succ_of_lt hBlock
  · intro i hi
    rw [DisplacementLog.displacement_child hl.blocks]
    rcases Nat.lt_succ_iff_lt_or_eq.mp (hLength ▸ hi) with hOld | rfl
    · rw [last_enter_child f parent (hl.refines.size_table ▸ hOld)]
      exact hl.last i hOld
    · -- nothing was answered in the new block yet
      have hNew : ∀ e ∈ l.events, e.block ≠ l.history.nesting.ways.length := fun e he =>
        Nat.ne_of_lt (hl.blocks e he)
      rw [DisplacementLog.displacement_eq_zero hNew, ← hl.refines.size_table, last_enter_child_size]
      rfl

theorem Logged.enter (hl : f.Logged l) {block : Nat} (hBlock : block < f.table.size) :
    (f.enter block).Logged (l.record (.enter block) none) :=
  ⟨hl.refines.enter hBlock, hl.blocks, hl.last⟩

theorem Logged.push (hl : f.Logged l) (name : String) (size : UInt8) :
    (f.push name size).Logged (l.record (.push name size) none) := by
  refine ⟨hl.refines.push name size, hl.blocks, ?_⟩
  intro i hi
  rw [last_enter_push]
  exact hl.last i hi

/-- After a request the displacement is the offset of the name. -/
theorem Logged.displacement_request (hl : f.Logged l) {offset : UInt8}
    (hOffset : f.offset? name = some offset) :
    (l.record (.request name) (f.answer? (.request name))).displacement l.history.active % 256 =
      offset.toNat := by
  have hLast : f.last.toNat = l.displacement l.history.active % 256 := by
    rw [← hl.last l.history.active hl.active_lt, ← hl.refines.active]
    rfl
  rw [answer?_request hOffset, DisplacementLog.displacement_answered, toNat_sub_add _ _ hLast]

theorem Logged.request (hl : f.Logged l) (name : String) :
    (f.apply (.request name)).Logged (l.record (.request name) (f.answer? (.request name))) := by
  cases hOffset : f.offset? name with
  | none =>
    rw [apply_request_of_none hOffset, answer?_request_eq_none_iff.mpr hOffset]
    exact hl
  | some offset =>
    refine ⟨hl.refines.request name, ?_, ?_⟩
    · rw [answer?_request hOffset]
      intro e he
      rcases List.mem_cons.mp he with rfl | he
      · exact hl.active_lt
      · exact hl.blocks e he
    · intro i hi
      rw [apply_request hOffset, hl.refines.active]
      by_cases hActive : l.history.active = i
      · subst hActive
        rw [hl.displacement_request hOffset, last_enter_setLast (hl.refines.size_table ▸ hi)]
      · rw [answer?_request hOffset, DisplacementLog.displacement_answered_of_ne _ _ hActive,
          last_enter_setLast_of_ne hActive]
        exact hl.last i hi

theorem Logged.settle (hl : f.Logged l) : f.settle.Logged (l.record .settle none) := by
  refine ⟨hl.refines.settleFrom f.active, ?_, ?_⟩
  · intro e he
    rcases List.mem_cons.mp he with rfl | he
    · exact hl.active_lt
    · exact hl.blocks e he
  · intro i hi
    rw [hl.refines.settle_eq_forget]
    by_cases hWay : i ∈ l.history.nesting.way l.history.active
    · rw [last_enter_forget hWay, DisplacementLog.displacement_settled hWay]
      rfl
    · rw [last_enter_forget_of_notMem hWay, DisplacementLog.displacement_settled_of_notMem hWay]
      exact hl.last i hi

/-- Every operation keeps frames and log in step. -/
theorem Logged.apply (hl : f.Logged l) {op : Op} (hOp : f.Admits op) :
    (f.apply op).Logged (l.record op (f.answer? op)) := by
  cases op with
  | child parent => exact hl.child hOp
  | enter block => exact hl.enter hOp
  | push name size => exact hl.push name size
  | request name => exact hl.request name
  | settle => exact hl.settle

/-- Frames and log stay in step along a run. -/
theorem Logged.run (hl : f.Logged l) {ops : List Op} (hOps : f.AdmitsAll ops) :
    (f.run ops).Logged (f.log l ops) := by
  induction ops generalizing f l with
  | nil => exact hl
  | cons op ops ih => exact ih (hl.apply hOps.1) hOps.2

/-! ### Displacements after any operations -/

/-- The blocks keep the displacements that their log adds up to. -/
structure Displaced (f : Frames) (l : DisplacementLog) : Prop where
  active : f.active = l.history.active
  last : ∀ i, i < f.table.size → (f.enter i).last.toNat = l.displacement i % 256
  /-- A request is answered if a block on the way outwards has the name. -/
  answered : ∀ name, (f.answer? (.request name)).isSome ↔
    ∃ i ∈ l.history.nesting.way l.history.active, l.history.HasSlot name i
  /-- With its answer, the displacement is the offset of the name, which stays as it is. -/
  request : ∀ name delta, f.answer? (.request name) = some delta →
    ∃ offset, f.offset? name = some offset ∧ (f.apply (.request name)).offset? name = some offset ∧
      (l.record (.request name) (some delta)).displacement l.history.active % 256 = offset.toNat
  failed : ∀ name, f.answer? (.request name) = none →
    f.apply (.request name) = f ∧ l.record (.request name) none = l
  /-- Nothing but the displacements of the active block and of those that enclose it is changed. -/
  settled : f.settle.active = f.active ∧
    (∀ i ∈ l.history.nesting.way l.history.active, ∃ block, f.table[i]? = some block ∧
      f.settle.table[i]? = some { block with last := 0 }) ∧
    ∀ i ∉ l.history.nesting.way l.history.active, f.settle.table[i]? = f.table[i]?
  /-- The walk outwards that settles them takes a turn for each, and ends. -/
  ends : (l.history.nesting.way l.history.active).length ≤ f.table.size ∧
    settleTurn^[(l.history.nesting.way l.history.active).length] (f, some f.active) =
      (f.settle, none)

theorem Refines.lt_of_mem_way (hr : f.Refines h) {i : Nat} (hi : i ∈ h.nesting.way h.active) :
    i < f.table.size := by
  have hInside := hr.inside
  rw [← hr.active] at hi
  have hLe := hr.follows.le_of_mem_way (f.length_links.symm ▸ hInside) hi
  omega

theorem Refines.length_way_le (hr : f.Refines h) :
    (h.nesting.way h.active).length ≤ f.table.size := by
  have hInside := hr.inside
  have hLength := hr.follows.length_way_le (f.length_links.symm ▸ hInside)
  rw [hr.active] at hInside hLength
  omega

theorem Refines.isSome_answer?_iff (hr : f.Refines h) (name : String) :
    (f.answer? (.request name)).isSome ↔ ∃ i ∈ h.nesting.way h.active, h.HasSlot name i := by
  have hMissing := hr.offsetFrom?_eq_none_iff name f.active (f.length_links.symm ▸ hr.inside)
  rw [Option.isSome_iff_ne_none, Ne, answer?_request_eq_none_iff, Frames.offset?, hMissing,
    hr.active]
  push Not
  rfl

theorem Logged.displaced (hl : f.Logged l) : f.Displaced l where
  active := hl.refines.active
  last i hi := hl.last i (hl.refines.size_table ▸ hi)
  answered := hl.refines.isSome_answer?_iff
  request name delta hDelta := by
    have hFound : f.offset? name ≠ none := fun hNone =>
      nomatch hDelta.symm.trans (answer?_request_eq_none_iff.mpr hNone)
    obtain ⟨offset, hOffset⟩ := Option.ne_none_iff_exists'.mp hFound
    refine ⟨offset, hOffset, ?_, ?_⟩
    · rw [apply_request hOffset, offset?_setLast, hOffset]
    · rw [← hDelta]
      exact hl.displacement_request hOffset
  failed name hNone := ⟨apply_request_of_none (answer?_request_eq_none_iff.mp hNone), rfl⟩
  settled := by
    rw [hl.refines.settle_eq_forget]
    refine ⟨active_forget f _, ?_, fun _ hi => getElem?_forget_of_notMem hi⟩
    intro i hi
    have hBlock := Array.getElem?_eq_getElem (hl.refines.lt_of_mem_way hi)
    exact ⟨_, hBlock, by rw [getElem?_forget hi, hBlock, Option.map_some]⟩
  ends := ⟨hl.refines.length_way_le, hl.refines.iterate_settleTurn⟩

/-- After any operations on blocks that exist, the blocks keep the displacements that their log adds
up to. -/
theorem displaced_run {ops : List Op} (hOps : empty.AdmitsAll ops) :
    (empty.run ops).Displaced (empty.log .empty ops) :=
  (logged_empty.run hOps).displaced

/-- Two blocks within a frame of 301 bytes. The first gets a `b` of its own after it asked for the
one outside; the second settles between two requests. -/
def interleaved : List Op :=
  [.push "a" 200, .push "b" 100, .push "c" 1, .request "c", .child 0, .child 0, .enter 1,
    .request "b", .push "b" 9, .push "d" 1, .request "d", .enter 2, .request "a", .settle,
    .request "c", .enter 1, .request "a"]

theorem interleaved_displaced :
    ((empty.run interleaved).enter 0).last.toNat = 0 ∧
      ((empty.run interleaved).enter 1).last.toNat = (154 + 111 + 201) % 256 ∧
      ((empty.run interleaved).enter 2).last.toNat = 254 ∧
      (∃ offset, (empty.run interleaved).offset? "b" = some offset ∧
        (154 + 111 + 201 + 46) % 256 = offset.toNat) ∧
      (empty.run interleaved).apply (.request "z") = empty.run interleaved ∧
      (empty.run interleaved).settle.table[2]? = (empty.run interleaved).table[2]? ∧
      settleTurn^[2] (empty.run interleaved, some (empty.run interleaved).active) =
        ((empty.run interleaved).settle, none) := by
  have hOps : empty.AdmitsAll interleaved := by decide +kernel
  have hDisplaced := displaced_run hOps
  have hSize : (empty.run interleaved).table.size = 3 := by decide +kernel
  have hSums : (empty.log .empty interleaved).displacement 0 = 0 ∧
      (empty.log .empty interleaved).displacement 1 = 154 + 111 + 201 ∧
      (empty.log .empty interleaved).displacement 2 = 254 := by
    decide +kernel
  have hWay : (empty.log .empty interleaved).history.nesting.way
      (empty.log .empty interleaved).history.active = [1, 0] := by
    decide +kernel
  have hNext : ((empty.log .empty interleaved).record (.request "b") (some 46)).displacement
      (empty.log .empty interleaved).history.active = 154 + 111 + 201 + 46 := by
    decide +kernel
  refine ⟨?_, ?_, ?_, ?_, ?_, ?_, ?_⟩
  · rw [hDisplaced.last 0 (by omega), hSums.1]
  · rw [hDisplaced.last 1 (by omega), hSums.2.1]
  · rw [hDisplaced.last 2 (by omega), hSums.2.2]
  · obtain ⟨offset, hOffset, -, hSum⟩ := hDisplaced.request "b" 46 (by decide +kernel)
    exact ⟨offset, hOffset, hNext ▸ hSum⟩
  · exact (hDisplaced.failed "z" (by decide +kernel)).1
  · exact hDisplaced.settled.2.2 2 (by rw [hWay]; decide)
  · have hEnds := hDisplaced.ends.2
    rwa [hWay] at hEnds

end Frames

end ChipPascal
