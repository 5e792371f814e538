import Mathlib.Data.List.TakeWhile
import ChipPascal.Proofs.Nesting
import ChipPascal.Proofs.ScopeChain

/-!
# Scopes and what was written in them

A history remembers all that was ever written, and looks for a name in the scopes on the way
outwards: the nearest in which the name was written has the value written there last. The table of
scopes forgets what was overwritten, and still answers as the history does after any operations.
-/

namespace ChipPascal

/-! ### Operations -/

namespace Scopes

inductive Op (α : Type) where
  | child (parent : Nat)
  | enter (scope : Nat)
  | define (name : String) (value : α)
  | set (name : String) (value : α)

variable {α : Type}

def apply (s : Scopes α) : Op α → Scopes α
  | .child parent => s.child parent
  | .enter scope => s.enter scope
  | .define name value => (s.defineNew name value).2
  | .set name value => s.set name value

def run (s : Scopes α) (ops : List (Op α)) : Scopes α := ops.foldl apply s

/-- Only scopes that exist are entered or given a child. -/
def Admits (s : Scopes α) : Op α → Prop
  | .child parent => parent < s.table.size
  | .enter scope => scope < s.table.size
  | .define _ _ => True
  | .set _ _ => True

def AdmitsAll (s : Scopes α) : List (Op α) → Prop
  | [] => True
  | op :: ops => s.Admits op ∧ (s.apply op).AdmitsAll ops

instance (s : Scopes α) : (op : Op α) → Decidable (s.Admits op)
  | .child _ => inferInstanceAs (Decidable (_ < _))
  | .enter _ => inferInstanceAs (Decidable (_ < _))
  | .define _ _ => inferInstanceAs (Decidable True)
  | .set _ _ => inferInstanceAs (Decidable True)

instance decidableAdmitsAll (s : Scopes α) : (ops : List (Op α)) → Decidable (s.AdmitsAll ops)
  | [] => inferInstanceAs (Decidable True)
  | op :: ops =>
    have := decidableAdmitsAll (s.apply op) ops
    inferInstanceAs (Decidable (_ ∧ _))

end Scopes

/-! ### Histories -/

structure Write (α : Type) where
  scope : Nat
  name : String
  value : α
deriving DecidableEq

structure ScopeHistory (α : Type) where
  nesting : Nesting
  active : Nat
  /-- The latest comes first. -/
  writes : List (Write α)

namespace ScopeHistory

open Scopes

variable {α : Type}

/-- The value that was written last under `name` in scope `i`, if any was. -/
def latest? (h : ScopeHistory α) (i : Nat) (name : String) : Option α :=
  (h.writes.find? fun w => w.scope = i ∧ w.name = name).map (·.value)

/-- The first scope on the way outwards from scope `k` in which the name was written. -/
def nearest? (h : ScopeHistory α) (k : Nat) (name : String) : Option Nat :=
  (h.nesting.way k).find? fun i => (h.latest? i name).isSome

def lookup? (h : ScopeHistory α) (k : Nat) (name : String) : Option α :=
  (h.nearest? k name).bind fun i => h.latest? i name

def written? (h : ScopeHistory α) : Op α → Option (Write α)
  | .child _ => none
  | .enter _ => none
  | .define name value => some ⟨h.active, name, value⟩
  | .set name value => (h.nearest? h.active name).map fun i => ⟨i, name, value⟩

def record (h : ScopeHistory α) (w : Option (Write α)) : ScopeHistory α :=
  { h with writes := w.toList ++ h.writes }

def apply (h : ScopeHistory α) : Op α → ScopeHistory α
  | .child parent => { h with nesting := h.nesting.child parent }
  | .enter scope => { h with active := scope }
  | .define name value => h.record (h.written? (.define name value))
  | .set name value => h.record (h.written? (.set name value))

def run (h : ScopeHistory α) (ops : List (Op α)) : ScopeHistory α := ops.foldl apply h

/-- One scope, in which `writes` were made one after the other. -/
def ofWrites (writes : List (String × α)) : ScopeHistory α :=
  ⟨.single, 0, (writes.map fun w => ⟨0, w.1, w.2⟩).reverse⟩

variable {h : ScopeHistory α} {w : Write α}

theorem latest?_record_self (i : Nat) (name : String) (value : α) :
    (h.record (some ⟨i, name, value⟩)).latest? i name = some value := by
  simp [latest?, record]

theorem latest?_record_of_ne {i : Nat} {name : String} (hne : i ≠ w.scope ∨ name ≠ w.name) :
    (h.record (some w)).latest? i name = h.latest? i name := by
  have hOther : ¬(w.scope = i ∧ w.name = name) := by
    rintro ⟨rfl, rfl⟩
    simp at hne
  simp [latest?, record, hOther]

theorem findSome?_congr {β γ : Type} {f g : β → Option γ} {xs : List β}
    (hfg : ∀ x ∈ xs, f x = g x) : xs.findSome? f = xs.findSome? g := by
  induction xs with
  | nil => rfl
  | cons x xs ih =>
    rw [List.findSome?_cons, List.findSome?_cons, hfg x List.mem_cons_self,
      ih fun y hy => hfg y (List.mem_cons_of_mem x hy)]

/-- A name is looked up along the way outwards, and the first scope that has it counts. -/
theorem lookup?_eq_findSome? (k : Nat) (name : String) :
    h.lookup? k name = (h.nesting.way k).findSome? fun i => h.latest? i name := by
  rw [lookup?, nearest?]
  induction h.nesting.way k with
  | nil => rfl
  | cons i way ih =>
    cases hLatest : h.latest? i name with
    | some value => simp [hLatest]
    | none => simpa [hLatest] using ih

theorem isSome_lookup? (k : Nat) (name : String) :
    (h.lookup? k name).isSome = (h.nearest? k name).isSome := by
  cases hNearest : h.nearest? k name with
  | none => simp [lookup?, hNearest]
  | some i =>
    have hWritten := List.find?_some (p := fun i => (h.latest? i name).isSome) hNearest
    rw [lookup?, hNearest, Option.bind_some, hWritten, Option.isSome_some]

/-- A write is not seen under another name, from a scope that does not lie within the one written
to, or where a nearer scope has the name. -/
theorem lookup?_record {k : Nat} {name : String}
    (hApart : name ≠ w.name ∨ w.scope ∉ h.nesting.way k ∨
      ∃ j ∈ (h.nesting.way k).takeWhile (· ≠ w.scope), (h.latest? j w.name).isSome) :
    (h.record (some w)).lookup? k name = h.lookup? k name := by
  have hWay : (h.record (some w)).nesting.way k = h.nesting.way k := rfl
  rw [lookup?_eq_findSome?, lookup?_eq_findSome?, hWay]
  by_cases hName : name = w.name
  · subst hName
    have hBefore : ∀ scopes : List Nat, w.scope ∉ scopes →
        (scopes.findSome? fun i => (h.record (some w)).latest? i w.name) =
          scopes.findSome? fun i => h.latest? i w.name := by
      intro scopes hScopes
      apply findSome?_congr
      intro i hi
      apply latest?_record_of_ne
      left
      rintro rfl
      exact hScopes hi
    rcases hApart with hne | hOutside | ⟨j, hj, hNearer⟩
    · exact absurd rfl hne
    · exact hBefore _ hOutside
    · -- the search ends before it comes to the scope written to
      have hUnread : w.scope ∉ (h.nesting.way k).takeWhile (· ≠ w.scope) := fun hMem => by
        simpa using List.mem_takeWhile_imp hMem
      obtain ⟨value, hValue⟩ : ∃ value, ((h.nesting.way k).takeWhile (· ≠ w.scope)).findSome?
          (fun i => h.latest? i w.name) = some value := by
        rw [← Option.isSome_iff_exists, List.findSome?_isSome_iff]
        exact ⟨j, hj, hNearer⟩
      rw [← List.takeWhile_append_dropWhile (p := fun i => decide (i ≠ w.scope))
        (l := h.nesting.way k), List.findSome?_append, List.findSome?_append,
        hBefore _ hUnread, hValue, Option.some_or, Option.some_or]
  · apply findSome?_congr
    intro i _
    exact latest?_record_of_ne (.inr hName)

end ScopeHistory

/-! ### The table of scopes -/

namespace Scopes

variable {α : Type} {s : Scopes α} {n : Nesting}

def links (s : Scopes α) : List (Option Nat) := s.table.toList.map (·.enclosing)

theorem length_links (s : Scopes α) : s.links.length = s.table.size := by
  simp [links]

theorem getElem?_links (s : Scopes α) (i : Nat) :
    s.links[i]? = s.table[i]?.map (·.enclosing) := by
  simp [links]

theorem links_child (s : Scopes α) (parent : Nat) :
    (s.child parent).links = s.links ++ [some parent] := by
  simp [links, child]

theorem links_defineAt (s : Scopes α) (i : Nat) (name : String) (value : α) :
    (s.defineAt i name value).links = s.links := by
  apply List.ext_getElem?
  intro j
  rw [getElem?_links, getElem?_links, table_defineAt]
  split
  · cases s.table[j]? <;> rfl
  · rfl

theorem bindingsAt_child (s : Scopes α) (parent i : Nat) :
    (s.child parent).bindingsAt i = s.bindingsAt i := by
  simp only [bindingsAt, child, Array.getElem?_push]
  by_cases hi : i = s.table.size
  · subst hi
    simp
  · simp [hi]

theorem bindingsAt_defineAt_self {i : Nat} (hi : i < s.table.size) (name : String) (value : α) :
    (s.defineAt i name value).bindingsAt i = (s.bindingsAt i).set name value := by
  simp [bindingsAt, table_defineAt, hi]

theorem bindingsAt_defineAt_of_ne {i j : Nat} (hij : i ≠ j) (name : String) (value : α) :
    (s.defineAt i name value).bindingsAt j = s.bindingsAt j := by
  simp [bindingsAt, table_defineAt, hij]

/-- The search for a name goes along the way outwards. -/
theorem ownerFrom?_eq (h : n.Follows s.links) (name : String) :
    ∀ i, i < s.links.length →
      s.ownerFrom? name i = (n.way i).find? fun j => ((s.bindingsAt j).get? name).isSome := by
  refine h.induct ?_ ?_
  · intro i hLink
    rw [h.outermost i hLink]
    rw [getElem?_links, Option.map_eq_some_iff] at hLink
    obtain ⟨scope, hScope, hOuter⟩ := hLink
    rw [ownerFrom?, hScope]
    simp only [List.find?_cons, List.find?_nil, bindingsAt, hScope, hOuter]
    cases (scope.bindings.get? name).isSome <;> rfl
  · intro i j hLink ih
    have hLess := h.less i j hLink
    rw [h.inner i j hLink]
    rw [getElem?_links, Option.map_eq_some_iff] at hLink
    obtain ⟨scope, hScope, hOuter⟩ := hLink
    rw [ownerFrom?, hScope]
    simp only [List.find?_cons, hOuter, hLess, if_true, ih]
    simp only [bindingsAt, hScope]
    cases (scope.bindings.get? name).isSome <;> rfl

/-! ### What the table has of a history -/

/-- The table leads along the same ways, and keeps the latest value under each name. -/
structure Refines (s : Scopes α) (h : ScopeHistory α) : Prop where
  follows : h.nesting.Follows s.links
  active : s.active = h.active
  inside : s.active < s.table.size
  bound : ∀ i name, (s.bindingsAt i).get? name = h.latest? i name

variable {h : ScopeHistory α}

theorem refines_empty : Refines (empty : Scopes α) (.ofWrites []) := by
  refine ⟨Nesting.follows_single, rfl, Nat.zero_lt_one, ?_⟩
  intro i name
  cases i <;> rfl

/-- The table finds the nearest scope with the name. -/
theorem Refines.owner? (hr : s.Refines h) (name : String) :
    s.owner? name = h.nearest? h.active name := by
  have hInside : s.active < s.links.length := s.length_links ▸ hr.inside
  rw [Scopes.owner?, ownerFrom?_eq hr.follows name s.active hInside, hr.active,
    ScopeHistory.nearest?]
  simp only [hr.bound]

theorem Refines.get? (hr : s.Refines h) (name : String) :
    s.get? name = h.lookup? h.active name := by
  rw [Scopes.get?, hr.owner?, ScopeHistory.lookup?]
  simp only [hr.bound]

theorem Refines.enter (hr : s.Refines h) {scope : Nat} (hScope : scope < s.table.size) :
    (s.enter scope).Refines { h with active := scope } :=
  ⟨hr.follows, rfl, hScope, hr.bound⟩

theorem Refines.child (hr : s.Refines h) {parent : Nat} (hParent : parent < s.table.size) :
    (s.child parent).Refines { h with nesting := h.nesting.child parent } := by
  refine ⟨?_, hr.active, ?_, ?_⟩
  · rw [links_child]
    exact hr.follows.child (s.length_links.symm ▸ hParent)
  · have hInside := hr.inside
    simp only [Scopes.child, Array.size_push]
    omega
  · intro i name
    rw [bindingsAt_child]
    exact hr.bound i name

theorem Refines.defineAt (hr : s.Refines h) {i : Nat} (hi : i < s.table.size) (name : String)
    (value : α) : (s.defineAt i name value).Refines (h.record (some ⟨i, name, value⟩)) := by
  refine ⟨?_, hr.active, ?_, ?_⟩
  · rw [links_defineAt]
    exact hr.follows
  · rw [← length_links, links_defineAt, length_links]
    exact hr.inside
  · intro j other
    by_cases hij : i = j
    · subst hij
      rw [bindingsAt_defineAt_self hi]
      by_cases hName : other = name
      · subst hName
        rw [Bindings.get?_set_self]
        exact (ScopeHistory.latest?_record_self i other value).symm
      · rw [Bindings.get?_set_of_ne _ _ hName, hr.bound]
        exact (ScopeHistory.latest?_record_of_ne (.inr hName)).symm
    · rw [bindingsAt_defineAt_of_ne hij, hr.bound]
      exact (ScopeHistory.latest?_record_of_ne (.inl (Ne.symm hij))).symm

theorem Refines.define (hr : s.Refines h) (name : String) (value : α) :
    (s.define name value).Refines (h.record (some ⟨h.active, name, value⟩)) := by
  rw [Scopes.define, ← hr.active]
  exact hr.defineAt hr.inside name value

theorem Refines.lt_of_nearest? (hr : s.Refines h) {name : String} {i : Nat}
    (hi : h.nearest? h.active name = some i) : i < s.table.size := by
  have hInside : s.active < s.links.length := s.length_links ▸ hr.inside
  have hMem : i ∈ h.nesting.way s.active := hr.active ▸ List.mem_of_find?_eq_some hi
  have hLe := hr.follows.le_of_mem_way hInside hMem
  exact Nat.lt_of_le_of_lt hLe hr.inside

/-- Setting writes to the nearest scope with the name, and nowhere if there is none. -/
theorem Refines.set (hr : s.Refines h) (name : String) (value : α) :
    (s.set name value).Refines (h.record (h.written? (.set name value))) := by
  rw [Scopes.set, hr.owner?, ScopeHistory.written?]
  cases hNearest : h.nearest? h.active name with
  | none => exact hr
  | some i => exact hr.defineAt (hr.lt_of_nearest? hNearest) name value

/-- One operation. -/
theorem Refines.apply (hr : s.Refines h) {op : Op α} (hOp : s.Admits op) :
    (s.apply op).Refines (h.apply op) := by
  cases op with
  | child parent => exact hr.child hOp
  | enter scope => exact hr.enter hOp
  | define name value => exact hr.define name value
  | set name value => exact hr.set name value

/-- Any number of operations. -/
theorem Refines.run (hr : s.Refines h) {ops : List (Op α)} (hOps : s.AdmitsAll ops) :
    (s.run ops).Refines (h.run ops) := by
  induction ops generalizing s h with
  | nil => exact hr
  | cons op ops ih => exact ih (hr.apply hOps.1) hOps.2

theorem refines_withBuiltins (value : Builtin → α) :
    (withBuiltins value).Refines (.ofWrites (Builtin.all.map fun b => (b.name, value b))) := by
  have hAll : ∀ (builtins : List Builtin) {s : Scopes α} {h : ScopeHistory α}, s.Refines h →
      h.active = 0 → (builtins.foldl (fun s b => s.define b.name (value b)) s).Refines
        { h with writes :=
            (builtins.map fun b => (⟨0, b.name, value b⟩ : Write α)).reverse ++ h.writes } := by
    intro builtins
    induction builtins with
    | nil => exact fun hr _ => hr
    | cons b builtins ih =>
      intro s h hr hActive
      have hRest := ih (hr.define b.name (value b)) hActive
      rw [hActive] at hRest
      rw [List.foldl_cons, List.map_cons, List.reverse_cons, List.append_assoc]
      exact hRest
  have hStart := hAll Builtin.all refines_empty rfl
  rw [ScopeHistory.ofWrites, List.map_nil, List.reverse_nil, List.append_nil] at hStart
  rw [ScopeHistory.ofWrites, List.map_map]
  exact hStart

/-! ### Scopes after any operations -/

/-- How scopes begin, and their history then. -/
inductive Begins : Scopes α → ScopeHistory α → Prop
  | empty : Begins empty (.ofWrites [])
  | builtins (value : Builtin → α) :
      Begins (withBuiltins value) (.ofWrites (Builtin.all.map fun b => (b.name, value b)))

theorem Begins.refines (hb : Begins s h) : s.Refines h := by
  cases hb with
  | empty => exact refines_empty
  | builtins value => exact refines_withBuiltins value

/-- The scopes answer as their history says. -/
structure Answers (s : Scopes α) (h : ScopeHistory α) : Prop where
  active : s.active = h.active ∧ h.active < s.table.size
  /-- A scope comes later than the one that encloses it, so that the search for a name ends. -/
  enclosing : ∀ (i : Nat) (scope : Scope α), s.table[i]? = some scope →
    ∀ j ∈ scope.enclosing, j < i
  way : ∀ (i : Nat) (scope : Scope α), s.table[i]? = some scope →
    h.nesting.way i = i :: (scope.enclosing.map h.nesting.way).getD []
  get? : ∀ name, s.get? name = h.lookup? h.active name
  missing : ∀ name, s.get? name = none ↔ ∀ i ∈ h.nesting.way h.active, h.latest? i name = none
  binds : ∀ name, s.binds name = (s.get? name).isSome
  isNew : ∀ name value, (s.defineNew name value).1 = true ↔ h.latest? h.active name = none
  /-- A write changes nothing under other names, nothing that is seen from scopes outside of the one
  written to, and nothing that is seen from where a nearer scope binds the name. -/
  apart : ∀ op w, h.written? op = some w → ∀ k, k < s.table.size → ∀ name,
    (name ≠ w.name ∨ w.scope ∉ h.nesting.way k ∨
      ∃ j ∈ (h.nesting.way k).takeWhile (· ≠ w.scope), (h.latest? j w.name).isSome) →
    ((s.apply op).enter k).get? name = (s.enter k).get? name

/-- A scope is enclosed by an earlier one, and its way goes through it. -/
theorem Refines.link (hr : s.Refines h) {i : Nat} {scope : Scope α}
    (hScope : s.table[i]? = some scope) :
    (∀ j ∈ scope.enclosing, j < i) ∧
      h.nesting.way i = i :: (scope.enclosing.map h.nesting.way).getD [] := by
  have hLink : s.links[i]? = some scope.enclosing := by
    rw [getElem?_links, hScope, Option.map_some]
  cases hOuter : scope.enclosing with
  | none =>
    rw [hOuter] at hLink
    exact ⟨nofun, hr.follows.outermost i hLink⟩
  | some j =>
    rw [hOuter] at hLink
    refine ⟨?_, hr.follows.inner i j hLink⟩
    rintro _ ⟨⟩
    exact hr.follows.less i j hLink

/-- A write is not seen from where another binding hides it. -/
theorem Refines.get?_of_written (hr : s.Refines h) {op : Op α} {w : Write α}
    (hw : h.written? op = some w) {k : Nat} (hk : k < s.table.size) {name : String}
    (hApart : name ≠ w.name ∨ w.scope ∉ h.nesting.way k ∨
      ∃ j ∈ (h.nesting.way k).takeWhile (· ≠ w.scope), (h.latest? j w.name).isSome) :
    ((s.apply op).enter k).get? name = (s.enter k).get? name := by
  have hAdmits : s.Admits op := by
    cases op with
    | child parent => cases hw
    | enter scope => cases hw
    | define name value => trivial
    | set name value => trivial
  have hHistory : h.apply op = h.record (some w) := by
    cases op with
    | child parent => cases hw
    | enter scope => cases hw
    | define name value => exact congrArg h.record hw
    | set name value => exact congrArg h.record hw
  have hAfter := hr.apply hAdmits
  rw [hHistory] at hAfter
  have hSize : (s.apply op).table.size = s.table.size := by
    rw [← length_links, ← length_links, ← hAfter.follows.length, ← hr.follows.length]
    rfl
  rw [(hr.enter hk).get?, (hAfter.enter (hSize.symm ▸ hk)).get?]
  exact ScopeHistory.lookup?_record hApart

theorem Refines.answers (hr : s.Refines h) : s.Answers h where
  active := ⟨hr.active, hr.active ▸ hr.inside⟩
  enclosing _ _ hScope := (hr.link hScope).1
  way _ _ hScope := (hr.link hScope).2
  get? := hr.get?
  missing name := by
    rw [hr.get?, ScopeHistory.lookup?_eq_findSome?, List.findSome?_eq_none_iff]
  binds name := by
    rw [Scopes.binds, hr.owner?, hr.get?, ScopeHistory.isSome_lookup?]
  isNew name value := by
    have hHere : s.getHere? name = h.latest? h.active name := by
      rw [getHere?, entries, hr.bound, hr.active]
    rw [defineNew, bindsHere, hHere]
    cases h.latest? h.active name <;> simp
  apart _ _ hw _ hk _ hApart := hr.get?_of_written hw hk hApart

/-- After any operations on scopes that exist, scopes answer as their history says. -/
theorem answers_run (hBegins : Begins s h) {ops : List (Op α)} (hOps : s.AdmitsAll ops) :
    (s.run ops).Answers (h.run ops) :=
  (hBegins.refines.run hOps).answers

/-- Two scopes within each other and one beside them. The global `x` is overwritten from the
innermost, which then gets an `x` of its own. -/
def overwritten : List (Op Nat) :=
  [.define "x" 1, .child 0, .child 1, .child 0, .enter 2, .set "x" 2, .define "x" 3, .enter 3]

theorem overwritten_answers :
    ((withBuiltins fun _ => 0).run overwritten).get? "x" = some 2 ∧
      ((withBuiltins fun _ => 0).run overwritten).get? "y" = none ∧
      (((withBuiltins fun _ => 0).run overwritten).defineNew "x" 4).1 = true ∧
      ((((withBuiltins fun _ => 0).run overwritten).apply (.set "x" 4)).enter 2).get? "x" =
        (((withBuiltins fun _ => 0).run overwritten).enter 2).get? "x" := by
  have hOps : (withBuiltins fun _ => 0).AdmitsAll overwritten := by decide +kernel
  have hAnswers := answers_run (.builtins fun _ => 0) hOps
  have hSize : 2 < ((withBuiltins fun _ => 0).run overwritten).table.size := by decide +kernel
  refine ⟨?_, ?_, ?_, ?_⟩
  · exact (hAnswers.get? "x").trans (by decide +kernel)
  · exact (hAnswers.missing "y").mpr (by decide +kernel)
  · exact (hAnswers.isNew "x" 4).mpr (by decide +kernel)
  · -- the global scope is written to, but scope 2 has an `x` of its own
    refine hAnswers.apart (.set "x" 4) ⟨0, "x", 4⟩ (by decide +kernel) 2 hSize "x" (.inr (.inr ?_))
    exact ⟨2, by decide +kernel, by decide +kernel⟩

end Scopes

end ChipPascal
