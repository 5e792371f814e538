import ChipPascal.Scopes

/-!
# Two levels of scopes

While a program is walked over, either the global scope is active or one that lies directly inside
it. `AtTop` and `Inside` describe these two situations by the bindings in force, so that what a
walk does to its scopes can be said without the table that holds them.
-/

namespace ChipPascal

namespace Bindings

variable {α : Type} {g : Bindings α} {ns : List String}

def Keys (g : Bindings α) (ns : List String) : Prop := ∀ name, (g.get? name).isSome ↔ name ∈ ns

theorem keys_nil : Keys ([] : Bindings α) [] := by
  intro name
  simp [get?]

theorem Keys.set (h : g.Keys ns) (name : String) (value : α) :
    (g.set name value).Keys (name :: ns) := by
  intro other
  by_cases hEq : other = name
  · subst hEq
    simp [get?_set_self]
  · rw [get?_set_of_ne g value hEq, h other]
    simp [hEq]

theorem Keys.get?_eq_none_iff (h : g.Keys ns) (name : String) :
    g.get? name = none ↔ name ∉ ns := by
  rw [← h name, Option.not_isSome_iff_eq_none]

end Bindings

namespace Scopes

variable {α : Type} {s : Scopes α} {g l : Bindings α} {name : String}

structure AtTop (s : Scopes α) (g : Bindings α) : Prop where
  active : s.active = 0
  top : s.table[0]? = some ⟨none, g⟩

/-- A scope inside the global one is active; it binds `l`, and the global one binds `g`. -/
structure Inside (s : Scopes α) (g l : Bindings α) : Prop where
  pos : 0 < s.active
  top : s.table[0]? = some ⟨none, g⟩
  here : s.table[s.active]? = some ⟨some 0, l⟩

/-! ### Moving between the levels -/

theorem AtTop.isGlobal (h : s.AtTop g) : s.isGlobal = true := by
  simp [Scopes.isGlobal, h.active]

theorem Inside.isGlobal (h : s.Inside g l) : s.isGlobal = false := by
  have := h.pos
  simp only [Scopes.isGlobal, decide_eq_false_iff_not]
  omega

theorem AtTop.openLocal (h : s.AtTop g) : s.openLocal.Inside g [] := by
  have hSize : 0 < s.table.size := (Array.getElem?_eq_some_iff.mp h.top).1
  refine ⟨?_, ?_, ?_⟩
  · exact hSize
  · simp only [Scopes.openLocal, Scopes.enter, child, Array.getElem?_push]
    rw [if_neg (by omega)]
    exact h.top
  · simp [Scopes.openLocal, Scopes.enter, child]

/-- Leaving a scope leads back to the top level as it was. -/
theorem Inside.enter (h : s.Inside g l) : (s.enter 0).AtTop g := ⟨rfl, h.top⟩

/-! ### Binding names -/

theorem table_defineAt (s : Scopes α) (i j : Nat) (name : String) (value : α) :
    (s.defineAt i name value).table[j]? =
      if i = j then
        s.table[j]?.map fun scope => { scope with bindings := scope.bindings.set name value }
      else s.table[j]? := by
  simp only [defineAt, Array.getElem?_modify]

theorem AtTop.define (h : s.AtTop g) (name : String) (value : α) :
    (s.define name value).AtTop (g.set name value) := by
  refine ⟨h.active, ?_⟩
  rw [Scopes.define, table_defineAt, if_pos h.active, h.top]
  rfl

theorem Inside.define (h : s.Inside g l) (name : String) (value : α) :
    (s.define name value).Inside g (l.set name value) := by
  have hPos := h.pos
  refine ⟨hPos, ?_, ?_⟩
  · rw [Scopes.define, table_defineAt, if_neg (by omega)]
    exact h.top
  · rw [Scopes.define, table_defineAt]
    simp [defineAt, h.here]

/-- All builtins are bound in the global scope, and nothing else. -/
theorem atTop_withBuiltins (value : Builtin → α) :
    (withBuiltins value).AtTop (Builtin.all.map fun b => (b.name, value b)) := by
  refine ⟨rfl, ?_⟩
  simp [withBuiltins, Builtin.all, Intrinsic.all, Builtin.name, Intrinsic.name,
    ValueType.keyword, Scopes.define, defineAt, empty, Bindings.set]

/-! ### Looking names up -/

theorem AtTop.owner? (h : s.AtTop g) (name : String) :
    s.owner? name = if (g.get? name).isSome then some 0 else none := by
  rw [Scopes.owner?, h.active, ownerFrom?, h.top]

/-- A local binding hides the global one. -/
theorem Inside.owner? (h : s.Inside g l) (name : String) :
    s.owner? name =
      if (l.get? name).isSome then some s.active
      else if (g.get? name).isSome then some 0 else none := by
  rw [Scopes.owner?, ownerFrom?, h.here]
  simp only [h.pos, if_true]
  rw [ownerFrom?, h.top]

theorem AtTop.bindingsAt (h : s.AtTop g) : s.bindingsAt 0 = g := by
  simp [Scopes.bindingsAt, h.top]

theorem AtTop.entries (h : s.AtTop g) : s.entries = g := by
  rw [Scopes.entries, h.active, h.bindingsAt]

theorem Inside.entries (h : s.Inside g l) : s.entries = l := by
  simp [Scopes.entries, Scopes.bindingsAt, h.here]

theorem AtTop.get? (h : s.AtTop g) (name : String) : s.get? name = g.get? name := by
  rw [Scopes.get?, h.owner?]
  cases hg : g.get? name with
  | none => simp
  | some value => simp [h.bindingsAt, hg]

theorem Inside.get? (h : s.Inside g l) (name : String) :
    s.get? name = (l.get? name).or (g.get? name) := by
  rw [Scopes.get?, h.owner?]
  cases hl : l.get? name with
  | some value => simp [Scopes.bindingsAt, h.here, hl]
  | none =>
    cases hg : g.get? name with
    | none => simp
    | some value => simp [Scopes.bindingsAt, h.top, hg]

theorem AtTop.binds (h : s.AtTop g) (name : String) : s.binds name = (g.get? name).isSome := by
  rw [Scopes.binds, h.owner?]
  cases g.get? name <;> rfl

theorem Inside.binds (h : s.Inside g l) (name : String) :
    s.binds name = ((l.get? name).isSome || (g.get? name).isSome) := by
  rw [Scopes.binds, h.owner?]
  cases l.get? name <;> cases g.get? name <;> rfl

/-! ### Overwriting bindings -/

theorem AtTop.set (h : s.AtTop g) {name : String} (hName : (g.get? name).isSome) (value : α) :
    (s.set name value).AtTop (g.set name value) := by
  rw [Scopes.set, h.owner?, if_pos hName]
  refine ⟨h.active, ?_⟩
  simp only [table_defineAt, if_true, h.top]
  rfl

theorem Inside.set_here (h : s.Inside g l) {name : String} (hName : (l.get? name).isSome)
    (value : α) : (s.set name value).Inside g (l.set name value) := by
  rw [Scopes.set, h.owner?, if_pos hName]
  exact h.define name value

/-- Setting a global from inside a procedure changes the top level. -/
theorem Inside.set_top (h : s.Inside g l) {name : String} (hHere : ¬(l.get? name).isSome)
    (hName : (g.get? name).isSome) (value : α) :
    (s.set name value).Inside (g.set name value) l := by
  have hPos := h.pos
  rw [Scopes.set, h.owner?, if_neg hHere, if_pos hName]
  refine ⟨hPos, ?_, ?_⟩
  · simp only [table_defineAt, if_true, h.top]
    rfl
  · have hActive : (s.defineAt 0 name value).active = s.active := rfl
    rw [hActive, table_defineAt, if_neg (by omega)]
    exact h.here

end Scopes

end ChipPascal
