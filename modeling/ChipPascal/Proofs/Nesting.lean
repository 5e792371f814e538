/-!
# Places within places

Scopes and frame blocks are added one by one, each inside one that is there already. A nesting keeps
for every such place the way outwards, as it was when the place was added. A table that names for
each place only the next one outwards leads along the same ways.
-/

namespace ChipPascal

/-- For each place the places from it outwards, itself first. -/
structure Nesting where
  ways : List (List Nat)

namespace Nesting

def single : Nesting := ⟨[[0]]⟩

def way (n : Nesting) (i : Nat) : List Nat := (n.ways[i]?).getD []

def child (n : Nesting) (parent : Nat) : Nesting :=
  ⟨n.ways ++ [n.ways.length :: n.way parent]⟩

variable {n : Nesting} {links : List (Option Nat)} {parent : Nat}

theorem way_child_of_lt {i : Nat} (h : i < n.ways.length) : (n.child parent).way i = n.way i := by
  rw [way, child, List.getElem?_append_left h, way]

theorem way_child_length :
    (n.child parent).way n.ways.length = n.ways.length :: n.way parent := by
  rw [way, child, List.getElem?_concat_length, Option.getD_some]

/-- `links` names the next place outwards from each place. -/
structure Follows (n : Nesting) (links : List (Option Nat)) : Prop where
  length : n.ways.length = links.length
  less : ∀ i j : Nat, links[i]? = some (some j) → j < i
  outermost : ∀ i : Nat, links[i]? = some none → n.way i = [i]
  inner : ∀ i j : Nat, links[i]? = some (some j) → n.way i = i :: n.way j

theorem follows_single : single.Follows [none] := by
  refine ⟨rfl, ?_, ?_, ?_⟩
  · intro i j hLink
    cases i <;> simp at hLink
  · intro i hLink
    cases i with
    | zero => rfl
    | succ i => simp at hLink
  · intro i j hLink
    cases i <;> simp at hLink

/-- The way from a new block goes through its parent. -/
theorem Follows.child (h : n.Follows links) (hParent : parent < links.length) :
    (n.child parent).Follows (links ++ [some parent]) := by
  have hOld : ∀ (i : Nat) (link : Option Nat), links[i]? = some link →
      (n.child parent).way i = n.way i := by
    intro i link hLink
    apply way_child_of_lt
    rw [h.length]
    exact (List.getElem?_eq_some_iff.mp hLink).1
  have hParentWay : (n.child parent).way parent = n.way parent :=
    way_child_of_lt (h.length ▸ hParent)
  have hNew : (n.child parent).way links.length = links.length :: n.way parent :=
    h.length ▸ way_child_length
  have hCases : ∀ {i : Nat} {link : Option Nat}, (links ++ [some parent])[i]? = some link →
      links[i]? = some link ∨ i = links.length ∧ link = some parent := by
    intro i link hLink
    rcases Nat.lt_or_ge i links.length with hLess | hGe
    · left
      rwa [List.getElem?_append_left hLess] at hLink
    · right
      rw [List.getElem?_append_right hGe, List.getElem?_singleton] at hLink
      split at hLink
      · exact ⟨by omega, (Option.some.inj hLink).symm⟩
      · cases hLink
  refine ⟨?_, ?_, ?_, ?_⟩
  · simp [Nesting.child, h.length]
  · intro i j hLink
    rcases hCases hLink with hLink | ⟨rfl, hEq⟩
    · exact h.less i j hLink
    · cases hEq
      exact hParent
  · intro i hLink
    rcases hCases hLink with hLink | ⟨-, hEq⟩
    · rw [hOld i _ hLink]
      exact h.outermost i hLink
    · cases hEq
  · intro i j hLink
    rcases hCases hLink with hLink | ⟨rfl, hEq⟩
    · have hj : j < n.ways.length := by
        have hi := (List.getElem?_eq_some_iff.mp hLink).1
        have hLess := h.less i j hLink
        rw [h.length]
        omega
      rw [hOld i _ hLink, way_child_of_lt hj]
      exact h.inner i j hLink
    · cases hEq
      rw [hNew, hParentWay]

/-- What holds of the outermost places, and of a place if it holds of the next one outwards, holds
of all places. -/
theorem Follows.induct {P : Nat → Prop} (h : n.Follows links)
    (outermost : ∀ i : Nat, links[i]? = some none → P i)
    (inner : ∀ i j : Nat, links[i]? = some (some j) → P j → P i) :
    ∀ i, i < links.length → P i := by
  intro i
  induction i using Nat.strongRecOn with
  | ind i ih =>
    intro hi
    cases hLink : links[i]? with
    | none => exact absurd hLink (by simp [hi])
    | some link =>
      cases link with
      | none => exact outermost i hLink
      | some j =>
        have hLess := h.less i j hLink
        exact inner i j hLink (ih j hLess (Nat.lt_trans hLess hi))

/-- A way begins with the block it starts from. -/
theorem Follows.head?_way (h : n.Follows links) {i : Nat} (hi : i < links.length) :
    (n.way i).head? = some i := by
  cases hLink : links[i] with
  | none =>
    rw [h.outermost i (hLink ▸ List.getElem?_eq_getElem hi), List.head?_cons]
  | some j =>
    rw [h.inner i j (hLink ▸ List.getElem?_eq_getElem hi), List.head?_cons]

/-- All places on a way were added before the one where it begins. -/
theorem Follows.le_of_mem_way (h : n.Follows links) {i j : Nat} (hi : i < links.length)
    (hj : j ∈ n.way i) : j ≤ i := by
  refine h.induct (P := fun i => ∀ j ∈ n.way i, j ≤ i) ?_ ?_ i hi j hj
  · intro i hLink j hj
    rw [h.outermost i hLink, List.mem_singleton] at hj
    exact Nat.le_of_eq hj
  · intro i outer hLink ih j hj
    have hLess := h.less i outer hLink
    rw [h.inner i outer hLink] at hj
    rcases List.mem_cons.mp hj with rfl | hj
    · exact Nat.le_refl _
    · exact Nat.le_of_lt (Nat.lt_of_le_of_lt (ih j hj) hLess)

/-- A way passes each place at most once. -/
theorem Follows.length_way_le (h : n.Follows links) {i : Nat} (hi : i < links.length) :
    (n.way i).length ≤ i + 1 := by
  refine h.induct (P := fun i => (n.way i).length ≤ i + 1) ?_ ?_ i hi
  · intro i hLink
    rw [h.outermost i hLink, List.length_singleton]
    exact Nat.le_add_left 1 i
  · intro i outer hLink ih
    have hLess := h.less i outer hLink
    rw [h.inner i outer hLink, List.length_cons]
    omega

end Nesting

end ChipPascal
