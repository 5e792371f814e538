import ChipPascal.Proofs.CompiledProgram
import ChipPascal.Proofs.UsageRecord

/-!
# Warnings about reads

A read draws a warning where the variable that it refers to had no value from the start and none of
the names met before assigns it. Bodies are met in the order of the text, the branches of an `if`
one after the other, and the value of an assignment before its target.
-/

namespace ChipPascal

def Warning.isUnsetRead : Warning → Bool
  | uninitializedRead .. => true
  | unusedVariable .. | unusedProcedure .. => false

theorem isUnsetRead_of_mem_unsetReads {before uses : List Use} {w : Warning}
    (h : w ∈ unsetReads before uses) : w.isUnsetRead = true := by
  induction uses generalizing before with
  | nil => cases h
  | cons u uses ih =>
    rcases List.mem_append.mp h with hHead | hRest
    · simp only [Use.unset?, Option.mem_toList, Option.bind_eq_some_iff] at hHead
      obtain ⟨d, -, hWarning⟩ := hHead
      split at hWarning
      · cases hWarning
        rfl
      · cases hWarning
    · exact ih hRest

namespace Usage

/-- Sweeping warns of unused names only. -/
theorem isUnsetRead_of_mem_unusedWarnings {entries : Bindings Entry} {w : Warning}
    (h : w ∈ unusedWarnings entries) : w.isUnsetRead = false := by
  obtain ⟨⟨name, entry⟩, -, hWarning⟩ := List.mem_filterMap.mp h
  rw [unused?] at hWarning
  split at hWarning <;> cases hWarning <;> rfl

/-- A sweep adds no warning about a read, so those about reads are as if the bodies were one. -/
theorem filter_walkWarnings {swept : List Use → Body → List Warning}
    (hSwept : ∀ us b, ∀ w ∈ swept us b, w.isUnsetRead = false) (done bodies : List Body) :
    (walkWarnings swept done bodies).filter (·.isUnsetRead) =
      unsetReads (usesOf done) (usesOf bodies) := by
  induction bodies generalizing done with
  | nil => rfl
  | cons b bodies ih =>
    have hReads : (unsetReads (usesOf done) (b.uses .valueFirst)).filter (·.isUnsetRead) =
        unsetReads (usesOf done) (b.uses .valueFirst) :=
      List.filter_eq_self.mpr fun w hw => isUnsetRead_of_mem_unsetReads hw
    have hSweep : (swept (usesOf done ++ b.uses .valueFirst) b).filter (·.isUnsetRead) = [] :=
      List.filter_eq_nil_iff.mpr fun w hw => by simp [hSwept _ b w hw]
    calc (walkWarnings swept done (b :: bodies)).filter (·.isUnsetRead)
        = (bodyWarnings swept (usesOf done) b).filter (·.isUnsetRead) ++
            (walkWarnings swept (done ++ [b]) bodies).filter (·.isUnsetRead) :=
          List.filter_append ..
      _ = unsetReads (usesOf done) (b.uses .valueFirst) ++
            unsetReads (usesOf done ++ b.uses .valueFirst) (usesOf bodies) := by
          rw [ih, usesOf_snoc, bodyWarnings, List.filter_append, hReads, hSweep, List.append_nil]
      _ = unsetReads (usesOf done) (usesOf (b :: bodies)) :=
          (unsetReads_append _ _ _).symm

end Usage

/-- What is assigned is a variable of the procedure around the assignment just where one there has
the name. -/
theorem Use.isSome_proc?_of_assigns {u : Use} {d : Declaration} (h : u.assigns d = true) :
    d.proc?.isSome ↔ u.name.name ∈ u.reach.own.map (·.name) := by
  rw [Use.assigns, Bool.and_eq_true] at h
  obtain ⟨hOwn, p, -, hPlace⟩ | ⟨hHidden, hPlace, -⟩ := Use.refersTo_cases h.2
  · simp [hPlace, hOwn]
  · simp [hPlace, hHidden]

open Usage in
/-- Where nothing is wrong with the names of a program, the walk comes to its end, and the warnings
about reads are, in the order in which names are met, one for each read of a variable which had no
value from the start and is not assigned before. An assignment to a variable of a procedure leaves
the global variable of the same name as it was, and one to a global variable those of procedures. -/
theorem usageWarnings_unsetReads (program : Program) (h : nameErrors program = []) :
    (usageWarnings program).2 = none ∧
      (usageWarnings program).1.filter (·.isUnsetRead) =
        unsetReads [] (program.uses .valueFirst) ∧
      ∀ u ∈ program.uses .valueFirst, ∀ d, u.assigns d = true →
        (d.proc?.isSome ↔ u.name.name ∈ u.reach.own.map (·.name)) := by
  rw [(Program.wellNamed_of_nameErrors h).usageWarnings_eq]
  refine ⟨rfl, ?_, fun u _ d hAssigns => Use.isSome_proc?_of_assigns hAssigns⟩
  exact filter_walkWarnings (fun _ _ _ => isUnsetRead_of_mem_unusedWarnings) [] program.allBodies

/-- A local hides a global variable and is read in its own assignment, then the global one is read
where only the local was assigned, and each branch of an `if` counts for the next. -/
def hiddenGlobal : String :=
  "var g: integer; var h: integer;
   procedure p(n: integer); var g: integer; begin g := g + n; g := g end;
   procedure q; begin if g then h := 1 else h := h end; begin g := h + g; p(g); q end."

set_option maxRecDepth 1000 in
theorem hiddenGlobal_unsetReads : nameErrors (parse hiddenGlobal).1 = [] ∧
    (usageWarnings (parse hiddenGlobal).1).2 = none ∧
    (usageWarnings (parse hiddenGlobal).1).1.filter (·.isUnsetRead) =
      [.uninitializedRead "g" ⟨87, 88⟩, .uninitializedRead "g" ⟨131, 132⟩,
        .uninitializedRead "g" ⟨177, 178⟩] := by
  have hTest : nameErrors (parse hiddenGlobal).1 = [] ∧
      unsetReads [] ((parse hiddenGlobal).1.uses .valueFirst) =
        [.uninitializedRead "g" ⟨87, 88⟩, .uninitializedRead "g" ⟨131, 132⟩,
        .uninitializedRead "g" ⟨177, 178⟩] := by
    rw [show parse hiddenGlobal = _ from parse_ofList _]
    decide +kernel
  obtain ⟨hFault, hReads, -⟩ := usageWarnings_unsetReads _ hTest.1
  exact ⟨hTest.1, hFault, hReads.trans hTest.2⟩

end ChipPascal
