import ChipPascal.Proofs.TreeSpans

/-!
# Names are identifiers

Every name that a program declares was read from an identifier token: it has at least one
character, and all of them are letters, digits or underscores.
-/

namespace ChipPascal

def IsIdentifier (name : String) : Prop :=
  name.toList ≠ [] ∧ ∀ c ∈ name.toList, Lexer.isIdentPart c = true

/-- The scanner takes nothing for a name that is not spelled as one. -/
theorem isIdentifier_of_tokenize {source : String} {t : Token} (ht : t ∈ (tokenize source).list)
    (hKind : t.kind = .ident) : IsIdentifier t.text := by
  have hSpells := (stands_of_mem_tokenize ht).1
  have hNil := Lexer.spells_ne_nil hSpells
  rw [hKind] at hSpells
  exact ⟨hNil, List.all_eq_true.mp hSpells.2.1⟩

namespace Cursor

def DeclaresIdentifier (decl : VarDecl) : Prop := IsIdentifier decl.name.name

def ProcDeclares (proc : ProcDecl) : Prop :=
  IsIdentifier proc.name.name ∧ ∀ decl ∈ proc.vars, DeclaresIdentifier decl

def DeclNamed : Decl → Prop
  | .var decl => DeclaresIdentifier decl
  | .proc proc => ProcDeclares proc

theorem isIdentifier_defaultName : IsIdentifier defaultName.name := by
  constructor
  · simp [defaultName]
  · exact List.all_eq_true.mp (by decide)

end Cursor

/-- The names that a program gives to itself and to what it declares are identifiers. -/
structure Program.Spelled (program : Program) : Prop where
  name : IsIdentifier program.name.name
  decls : ∀ decl ∈ program.decls, Cursor.DeclNamed decl

open Outline in
/-- All names of a program that is read are spelled as names, the default one included. -/
theorem parse_spelled (source : String) : (parse source).1.Spelled := by
  have hLeaf {name : Ident} (h : name.token ∈ (parse source).1.leaves) : IsIdentifier name.name :=
    isIdentifier_of_tokenize ((trueTo_parse source).leaves.subset h) rfl
  have hPart {name : Ident} (h : name.outline.PartOf (parse source).1.outline) :
      IsIdentifier name.name :=
    hLeaf (List.mem_append_right _ (h.leaves (List.mem_singleton_self _)))
  have hVar {decl : VarDecl} (h : decl.outline.PartOf (parse source).1.outline) :
      Cursor.DeclaresIdentifier decl :=
    hPart ((partOf_left _ _).trans h)
  refine ⟨?_, fun decl hDecl => ?_⟩
  · by_cases hDefault : (parse source).1.name = Cursor.defaultName
    · rw [hDefault]
      exact Cursor.isIdentifier_defaultName
    · refine hLeaf (List.mem_append_left _ ?_)
      rw [if_neg hDefault]
      exact List.mem_singleton_self _
  · have hOuter := Program.partOf_decl hDecl
    cases decl with
    | var decl => exact hVar hOuter
    | proc proc =>
      exact ⟨hPart (ProcDecl.partOf_name.trans hOuter),
        fun decl hDecl => hVar ((ProcDecl.partOf_var hDecl).trans hOuter)⟩

end ChipPascal
