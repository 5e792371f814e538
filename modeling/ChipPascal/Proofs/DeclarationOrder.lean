import ChipPascal.Proofs.Referents
import ChipPascal.Proofs.TreeSpans

/-!
# Where declarations stand

The tokens of a text start at different places, one behind the other, and the declarations that are
read from it keep their order. So the declarations of a scope start at increasing places, whatever
else is wrong with the text.
-/

namespace ChipPascal

def Decl.idents : Decl → List Ident
  | .var decl => [decl.name]
  | .proc decl => decl.name :: decl.vars.map (·.name)

/-- What a declaration declares is among its leaves, in this order. -/
theorem Decl.sublist_outline (decl : Decl) :
    (decl.idents.map (·.span)).Sublist (decl.outline.leaves.map (·.span)) := by
  have hVars : ∀ decls : List VarDecl, (decls.map (·.name.span)).Sublist
      ((Outline.row VarDecl.outline decls).leaves.map (·.span)) := by
    intro decls
    induction decls with
    | nil => exact List.Sublist.refl _
    | cons decl decls ih =>
      rw [Outline.row_cons]
      exact (ih.cons _).cons_cons _
  cases decl with
  | var decl => exact (List.nil_sublist _).cons_cons _
  | proc decl =>
    have hAll := (hVars decl.params).append ((hVars decl.locals).append
      (List.nil_sublist (decl.body.outline.leaves.map (·.span))))
    simpa [idents, outline, ProcDecl.outline, ProcDecl.vars, Ident.outline, Outline.leaf,
      Ident.token, Function.comp_def] using hAll

/-- What a text declares has its places among those of the tokens, in the same order. -/
theorem sublist_declared (source : String) :
    (((parse source).1.decls.flatMap (·.idents)).map (·.span)).Sublist
      ((tokenize source).list.map (·.span)) := by
  have hDecls : ∀ decls : List Decl, ((decls.flatMap (·.idents)).map (·.span)).Sublist
      ((Outline.row Decl.outline decls).leaves.map (·.span)) := by
    intro decls
    induction decls with
    | nil => exact List.Sublist.refl _
    | cons decl decls ih =>
      rw [List.flatMap_cons, List.map_append, Outline.row_cons, Outline.leaves_append,
        List.map_append]
      exact decl.sublist_outline.append ih
  have hTree : (parse source).1.outline.leaves.Sublist (tokenize source).list :=
    (List.sublist_append_right _ _).trans (trueTo_parse source).leaves
  refine (hDecls _).trans (.trans ?_ (hTree.map _))
  exact (List.sublist_append_left _ _).map _

/-! ### Declarations of a scope -/

def Declaration.span : Declaration → Span
  | builtin _ => .nowhere
  | global (.var decl) | param _ decl | inner _ decl => decl.name.span
  | global (.proc decl) => decl.name.span

theorem sublist_globals (decls : List Decl) :
    (decls.map fun decl => (Declaration.global decl).span).Sublist
      ((decls.flatMap (·.idents)).map (·.span)) := by
  induction decls with
  | nil => exact List.Sublist.refl _
  | cons decl decls ih =>
    have hHead : [(Declaration.global decl).span].Sublist (decl.idents.map (·.span)) := by
      cases decl <;> simp [Declaration.span, Decl.idents]
    rw [List.flatMap_cons, List.map_append]
    exact hHead.append ih

theorem ProcDecl.map_span_declarations (place : Nat) (proc : ProcDecl) :
    (proc.declarations place).map (·.span) = proc.vars.map (·.name.span) := by
  simp [declarations, vars, Declaration.span, Function.comp_def]

theorem sublist_procDeclarations {decls : List Decl} {proc : ProcDecl} (h : .proc proc ∈ decls)
    (place : Nat) :
    ((proc.declarations place).map (·.span)).Sublist
      ((decls.flatMap (·.idents)).map (·.span)) := by
  have hProc : (proc.vars.map (·.name)).Sublist (decls.flatMap (·.idents)) :=
    (List.sublist_cons_self proc.name _).trans
      (List.sublist_flatten_of_mem (List.mem_map_of_mem (f := Decl.idents) h))
  have hSpans := hProc.map (·.span)
  rw [List.map_map] at hSpans
  rw [ProcDecl.map_span_declarations]
  exact hSpans

/-- In every scope of a program that was read from a text, declarations start at increasing
places. -/
theorem pairwise_declared (source : String) {b : Body} (hb : b ∈ (parse source).1.allBodies) :
    b.declared.Pairwise fun d d' => d.span.start < d'.span.start := by
  have hTokens : ((tokenize source).list.map (·.span)).Pairwise fun a b => a.start < b.start :=
    List.pairwise_map.mpr (pairwise_tokenize source)
  have hIncreasing := hTokens.sublist (sublist_declared source)
  have hScope : (b.declared.map (·.span)).Sublist
      (((parse source).1.decls.flatMap (·.idents)).map (·.span)) := by
    rcases Program.mem_allBodies hb with rfl | ⟨before, proc, after, hDecls, rfl⟩
    · have hMain : (parse source).1.mainBody.declared.map (·.span) =
          (parse source).1.decls.map fun decl => (Declaration.global decl).span :=
        List.map_map
      rw [hMain]
      exact sublist_globals _
    · exact sublist_procDeclarations (by rw [hDecls]; simp) before.length
  have hDeclared := hIncreasing.sublist hScope
  rw [List.pairwise_map] at hDeclared
  exact hDeclared

end ChipPascal
