import ChipPascal.Proofs.DeclarationOrder
import ChipPascal.Proofs.KindReport
import ChipPascal.Proofs.UsageRecord
import Mathlib.Data.List.Basic

/-!
# Warnings about declarations

A variable draws a warning where no name in the program reads it, and a procedure where none calls
it. The walk warns about a scope when its body ends, and then it has met all names that could refer
to what is declared there. The warnings come in the order of the text, in whatever order a scope
gives its entries, because no two declarations start at the same place.
-/

namespace ChipPascal

namespace Use

def reads (u : Use) (d : Declaration) : Bool := u.access = .read && u.refersTo d

def calls (u : Use) (d : Declaration) : Bool := u.access = .called && u.refersTo d

end Use

/-- The warning about a variable that no name reads, or a procedure that none calls. -/
def Declaration.unused? (uses : List Use) (d : Declaration) : Option Warning :=
  match d with
  | builtin _ => none
  | global (.proc _) =>
    if uses.any (·.calls d) then none else some (.unusedProcedure d.name d.span)
  | global (.var _) | param .. | inner .. =>
    if uses.any (·.reads d) then none else some (.unusedVariable d.name d.span)

def Body.unused (uses : List Use) (b : Body) : List Warning := b.declared.filterMap (·.unused? uses)

open Usage in
def Program.usageReport (program : Program) : List Warning :=
  walkWarnings (fun _ b => b.unused (program.uses .valueFirst)) [] program.allBodies

namespace Usage

/-! ### One sweep -/

/-- Sorting undoes any shuffle of a list whose keys ascend. -/
theorem mergeSort_eq_of_perm {α : Type} {xs ys : List α} {key : α → Nat} (h : xs.Perm ys)
    (hKey : ys.Pairwise fun a b => key a < key b) :
    xs.mergeSort (fun a b => key a ≤ key b) = ys := by
  have hPerm : (xs.mergeSort fun a b => key a ≤ key b).Perm ys := (List.mergeSort_perm xs _).trans h
  have hSorted : (xs.mergeSort fun a b => key a ≤ key b).Pairwise fun a b => key a ≤ key b := by
    have hMerge : (xs.mergeSort fun a b => decide (key a ≤ key b)).Pairwise
        fun a b => decide (key a ≤ key b) = true :=
      List.pairwise_mergeSort (by simp only [decide_eq_true_eq]; omega)
        (by simp only [Bool.or_eq_true, decide_eq_true_eq]; omega) xs
    simpa using hMerge
  refine List.Perm.eq_of_pairwise ?_ hSorted (hKey.imp Nat.le_of_lt) hPerm
  intro a b ha hb hab hba
  have hNodup : (ys.map key).Nodup := List.pairwise_map.mpr (hKey.imp Nat.ne_of_lt)
  exact eq_of_nodup_map hNodup (hPerm.subset ha) hb (Nat.le_antisymm hab hba)

section Sweep

variable {us : List Use} {b : Body} {d : Declaration} {entries : Bindings Entry}

/-- The warning about a declaration when its scope is swept after the names `us`. -/
def sweptWarning? (us : List Use) (d : Declaration) : Option Warning :=
  if (entryAfter us d).isUsed then none else unused? (d.name, entryAfter us d)

theorem declaredAt_entryAfter (us : List Use) (d : Declaration) :
    (entryAfter us d).declaredAt = d.span := by
  rcases d with _ | (_ | _) | _ | _ <;> rfl

/-- Builtins are marked as used from the start. -/
theorem filter_entriesAfter_scope (us : List Use) (b : Body) :
    (entriesAfter us b.scope).filter (fun e => !e.2.isUsed) =
      (entriesAfter us b.declared).filter fun e => !e.2.isUsed := by
  obtain ⟨⟨globals, _ | p⟩, stmts⟩ := b
  · have hBuiltins : ∀ e ∈ entriesAfter us (Builtin.all.map Declaration.builtin),
        ¬(!e.2.isUsed) = true := by
      intro e he
      obtain ⟨d, hd, rfl⟩ := List.mem_map.mp he
      obtain ⟨builtin, -, rfl⟩ := List.mem_map.mp hd
      simp [entryAfter, Declaration.entry]
    show (entriesAfter us (Builtin.all.map .builtin ++ globals.map .global)).filter _ = _
    rw [entriesAfter, List.map_append, List.filter_append, ← entriesAfter,
      List.filter_eq_nil_iff.mpr hBuiltins, List.nil_append]
    rfl
  · rfl

/-- In whatever order the entries of a scope come, the warnings are in the order of the
declarations. -/
theorem unusedWarnings_of_perm (h : entries.Perm (entriesAfter us b.scope))
    (hOrder : b.declared.Pairwise fun d d' => d.span.start < d'.span.start) :
    unusedWarnings entries = b.declared.filterMap (sweptWarning? us) := by
  have hUnused := h.filter fun e => !e.2.isUsed
  rw [filter_entriesAfter_scope] at hUnused
  have hSorted : (entriesAfter us b.declared).Pairwise fun e e' =>
      e.2.declaredAt.start < e'.2.declaredAt.start := by
    refine List.pairwise_map.mpr (hOrder.imp fun {d d'} hLess => ?_)
    rw [declaredAt_entryAfter, declaredAt_entryAfter]
    exact hLess
  rw [unusedWarnings, mergeSort_eq_of_perm hUnused (hSorted.sublist List.filter_sublist),
    List.filterMap_filter, entriesAfter, List.filterMap_map]
  refine List.filterMap_congr fun d _ => ?_
  simp only [Function.comp_apply, sweptWarning?]
  cases (entryAfter us d).isUsed <;> rfl

end Sweep

/-! ### All sweeps -/

theorem walkWarnings_congr {swept swept' : List Use → Body → List Warning} {done bodies : List Body}
    (h : ∀ pre b post, done ++ bodies = pre ++ b :: post →
      swept (usesOf (pre ++ [b])) b = swept' (usesOf (pre ++ [b])) b) :
    walkWarnings swept done bodies = walkWarnings swept' done bodies := by
  induction bodies generalizing done with
  | nil => rfl
  | cons b bodies ih =>
    have hHead := h done b bodies rfl
    have hRest : walkWarnings swept (done ++ [b]) bodies =
        walkWarnings swept' (done ++ [b]) bodies :=
      ih (by simpa using h)
    rw [usesOf_snoc] at hHead
    show bodyWarnings swept _ b ++ walkWarnings swept (done ++ [b]) bodies =
      bodyWarnings swept' _ b ++ walkWarnings swept' (done ++ [b]) bodies
    rw [bodyWarnings, hHead, hRest, bodyWarnings]

end Usage

/-! ### Bodies and places -/

theorem Declaration.isVar_of_proc? {d : Declaration} {place : Nat} (h : d.proc? = some place) :
    d.isVar = true ∧ d.isProc = false := by
  rcases d with _ | _ | _ | _
  · cases h
  · cases h
  · exact ⟨rfl, rfl⟩
  · exact ⟨rfl, rfl⟩

/-- All bodies but the last are those of procedures, each in a place of its own. -/
theorem Program.pairwise_allBodies (program : Program) :
    program.allBodies.Pairwise fun b b' =>
      ∃ p, b.reach.proc = some p ∧ b'.reach.proc.map (·.1) ≠ some p.1 := by
  have hPlace : ∀ {before decls b},
      b ∈ flatMapAfter (fun before decl => Decl.bodies before decl) before decls →
      ∃ p, b.reach.proc = some p ∧ before.length ≤ p.1 := by
    intro before decls b hb
    obtain ⟨pre, decl, post, -, hMem⟩ := mem_flatMapAfter hb
    cases decl with
    | var decl => cases hMem
    | proc proc =>
      obtain rfl := List.mem_singleton.mp hMem
      exact ⟨_, rfl, by simp⟩
  have hProcs : ∀ before decls,
      (flatMapAfter (fun before decl => Decl.bodies before decl) before decls).Pairwise
        fun b b' => ∃ p, b.reach.proc = some p ∧ b'.reach.proc.map (·.1) ≠ some p.1 := by
    intro before decls
    induction decls generalizing before with
    | nil => exact List.Pairwise.nil
    | cons decl decls ih =>
      cases decl with
      | var decl => exact ih _
      | proc proc =>
        refine List.Pairwise.cons (fun b hb => ⟨_, rfl, ?_⟩) (ih _)
        obtain ⟨p, hp, hLe⟩ := hPlace hb
        rw [hp, Option.map_some, ne_eq, Option.some.injEq]
        simp only [List.length_append, List.length_singleton] at hLe
        omega
  refine List.pairwise_append.mpr ⟨hProcs [] program.decls, List.pairwise_singleton _ _, ?_⟩
  intro b hb main hMain
  obtain rfl := List.mem_singleton.mp hMain
  obtain ⟨p, hp, -⟩ := hPlace hb
  exact ⟨p, hp, by simp [Program.mainBody]⟩

section Whole

open Usage

variable {program : Program} {pre post : List Body} {b : Body} {u : Use} {d : Declaration}

theorem Body.mem_declared (h : d ∈ b.declared) :
    (∃ p, b.reach.proc = some p ∧ d.proc? = some p.1) ∨
      (b.reach.proc = none ∧ ∃ decl ∈ b.reach.globals, d = .global decl) := by
  obtain ⟨⟨globals, _ | ⟨place, proc⟩⟩, stmts⟩ := b
  · obtain ⟨decl, hDecl, rfl⟩ := List.mem_map.mp h
    exact .inr ⟨rfl, decl, hDecl, rfl⟩
  · exact .inl ⟨_, rfl, ProcDecl.proc?_of_mem_declarations h⟩

theorem Program.globals_of_mem_allBodies (hb : b ∈ program.allBodies) {decl : Decl}
    (h : decl ∈ b.reach.globals) : decl ∈ program.decls := by
  rcases Program.mem_allBodies hb with rfl | ⟨before, proc, after, hDecls, rfl⟩
  · exact h
  · rw [hDecls, List.append_cons]
    exact List.mem_append_left _ h

/-- When a body ends, no name that comes later refers to what is declared in its scope. -/
theorem refersTo_later (h : program.allBodies = pre ++ b :: post) (hd : d ∈ b.declared)
    (hu : u ∈ usesOf post) : u.refersTo d = false := by
  obtain ⟨later, hLater, hReach⟩ := exists_of_mem_usesOf hu
  have hPlaces := program.pairwise_allBodies
  rw [h, List.pairwise_append] at hPlaces
  obtain ⟨p, hp, hNe⟩ := (List.pairwise_cons.mp hPlaces.2.1).1 later hLater
  have hPlace : d.proc? = some p.1 := by
    rcases Body.mem_declared hd with ⟨q, hq, hPlace⟩ | ⟨hNone, -⟩
    · rw [hp, Option.some.injEq] at hq
      rw [hPlace, hq]
    · rw [hp] at hNone
      cases hNone
  rw [Bool.eq_false_iff]
  intro hRefers
  obtain ⟨-, q, hq, hSame⟩ | ⟨-, hNone, -⟩ := Use.refersTo_cases hRefers
  · apply hNe
    rw [← hReach, hq, Option.map_some, ← hSame, hPlace]
  · rw [hPlace] at hNone
    cases hNone

/-- What a name refers to is of the kind of every declaration in the same place with this name. -/
theorem kind_of_key_eq (hNamed : program.WellNamed) (hb : b ∈ program.allBodies)
    (hd : d ∈ b.declared) (hu : u ∈ program.uses .valueFirst) {found : Declaration}
    (hFound : u.reach.find? u.name.name = some found) (hKey : found.key = d.key) :
    found.isVar = d.isVar ∧ found.isProc = d.isProc := by
  have hPlace : found.proc? = d.proc? := congrArg Prod.fst hKey
  have hName : found.name = d.name := congrArg Prod.snd hKey
  obtain ⟨user, hUser, hReach⟩ := exists_of_mem_usesOf hu
  rcases Body.mem_declared hd with ⟨p, -, hInner⟩ | ⟨-, decl, hDecl, rfl⟩
  · have hVar := Declaration.isVar_of_proc? hInner
    have hFoundVar := Declaration.isVar_of_proc? (hPlace.trans hInner)
    rw [hVar.1, hVar.2]
    exact hFoundVar
  -- at the top level the whole program has one declaration of the name
  · obtain ⟨-, hOwn | ⟨-, hTop⟩⟩ := Reach.find?_cases hFound
    · obtain ⟨p, -, hInner⟩ := Reach.proc?_of_mem_own hOwn
      rw [hInner] at hPlace
      cases hPlace
    · have hNodup : ((topOf program.decls).map (·.name)).Nodup := hNamed.mainBody.reach.top
      have hFoundTop : found ∈ topOf program.decls := by
        rw [hReach] at hTop
        refine (List.mem_append.mp hTop).elim (List.mem_append_left _) fun hGlobal => ?_
        obtain ⟨other, hOther, rfl⟩ := List.mem_map.mp hGlobal
        exact List.mem_append_right _
          (List.mem_map_of_mem (Program.globals_of_mem_allBodies hUser hOther))
      have hDeclTop : Declaration.global decl ∈ topOf program.decls :=
        List.mem_append_right _ (List.mem_map_of_mem (Program.globals_of_mem_allBodies hb hDecl))
      obtain rfl := eq_of_nodup_map hNodup hFoundTop hDeclTop hName
      exact ⟨rfl, rfl⟩

/-- Where no name is misused, variables are read and procedures are called. -/
theorem isVar_of_refersTo (hNamed : program.WellNamed) (hKinds : program.misuses = [])
    (hb : b ∈ program.allBodies) (hd : d ∈ b.declared) (hu : u ∈ program.uses .valueFirst)
    (h : u.refersTo d = true) :
    (u.access = .read → d.isVar = true) ∧ (u.access = .called → d.isProc = true) := by
  obtain ⟨found, hFound, hKey⟩ := Use.exists_of_refersTo h
  obtain ⟨hVar, hProc⟩ := kind_of_key_eq hNamed hb hd hu hFound hKey
  have hNone : u.access.error? u.name found = none := by
    have hUse := (Program.mem_uses_iff program .valueFirst .targetFirst).mp hu
    have hMisuse := List.filterMap_eq_nil_iff.mp hKinds u hUse
    rwa [Use.misuse?, Use.declaration?, hFound, Option.bind_some] at hMisuse
  rw [← hVar, ← hProc]
  refine ⟨fun hAccess => ?_, fun hAccess => ?_⟩
  · by_contra hNot
    simp [hAccess, Access.error?, hNot] at hNone
  · by_contra hNot
    simp [hAccess, Access.error?, hNot] at hNone

/-- When a body ends, what is declared in its scope is marked as used just if a name anywhere in the
program reads or calls it, whichever fits its kind. -/
theorem isUsed_entryAfter (h : program.allBodies = pre ++ b :: post) (hd : d ∈ b.declared)
    (access : Access) (hAccess : access ≠ .assigned)
    (hOnly : ∀ u ∈ program.uses .valueFirst, u.refersTo d = true → u.access ≠ .assigned →
      u.access = access) :
    (entryAfter (usesOf (pre ++ [b])) d).isUsed =
      (program.uses .valueFirst).any fun u => u.access = access && u.refersTo d := by
  have hFresh : d.entry.isUsed = false := by
    rcases Body.mem_declared hd with ⟨p, -, hPlace⟩ | ⟨-, decl, -, rfl⟩
    · rcases d with _ | _ | _ | _
      · cases hPlace
      · cases hPlace
      · rfl
      · rfl
    · cases decl <;> rfl
  have hUses : program.uses .valueFirst = usesOf (pre ++ [b]) ++ usesOf post := by
    rw [Program.uses, h, List.append_cons]
    exact List.flatMap_append
  rw [entryAfter, hFresh, Bool.false_or, Bool.eq_iff_iff, List.any_eq_true, List.any_eq_true]
  simp only [Bool.and_eq_true, decide_eq_true_eq]
  constructor
  · rintro ⟨u, hu, hNe, hRefers⟩
    have hAll : u ∈ program.uses .valueFirst := by
      rw [hUses]
      exact List.mem_append_left _ hu
    exact ⟨u, hAll, hOnly u hAll hRefers hNe, hRefers⟩
  · rintro ⟨u, hu, rfl, hRefers⟩
    rw [hUses] at hu
    rcases List.mem_append.mp hu with hBefore | hLater
    · exact ⟨u, hBefore, hAccess, hRefers⟩
    · rw [refersTo_later h hd hLater] at hRefers
      cases hRefers

/-- A name is swept up if nothing in the whole program uses it: what comes later cannot refer to it.
-/
theorem sweptWarning?_eq_unused? (hNamed : program.WellNamed) (hKinds : program.misuses = [])
    (h : program.allBodies = pre ++ b :: post) (hd : d ∈ b.declared) :
    sweptWarning? (usesOf (pre ++ [b])) d = d.unused? (program.uses .valueFirst) := by
  have hb : b ∈ program.allBodies := by simp [h]
  have hKind := fun u hu => isVar_of_refersTo (u := u) hNamed hKinds hb hd hu
  have hVar (hNotProc : d.isProc = false) := isUsed_entryAfter h hd .read (by decide) <| by
    intro u hu hRefers hNe
    cases hAccess : u.access with
    | read => rfl
    | assigned => exact absurd hAccess hNe
    | called => simp [(hKind u hu hRefers).2 hAccess] at hNotProc
  have hProc (hNotVar : d.isVar = false) := isUsed_entryAfter h hd .called (by decide) <| by
    intro u hu hRefers hNe
    cases hAccess : u.access with
    | read => simp [(hKind u hu hRefers).1 hAccess] at hNotVar
    | assigned => exact absurd hAccess hNe
    | called => rfl
  rcases d with _ | (_ | _) | _ | _
  case builtin => rfl
  case global.proc =>
    rw [sweptWarning?, hProc rfl]
    rfl
  all_goals
    rw [sweptWarning?, hVar rfl]
    rfl

end Whole

/-- Unused names of a body are warned of in the order of the text. -/
theorem Body.pairwise_unused {b : Body}
    (h : b.declared.Pairwise fun d d' => d.span.start < d'.span.start) (uses : List Use) :
    (b.unused uses).Pairwise fun w w' => w.span.start < w'.span.start := by
  have hSpan : ∀ d w, Declaration.unused? uses d = some w → w.span = d.span := by
    intro d w hw
    simp only [Declaration.unused?] at hw
    split at hw
    · cases hw
    all_goals
      split at hw
      · cases hw
      · cases hw
        rfl
  refine h.filterMap _ fun d d' hLess w hw w' hw' => ?_
  rw [hSpan d w hw, hSpan d' w' hw']
  exact hLess

open Usage in
/-- For every text whose program has nothing wrong with its names and their kinds, the walk comes to
its end. At the end of each body it warns about the variables of the procedure that nothing reads,
and at the very end about the global variables that nothing reads and the procedures that nothing
calls, one warning for each and those of a scope in the order of the text. In whatever order a scope
gives its entries, the warnings are the same. -/
theorem usageWarnings_unused (source : String) (hNames : nameErrors (parse source).1 = [])
    (hKinds : (checkKinds (parse source).1).2.reports = []) :
    usageWarnings (parse source).1 = ((parse source).1.usageReport, none) ∧
      (∀ enumerate : State → Bindings Entry, (∀ s, (enumerate s).Perm s.scopes.entries) →
        usageWarningsBy enumerate (parse source).1 = usageWarnings (parse source).1) ∧
      ∀ b ∈ (parse source).1.allBodies,
        (b.unused ((parse source).1.uses .valueFirst)).Pairwise fun w w' =>
          w.span.start < w'.span.start := by
  have hNamed := Program.wellNamed_of_nameErrors hNames
  rw [checkKinds_report hNamed] at hKinds
  have hOrder := fun b hb => pairwise_declared source (b := b) hb
  have hReport : ∀ enumerate : State → Bindings Entry,
      (∀ s, (enumerate s).Perm s.scopes.entries) →
      usageWarningsBy enumerate (parse source).1 = ((parse source).1.usageReport, none) := by
    intro enumerate hPerm
    have hSweeps : ∀ b ∈ (parse source).1.allBodies,
        Sweeps enumerate (fun us b => b.declared.filterMap (sweptWarning? us)) b := by
      intro b hb us s hEntries
      exact unusedWarnings_of_perm (hEntries ▸ hPerm s) (hOrder b hb)
    rw [hNamed.usageWarningsBy_eq hSweeps, Program.usageReport]
    refine congrArg (·, none) (walkWarnings_congr fun pre b post hSplit => ?_)
    exact List.filterMap_congr fun d hd => sweptWarning?_eq_unused? hNamed hKinds hSplit hd
  have hEntries : usageWarnings (parse source).1 = _ := hReport _ fun s => .refl _
  refine ⟨hEntries, fun enumerate hPerm => ?_, fun b hb => Body.pairwise_unused (hOrder b hb) _⟩
  rw [hReport enumerate hPerm, hEntries]

/-- A parameter hides a global variable, a local and a global variable are only assigned, a
procedure calls itself and another is never called; the last declaration is broken. -/
def leftOver : String :=
  "var g: integer; var h: integer; procedure p(a: integer; g: long); var c: integer;
   begin c := g; p(a, 1) end; procedure q; begin end; var 5; begin h := g end."

set_option maxRecDepth 1000 in
theorem leftOver_unused : nameErrors (parse leftOver).1 = [] ∧
    (checkKinds (parse leftOver).1).2.reports = [] ∧ (parse leftOver).2 ≠ [] ∧
    usageWarnings (parse leftOver).1 =
      ([.unusedVariable "c" ⟨70, 71⟩, .uninitializedRead "g" ⟨154, 155⟩,
        .unusedVariable "h" ⟨20, 21⟩, .unusedProcedure "q" ⟨122, 123⟩], none) := by
  have hTest : nameErrors (parse leftOver).1 = [] ∧
      (checkKinds (parse leftOver).1).2.reports = [] ∧ (parse leftOver).2 ≠ [] ∧
      (parse leftOver).1.usageReport =
        [.unusedVariable "c" ⟨70, 71⟩, .uninitializedRead "g" ⟨154, 155⟩,
          .unusedVariable "h" ⟨20, 21⟩, .unusedProcedure "q" ⟨122, 123⟩] := by
    rw [show parse leftOver = _ from parse_ofList _]
    decide +kernel
  obtain ⟨hNames, hKinds, hErrors, hReport⟩ := hTest
  refine ⟨hNames, hKinds, hErrors, ?_⟩
  rw [(usageWarnings_unused leftOver hNames hKinds).1, hReport]

end ChipPascal
