import ChipPascal.Proofs.Referents
import ChipPascal.Proofs.UsageCheck

/-!
# What the walk has on record

The walk keeps an entry for each declaration in force. What the entry says is determined by the
names met so far that refer to the declaration: it is used if one of them reads or calls it, and set
if it was so from the start or one of them assigns it. So the warnings of a walk can be said without
its state.
-/

namespace ChipPascal

/-! ### Reads of what is not set -/

/-- A variable that has no value before the first assignment: a global one or a local of a
procedure, but no parameter. -/
def Declaration.startsUnset : Declaration → Bool
  | builtin _ | global (.proc _) | param .. => false
  | global (.var _) | inner .. => true

namespace Use

def assigns (u : Use) (d : Declaration) : Bool := u.access = .assigned && u.refersTo d

/-- The warning about a read from a variable to which none of the names `before` assigns. -/
def unset? (before : List Use) (u : Use) : Option Warning :=
  u.declaration?.bind fun d =>
    if u.access = .read && d.startsUnset && !before.any (·.assigns d) then
      some (.uninitializedRead u.name.name u.name.span)
    else none

end Use

theorem Use.refersTo_iff {u : Use} {d : Declaration} (hu : u.declaration? = some d)
    (other : Declaration) : u.refersTo other = true ↔ d.key = other.key := by
  simp [Use.refersTo, hu]

theorem Use.exists_of_refersTo {u : Use} {d : Declaration} (h : u.refersTo d = true) :
    ∃ found, u.reach.find? u.name.name = some found ∧ found.key = d.key := by
  obtain ⟨found, hFound⟩ := Option.isSome_iff_exists.mp (Option.isSome_of_any h)
  exact ⟨found, hFound, (Use.refersTo_iff hFound d).mp h⟩

/-- A name refers to a variable of the procedure around it, or there is none of this name and it
refers to something at the top level. -/
theorem Use.refersTo_cases {u : Use} {d : Declaration} (h : u.refersTo d = true) :
    (u.name.name ∈ u.reach.own.map (·.name) ∧ ∃ p, u.reach.proc = some p ∧ d.proc? = some p.1) ∨
      (u.name.name ∉ u.reach.own.map (·.name) ∧ d.proc? = none ∧
        d.name ∈ u.reach.top.map (·.name)) := by
  obtain ⟨found, hFound, hKey⟩ := Use.exists_of_refersTo h
  have hPlace : found.proc? = d.proc? := congrArg Prod.fst hKey
  have hName : found.name = d.name := congrArg Prod.snd hKey
  obtain ⟨hSame, hOwn | ⟨hHidden, hTop⟩⟩ := Reach.find?_cases hFound
  · left
    rw [← hSame, ← hPlace]
    exact ⟨List.mem_map_of_mem hOwn, Reach.proc?_of_mem_own hOwn⟩
  · right
    rw [← hPlace, ← hName]
    exact ⟨hHidden, Reach.proc?_of_mem_top hTop, List.mem_map_of_mem hTop⟩

/-- The warnings about reads among `uses`, where the names `before` were met earlier. -/
def unsetReads (before uses : List Use) : List Warning :=
  flatMapAfter (fun before u => (u.unset? before).toList) before uses

theorem unsetReads_append (before xs ys : List Use) :
    unsetReads before (xs ++ ys) = unsetReads before xs ++ unsetReads (before ++ xs) ys :=
  flatMapAfter_append _ before xs ys

open Usage in
def Declaration.entry : Declaration → Entry
  | builtin _ => ⟨.builtin, .nowhere, true, true⟩
  | global (.var decl) => ⟨.var, decl.name.span, false, false⟩
  | global (.proc decl) => ⟨.proc, decl.name.span, false, true⟩
  | param _ decl => ⟨.var, decl.name.span, false, true⟩
  | inner _ decl => ⟨.var, decl.name.span, false, false⟩

theorem Declaration.isSet_entry (d : Declaration) : d.entry.isSet = !d.startsUnset := by
  rcases d with _ | (_ | _) | _ | _ <;> rfl

namespace Usage

/-! ### Entries -/

def mark : Access → Entry → Entry
  | .assigned => fun entry => { entry with isSet := true }
  | .read | .called => fun entry => { entry with isUsed := true }

def entryAfter (us : List Use) (d : Declaration) : Entry :=
  { d.entry with
    isUsed := d.entry.isUsed || us.any fun u => u.access ≠ .assigned && u.refersTo d
    isSet := d.entry.isSet || us.any (·.assigns d) }

def entriesAfter (us : List Use) (ds : List Declaration) : Bindings Entry :=
  ds.map fun d => (d.name, entryAfter us d)

/-- A use marks the entry of the declaration it refers to. -/
theorem entryAfter_append (us : List Use) (u : Use) (d : Declaration) :
    entryAfter (us ++ [u]) d =
      if u.refersTo d then mark u.access (entryAfter us d) else entryAfter us d := by
  obtain ⟨access, name, reach⟩ := u
  cases access <;> simp only [entryAfter, Use.assigns, List.any_append, List.any_cons, List.any_nil,
    mark] <;> split <;> simp_all

def Unmentioned (us : List Use) (d : Declaration) : Prop := ∀ u ∈ us, u.refersTo d = false

/-- The entry of a name that nothing refers to is as it was declared. -/
theorem Unmentioned.entryAfter {us : List Use} {d : Declaration} (h : Unmentioned us d) :
    entryAfter us d = d.entry := by
  have hUsed : us.any (fun u => u.access ≠ .assigned && u.refersTo d) = false :=
    List.any_eq_false.mpr fun u hu => by simp [h u hu]
  have hSet : us.any (·.assigns d) = false :=
    List.any_eq_false.mpr fun u hu => by simp [Use.assigns, h u hu]
  simp only [Usage.entryAfter, hUsed, hSet, Bool.or_false]

theorem Unmentioned.entriesAfter_append {us : List Use} {ds : List Declaration} {d : Declaration}
    (h : Unmentioned us d) (hFresh : d.name ∉ ds.map (·.name)) :
    (entriesAfter us ds).set d.name d.entry = entriesAfter us (ds ++ [d]) := by
  rw [entriesAfter, Bindings.set_map_of_notMem hFresh, entriesAfter, List.map_append,
    List.map_singleton, h.entryAfter]

section Marks

variable {us : List Use} {u : Use} {d : Declaration} {ds : List Declaration}

/-- The scope of the declaration that a name refers to takes its mark. -/
theorem entriesAfter_mark (hu : u.declaration? = some d) (hd : d ∈ ds)
    (hNodup : (ds.map (·.name)).Nodup) :
    (entriesAfter us ds).set d.name (mark u.access (entryAfter us d)) =
      entriesAfter (us ++ [u]) ds := by
  rw [entriesAfter, Bindings.set_map_of_nodup hNodup (List.mem_map_of_mem hd)]
  refine List.map_congr_left fun other hOther => ?_
  rw [entryAfter_append]
  by_cases hName : other.name = d.name
  · obtain rfl : other = d := eq_of_nodup_map hNodup hOther hd hName
    rw [if_pos rfl, if_pos ((Use.refersTo_iff hu other).mpr rfl)]
  · have hKey : ¬ u.refersTo other = true := fun h =>
      hName (congrArg Prod.snd ((Use.refersTo_iff hu other).mp h)).symm
    rw [if_neg hName, if_neg hKey]

/-- Other scopes do not. -/
theorem entriesAfter_apart (hu : u.declaration? = some d)
    (hPlace : ∀ other ∈ ds, other.proc? ≠ d.proc?) :
    entriesAfter (us ++ [u]) ds = entriesAfter us ds := by
  refine List.map_congr_left fun other hOther => ?_
  have hKey : ¬ u.refersTo other = true := fun h =>
    hPlace other hOther (congrArg Prod.fst ((Use.refersTo_iff hu other).mp h)).symm
  rw [entryAfter_append, if_neg hKey]

end Marks

/-! ### States of the walk -/

variable {α β : Type} {us : List Use} {ws : List Warning}

structure OnTop (ds : List Declaration) (us : List Use) (ws : List Warning) (s : State) :
    Prop where
  scopes : s.scopes.AtTop (entriesAfter us ds)
  warnings : s.warnings.toList = ws

structure InProc (ds own : List Declaration) (us : List Use) (ws : List Warning) (s : State) :
    Prop where
  scopes : s.scopes.Inside (entriesAfter us ds) (entriesAfter us own)
  warnings : s.warnings.toList = ws

/-- In a body with this reach, the names `us` were met and led to the warnings `ws`. -/
def Tracks (r : Reach) (us : List Use) (ws : List Warning) : State → Prop :=
  match r.proc with
  | none => OnTop r.top us ws
  | some _ => InProc r.top r.own us ws

theorem Tracks.warnings {r : Reach} {s : State} (h : Tracks r us ws s) :
    s.warnings.toList = ws := by
  obtain ⟨globals, _ | p⟩ := r
  · exact OnTop.warnings h
  · exact InProc.warnings h

section Access

variable {r : Reach} {s : State} {name : Ident} {d : Declaration}

theorem get?_entriesAfter (us : List Use) {ds : List Declaration} (hNodup : (ds.map (·.name)).Nodup)
    (hd : d ∈ ds) : (entriesAfter us ds).get? d.name = some (entryAfter us d) := by
  rw [entriesAfter, get?_map, find?_of_nodup hNodup hd, Option.map_some]

theorem get?_entriesAfter_eq_none (us : List Use) {ds : List Declaration} {name : String}
    (h : name ∉ ds.map (·.name)) : (entriesAfter us ds).get? name = none := by
  rw [entriesAfter, get?_map, Option.map_eq_none_iff, List.find?_eq_none]
  intro d hd hName
  exact h (List.mem_map.mpr ⟨d, hd, of_decide_eq_true hName⟩)

/-- An access at the top level. -/
theorem OnTop.access {u : Use} (hs : OnTop r.top us ws s) (hr : r.WellNamed)
    (hu : u.declaration? = some d) (hName : d.name = u.name.name) (hd : d ∈ r.top) :
    ∃ s', update u.name (mark u.access) s = .ok (mark u.access (entryAfter us d)) s' ∧
      OnTop r.top (us ++ [u]) ws s' := by
  have hEntry := get?_entriesAfter us hr.top hd
  have hGet : s.scopes.get? u.name.name = some (entryAfter us d) := by
    rw [hs.scopes.get?, ← hName, hEntry]
  refine ⟨_, update_eq hGet _, ?_, hs.warnings⟩
  rw [← entriesAfter_mark hu hd hr.top, ← hName]
  exact hs.scopes.set (by rw [hEntry]; rfl) _

/-- An access in a procedure changes the entry of a variable of the procedure, or the one of
something at the top level that no variable hides. -/
theorem InProc.access {u : Use} {p : Nat × ProcDecl} (hp : r.proc = some p)
    (hs : InProc r.top r.own us ws s) (hr : r.WellNamed) (hu : u.declaration? = some d)
    (hFind : r.find? u.name.name = some d) :
    ∃ s', update u.name (mark u.access) s = .ok (mark u.access (entryAfter us d)) s' ∧
      InProc r.top r.own (us ++ [u]) ws s' := by
  have hTopPlace : ∀ other ∈ r.top, other.proc? = none := fun _ => Reach.proc?_of_mem_top
  have hOwnPlace : ∀ other ∈ r.own, other.proc? = some p.1 := fun other hOther => by
    obtain ⟨q, hq, hPlace⟩ := Reach.proc?_of_mem_own hOther
    rw [hp, Option.some.injEq] at hq
    rw [hPlace, hq]
  obtain ⟨hName, hOwn | ⟨hHidden, hTop⟩⟩ := Reach.find?_cases hFind
  · have hEntry := get?_entriesAfter us hr.own hOwn
    have hGet : s.scopes.get? u.name.name = some (entryAfter us d) := by
      rw [hs.scopes.get?, ← hName, hEntry, Option.some_or]
    refine ⟨_, update_eq hGet _, ?_, hs.warnings⟩
    have hApart : ∀ other ∈ r.top, other.proc? ≠ d.proc? := fun other hOther => by
      rw [hTopPlace other hOther, hOwnPlace d hOwn]
      simp
    rw [entriesAfter_apart hu hApart, ← entriesAfter_mark hu hOwn hr.own, ← hName]
    exact hs.scopes.set_here (by rw [hEntry]; rfl) _
  · have hEntry := get?_entriesAfter us hr.top hTop
    have hNone := get?_entriesAfter_eq_none us hHidden
    have hGet : s.scopes.get? u.name.name = some (entryAfter us d) := by
      rw [hs.scopes.get?, hNone, ← hName, hEntry, Option.none_or]
    refine ⟨_, update_eq hGet _, ?_, hs.warnings⟩
    have hApart : ∀ other ∈ r.own, other.proc? ≠ d.proc? := fun other hOther => by
      rw [hOwnPlace other hOther, hTopPlace d hTop]
      simp
    rw [entriesAfter_apart hu hApart, ← entriesAfter_mark hu hTop hr.top, ← hName]
    rw [← hName] at hNone
    exact hs.scopes.set_top (by rw [hNone]; simp) (by rw [hEntry]; rfl) _

/-- A use that is walked over marks its declaration in the table. -/
theorem Tracks.access (hs : Tracks r us ws s) (hr : r.WellNamed)
    (hd : r.find? name.name = some d) (access : Access) :
    ∃ s', update name (mark access) s = .ok (mark access (entryAfter us d)) s' ∧
      Tracks r (us ++ r.uses [(access, name)]) ws s' := by
  obtain ⟨globals, _ | p⟩ := r
  · obtain ⟨hName, hOwn | ⟨-, hTop⟩⟩ := Reach.find?_cases hd
    · cases hOwn
    · exact OnTop.access (u := ⟨access, name, _⟩) hs hr hd hName hTop
  · exact InProc.access (u := ⟨access, name, _⟩) rfl hs hr hd hd

end Access

/-! ### Bodies -/

theorem unsetReads_singleton (before : List Use) (u : Use) :
    unsetReads before [u] = (u.unset? before).toList :=
  List.append_nil _

/-- Over a part of a body with these names, the walk puts them on record and warns about the reads
among them. -/
def Records (r : Reach) (accesses : List (Access × Ident)) (x : Walk α) : Prop :=
  ∀ us ws, Passes (Tracks r us ws)
    (Tracks r (us ++ r.uses accesses) (ws ++ unsetReads us (r.uses accesses))) x

section Records

variable {r : Reach}

theorem records_pure (a : α) : Records r [] (pure a) := by
  intro us ws
  simp only [Reach.uses, List.map_nil, unsetReads, flatMapAfter, List.append_nil]
  exact passes_pure a

theorem Records.bind {xs ys : List (Access × Ident)} {x : Walk α} {f : α → Walk β}
    (hx : Records r xs x) (hf : ∀ a, Records r ys (f a)) : Records r (xs ++ ys) (x >>= f) := by
  intro us ws
  rw [Reach.uses_append, unsetReads_append, ← List.append_assoc, ← List.append_assoc]
  exact (hx us ws).bind fun a => hf a _ _

theorem records_update (hr : r.WellNamed) {name : Ident} (hName : r.Sees name.name)
    (access : Access) (hAccess : access ≠ .read) :
    Records r [(access, name)] (update name (mark access)) := by
  intro us ws s hs
  obtain ⟨d, hd⟩ := Option.isSome_iff_exists.mp hName
  obtain ⟨s', hRun, hs'⟩ := hs.access hr hd access
  have hQuiet : unsetReads us (r.uses [(access, name)]) = [] := by
    simp [Reach.uses, unsetReads_singleton, Use.unset?, Use.declaration?, hd, hAccess]
  rw [hQuiet, List.append_nil]
  exact ⟨_, s', hRun, hs'⟩

theorem Tracks.addWarnings {us : List Use} {s : State} (hs : Tracks r us ws s)
    {more : Array Warning} {new : List Warning} (hMore : more.toList = s.warnings.toList ++ new) :
    Tracks r us (ws ++ new) { s with warnings := more } := by
  rw [hs.warnings] at hMore
  obtain ⟨globals, _ | p⟩ := r
  · have hTop : OnTop _ us ws s := hs
    exact ⟨hTop.scopes, hMore⟩
  · have hProc : InProc _ _ us ws s := hs
    exact ⟨hProc.scopes, hMore⟩

/-- A read is warned of if nothing has set the name before. -/
theorem records_walkRead (hr : r.WellNamed) {name : Ident} (hName : r.Sees name.name) :
    Records r [(.read, name)] (walkRead name) := by
  intro us ws s hs
  obtain ⟨d, hd⟩ := Option.isSome_iff_exists.mp hName
  obtain ⟨s', hRun, hs'⟩ := hs.access hr hd .read
  have hIsSet : (mark .read (entryAfter us d)).isSet =
      (!d.startsUnset || us.any (·.assigns d)) := by
    rw [← d.isSet_entry]
    rfl
  have hWalk : walkRead name s = (if !(mark .read (entryAfter us d)).isSet then
      Usage.warn (.uninitializedRead name.name name.span) else pure ()) s' := by
    show EStateM.bind (update name (mark .read)) _ s = _
    simp only [EStateM.bind, hRun]
  have hReads : unsetReads us (r.uses [(.read, name)]) =
      if !(mark .read (entryAfter us d)).isSet then [.uninitializedRead name.name name.span]
      else [] := by
    simp only [Reach.uses, List.map_cons, List.map_nil, unsetReads_singleton, Use.unset?,
      Use.declaration?, hd, Option.bind_some, hIsSet, Bool.not_or, Bool.not_not, decide_true,
      Bool.true_and]
    split <;> rfl
  rw [hWalk, hReads]
  split
  · exact ⟨(), _, rfl, hs'.addWarnings Array.toList_push⟩
  · rw [List.append_nil]
    exact ⟨(), s', rfl, hs'⟩

theorem records_walkExpr (hr : r.WellNamed) {e : Expr} (h : e.Reads r.Sees) :
    Records r e.accesses (walkExpr e) := by
  induction e with
  | ref name => exact records_walkRead hr h
  | int text span => exact records_pure ()
  | unary op operand span ih => exact ih h
  | binary op left right span ihl ihr =>
    have hAccesses : (Expr.binary op left right span).accesses = left.accesses ++ right.accesses :=
      List.map_append
    rw [hAccesses]
    exact (ihl h.1).bind fun _ => ihr h.2

theorem records_walkExprs (hr : r.WellNamed) {es : List Expr} (h : ∀ e ∈ es, e.Reads r.Sees) :
    Records r (es.flatMap (·.accesses)) (walkExprs es) := by
  induction es with
  | nil => exact records_pure ()
  | cons e es ih =>
    have hHead := records_walkExpr hr (h e List.mem_cons_self)
    have hRest := ih fun e' he' => h e' (List.mem_cons_of_mem e he')
    exact hHead.bind fun _ => hRest

mutual

/-- A statement is walked in the order of the text, but for an assignment: its value comes before
its target. -/
theorem records_walkStmt (hr : r.WellNamed) (stmt : Stmt) (h : stmt.Uses r.Sees r.Sees r.Sees) :
    Records r (stmt.accesses .valueFirst) (walkStmt stmt) := by
  cases stmt with
  | block stmts span => exact records_walkStmts hr stmts h
  | assign target value =>
    have hTarget := (records_update hr h.1 .assigned (by decide)).bind fun _ =>
      records_pure ()
    exact (records_walkExpr hr h.2).bind fun _ => hTarget
  | call name args =>
    have hName := records_update hr h.1 .called (by decide)
    exact hName.bind fun _ => records_walkExprs hr h.2
  | ifThen cond yes span =>
    exact (records_walkExpr hr h.1).bind fun _ => records_walkStmt hr yes h.2
  | ifElse cond yes no span =>
    exact (records_walkExpr hr h.1).bind fun _ => (records_walkStmt hr yes h.2.1).bind fun _ =>
      records_walkStmt hr no h.2.2

theorem records_walkStmts (hr : r.WellNamed) (stmts : List Stmt)
    (h : StmtsUse r.Sees r.Sees r.Sees stmts) :
    Records r (accessesOfStmts .valueFirst stmts) (walkStmts stmts) := by
  cases stmts with
  | nil => exact records_pure ()
  | cons stmt stmts =>
    exact (records_walkStmt hr stmt h.1).bind fun _ => records_walkStmts hr stmts h.2

end

end Records

end Usage

def Body.scope (b : Body) : List Declaration :=
  match b.reach.proc with
  | some _ => b.reach.own
  | none => b.reach.top

namespace Usage

variable {r : Reach} {us : List Use} {ws : List Warning} {enumerate : State → Bindings Entry}
  {swept : List Use → Body → List Warning} {b : Body} {before decls : List Decl}

theorem Tracks.entries {s : State} (hs : Tracks b.reach us ws s) :
    s.scopes.entries = entriesAfter us b.scope := by
  obtain ⟨⟨globals, _ | p⟩, stmts⟩ := b
  · exact (OnTop.scopes hs).entries
  · exact (InProc.scopes hs).entries

/-- After the names `us`, a sweep at the end of the body gives the warnings `swept us b`. -/
def Sweeps (enumerate : State → Bindings Entry) (swept : List Use → Body → List Warning)
    (b : Body) : Prop :=
  ∀ us s, s.scopes.entries = entriesAfter us b.scope → unusedWarnings (enumerate s) = swept us b

def bodyWarnings (swept : List Use → Body → List Warning) (us : List Use) (b : Body) :
    List Warning :=
  unsetReads us (b.uses .valueFirst) ++ swept (us ++ b.uses .valueFirst) b

/-- Walking a body adds its uses to those before, and warns of its reads. -/
theorem passes_body (hb : b.WellNamed) :
    Passes (Tracks b.reach us ws)
      (Tracks b.reach (us ++ b.uses .valueFirst) (ws ++ unsetReads us (b.uses .valueFirst)))
      (walkStmts b.stmts) :=
  records_walkStmts hb.reach b.stmts hb.stmts us ws

theorem Sweeps.passes (h : Sweeps enumerate swept b) :
    Passes
      (Tracks b.reach (us ++ b.uses .valueFirst) (ws ++ unsetReads us (b.uses .valueFirst)))
      (Tracks b.reach (us ++ b.uses .valueFirst) (ws ++ bodyWarnings swept us b))
      (sweepBy enumerate) := by
  refine passes_modify fun s hs => ?_
  rw [bodyWarnings, ← List.append_assoc, ← h _ s hs.entries]
  exact hs.addWarnings Array.toList_append

/-! ### Declarations -/

def topOf (decls : List Decl) : List Declaration := Reach.top ⟨decls, none⟩

theorem topOf_append (decls : List Decl) (decl : Decl) :
    topOf (decls ++ [decl]) = topOf decls ++ [.global decl] := by
  simp [topOf, Reach.top]

theorem OnTop.declare {d : Declaration} {ds : List Declaration} {name : Ident} {kind : EntryKind}
    {isSet : Bool} (hName : d.name = name.name) (hEntry : d.entry = ⟨kind, name.span, false, isSet⟩)
    (hFresh : d.name ∉ ds.map (·.name)) (hd : Unmentioned us d) :
    Passes (OnTop ds us ws) (OnTop (ds ++ [d]) us ws) (declare name kind isSet) := by
  refine passes_modify fun s hs => ⟨?_, hs.warnings⟩
  rw [← hd.entriesAfter_append hFresh, hEntry, ← hName]
  exact hs.scopes.define _ _

theorem InProc.declare {d : Declaration} {ds own : List Declaration} {name : Ident}
    {kind : EntryKind} {isSet : Bool} (hName : d.name = name.name)
    (hEntry : d.entry = ⟨kind, name.span, false, isSet⟩) (hFresh : d.name ∉ own.map (·.name))
    (hd : Unmentioned us d) :
    Passes (InProc ds own us ws) (InProc ds (own ++ [d]) us ws) (declare name kind isSet) := by
  refine passes_modify fun s hs => ⟨?_, hs.warnings⟩
  rw [← hd.entriesAfter_append hFresh, hEntry, ← hName]
  exact hs.scopes.define _ _

/-- Variables of a procedure enter the table one by one, unused. -/
theorem InProc.declareAll {ds own : List Declaration} {isSet : Bool}
    {make : VarDecl → Declaration} (hName : ∀ decl, (make decl).name = decl.name.name)
    (hEntry : ∀ decl, (make decl).entry = ⟨.var, decl.name.span, false, isSet⟩)
    (vars : List VarDecl) (hFresh : ((own ++ vars.map make).map (·.name)).Nodup)
    (hVars : ∀ decl ∈ vars, Unmentioned us (make decl)) :
    Passes (InProc ds own us ws) (InProc ds (own ++ vars.map make) us ws)
      (declareAll vars isSet) := by
  induction vars generalizing own with
  | nil =>
    rw [List.map_nil, List.append_nil]
    exact passes_pure ()
  | cons decl vars ih =>
    have hSplit : own ++ (decl :: vars).map make = (own ++ [make decl]) ++ vars.map make := by simp
    rw [hSplit] at hFresh ⊢
    have hNew : (make decl).name ∉ own.map (·.name) := by
      rw [List.map_append, List.map_append, List.append_assoc] at hFresh
      intro hMem
      exact (List.nodup_append.mp hFresh).2.2 _ hMem _ (by simp) rfl
    have hHead : Passes (InProc ds own us ws) (InProc ds (own ++ [make decl]) us ws)
        (Usage.declare decl.name .var isSet) :=
      InProc.declare (hName decl) (hEntry decl) hNew (hVars decl List.mem_cons_self)
    exact hHead.bind fun _ => ih hFresh fun other hOther =>
      hVars other (List.mem_cons_of_mem decl hOther)

theorem fresh_topOf {decl : Decl} (h : NamedDecls builtinNames (before ++ [decl])) :
    decl.name ∉ (topOf before).map (·.name) := by
  have hNodup := nodup_top h
  rw [List.map_append, ← List.append_assoc] at hNodup
  rw [topOf, Reach.map_name_top]
  intro hMem
  exact (List.nodup_append.mp hNodup).2.2 _ hMem _ List.mem_cons_self rfl

structure Past (decls : List Decl) (r : Reach) : Prop where
  globals : ∀ decl ∈ r.globals, decl ∈ decls
  proc : ∀ p, r.proc = some p → p.1 < decls.length

theorem Past.append {more : List Decl} (h : Past decls r) : Past (decls ++ more) r := by
  refine ⟨fun decl hDecl => List.mem_append_left more (h.globals decl hDecl), fun p hp => ?_⟩
  have := h.proc p hp
  rw [List.length_append]
  omega

theorem Past.top {name : String} (h : Past decls r) (hName : name ∈ r.top.map (·.name)) :
    name ∈ (topOf decls).map (·.name) := by
  rw [Reach.map_name_top, List.mem_append] at hName
  rw [topOf, Reach.map_name_top, List.mem_append]
  refine hName.imp_right fun hGlobal => ?_
  obtain ⟨decl, hDecl, rfl⟩ := List.mem_map.mp hGlobal
  exact List.mem_map_of_mem (h.globals decl hDecl)

/-- Nothing before a declaration refers to it. -/
theorem unmentioned_global {decl : Decl} (hUs : ∀ u ∈ us, Past decls u.reach)
    (hFresh : decl.name ∉ (topOf decls).map (·.name)) : Unmentioned us (.global decl) := by
  intro u hu
  rw [Bool.eq_false_iff]
  intro hRefers
  obtain ⟨-, p, -, hPlace⟩ | ⟨-, -, hTop⟩ := Use.refersTo_cases hRefers
  · cases hPlace
  · exact hFresh ((hUs u hu).top hTop)

theorem unmentioned_own {d : Declaration} (hUs : ∀ u ∈ us, Past decls u.reach)
    (hd : d.proc? = some decls.length) : Unmentioned us d := by
  intro u hu
  rw [Bool.eq_false_iff]
  intro hRefers
  obtain ⟨-, p, hp, hPlace⟩ | ⟨-, hPlace, -⟩ := Use.refersTo_cases hRefers
  · have hLt := (hUs u hu).proc p hp
    rw [hd, Option.some.injEq] at hPlace
    omega
  · rw [hd] at hPlace
    cases hPlace

section Procedures

variable {proc : ProcDecl}

/-- The walk of a procedure starts with its variables in the table. -/
theorem passes_declareVars (hUs : ∀ u ∈ us, Past before u.reach)
    (hBody : (proc.toBody before).WellNamed) {ds : List Declaration} {x : Walk Unit}
    {J : State → Prop} (hx : Passes (InProc ds (proc.declarations before.length) us ws) J x) :
    Passes (InProc ds [] us ws) J (do
      declareAll proc.params true
      declareAll proc.locals false
      x) := by
  have hOwn : ∀ d ∈ proc.declarations before.length, Unmentioned us d := fun d hd =>
    unmentioned_own hUs (ProcDecl.proc?_of_mem_declarations hd)
  have hNodup : ((proc.declarations before.length).map (·.name)).Nodup := hBody.reach.own
  rw [ProcDecl.declarations] at hNodup hOwn
  have hFirst : ((proc.params.map (Declaration.param before.length)).map (·.name)).Nodup := by
    rw [List.map_append] at hNodup
    exact (List.nodup_append.mp hNodup).1
  have hParams : Passes (InProc ds [] us ws)
      (InProc ds (proc.params.map (.param before.length)) us ws) (declareAll proc.params true) :=
    InProc.declareAll (fun _ => rfl) (fun _ => rfl) proc.params hFirst
      fun decl hDecl => hOwn _ (List.mem_append_left _ (List.mem_map_of_mem hDecl))
  have hLocals : Passes (InProc ds (proc.params.map (.param before.length)) us ws)
      (InProc ds (proc.declarations before.length) us ws) (declareAll proc.locals false) :=
    InProc.declareAll (fun _ => rfl) (fun _ => rfl) proc.locals hNodup
      fun decl hDecl => hOwn _ (List.mem_append_right _ (List.mem_map_of_mem hDecl))
  exact hParams.bind fun _ => hLocals.bind fun _ => hx

theorem Tracks.leave {s : State} (hs : Tracks (proc.toBody before).reach us ws s) :
    OnTop (topOf (before ++ [.proc proc])) us ws { s with scopes := s.scopes.enter 0 } := by
  have hProc : InProc _ _ us ws s := hs
  exact ⟨hProc.scopes.enter, hProc.warnings⟩

/-- A procedure is declared at the top level, and its variables in a scope of their own, to which
its body belongs. -/
theorem passes_walkProcBy (hUs : ∀ u ∈ us, Past before u.reach)
    (hNamed : NamedDecls builtinNames (before ++ [.proc proc]))
    (hSweep : Sweeps enumerate swept (proc.toBody before)) :
    Passes (OnTop (topOf before) us ws)
      (OnTop (topOf (before ++ [.proc proc])) (us ++ (proc.toBody before).uses .valueFirst)
        (ws ++ bodyWarnings swept us (proc.toBody before)))
      (walkProcBy enumerate proc) := by
  have hBody := ProcDecl.wellNamed_toBody hNamed
  have hFresh := fresh_topOf hNamed
  have hDeclare : Passes (OnTop (topOf before) us ws) (OnTop (topOf (before ++ [.proc proc])) us ws)
      (declare proc.name .proc true) := by
    rw [topOf_append]
    exact OnTop.declare rfl rfl hFresh (unmentioned_global hUs hFresh)
  refine hDeclare.bind fun _ => passes_get fun s hs => ?_
  -- the scope to come back to is the global one
  rw [hs.scopes.active]
  have hOpen : Passes (OnTop (topOf (before ++ [.proc proc])) us ws)
      (InProc (topOf (before ++ [.proc proc])) [] us ws)
      (modify fun s => { s with scopes := s.scopes.openLocal }) :=
    passes_modify fun s hs => ⟨hs.scopes.openLocal, hs.warnings⟩
  refine hOpen.bind fun _ => passes_declareVars hUs hBody ?_
  exact (passes_body hBody).bind fun _ => hSweep.passes.bind fun _ =>
    passes_modify fun s hs => hs.leave

end Procedures

/-! ### The whole walk -/

def usesOf (bodies : List Body) : List Use := bodies.flatMap (·.uses .valueFirst)

def walkWarnings (swept : List Use → Body → List Warning) (done bodies : List Body) :
    List Warning :=
  flatMapAfter (fun done b => bodyWarnings swept (usesOf done) b) done bodies

theorem usesOf_snoc (done : List Body) (b : Body) :
    usesOf (done ++ [b]) = usesOf done ++ b.uses .valueFirst := by
  simp [usesOf]

theorem walkWarnings_append (done xs ys : List Body) :
    walkWarnings swept done (xs ++ ys) =
      walkWarnings swept done xs ++ walkWarnings swept (done ++ xs) ys :=
  flatMapAfter_append _ done xs ys

theorem walkWarnings_singleton (done : List Body) (b : Body) :
    walkWarnings swept done [b] = bodyWarnings swept (usesOf done) b :=
  List.append_nil _

theorem exists_of_mem_usesOf {bodies : List Body} {u : Use} (h : u ∈ usesOf bodies) :
    ∃ b ∈ bodies, u.reach = b.reach := by
  obtain ⟨b, hb, hUse⟩ := List.mem_flatMap.mp h
  obtain ⟨access, -, rfl⟩ := List.mem_map.mp hUse
  exact ⟨b, hb, rfl⟩

theorem past_usesOf {done : List Body} (h : ∀ b ∈ done, Past decls b.reach) :
    ∀ u ∈ usesOf done, Past decls u.reach := by
  intro u hu
  obtain ⟨b, hb, hReach⟩ := exists_of_mem_usesOf hu
  rw [hReach]
  exact h b hb

theorem past_toBody (before : List Decl) (proc : ProcDecl) :
    Past (before ++ [.proc proc]) (proc.toBody before).reach := by
  refine ⟨fun decl hDecl => hDecl, fun p hp => ?_⟩
  cases hp
  simp

/-- What is on record at the top level after these declarations, and the warnings about the bodies
among them. -/
theorem passes_walkDeclsBy {done : List Body} (hDone : ∀ b ∈ done, Past before b.reach)
    (hNamed : NamedDecls builtinNames (before ++ decls))
    (hSweep : ∀ b ∈ flatMapAfter (fun before decl => decl.bodies before) before decls,
      Sweeps enumerate swept b) :
    Passes (OnTop (topOf before) (usesOf done) ws)
      (OnTop (topOf (before ++ decls))
        (usesOf (done ++ flatMapAfter (fun before decl => decl.bodies before) before decls))
        (ws ++ walkWarnings swept done
          (flatMapAfter (fun before decl => decl.bodies before) before decls)))
      (walkDeclsBy enumerate decls) := by
  induction decls generalizing before done ws with
  | nil =>
    simp only [flatMapAfter, walkWarnings, List.append_nil]
    exact passes_pure ()
  | cons decl decls ih =>
    have hSplit : before ++ decl :: decls = (before ++ [decl]) ++ decls := by simp
    rw [hSplit] at hNamed ⊢
    have hHead := (NamedDecls.append.mp hNamed).1
    have hUs := past_usesOf hDone
    rw [flatMapAfter] at hSweep ⊢
    cases decl with
    | var decl =>
      have hFresh := fresh_topOf hHead
      have hDeclare : Passes (OnTop (topOf before) (usesOf done) ws)
          (OnTop (topOf (before ++ [.var decl])) (usesOf done) ws)
          (declare decl.name .var false) := by
        rw [topOf_append]
        exact OnTop.declare rfl rfl hFresh (unmentioned_global hUs hFresh)
      exact hDeclare.bind fun _ => ih (fun b hb => (hDone b hb).append) hNamed hSweep
    | proc proc =>
      have hBody := hSweep _ (List.mem_append_left _ List.mem_cons_self)
      have hDone' : ∀ b ∈ done ++ [proc.toBody before], Past (before ++ [.proc proc]) b.reach := by
        intro b hb
        rcases List.mem_append.mp hb with hOld | hNew
        · exact (hDone b hOld).append
        · obtain rfl := List.mem_singleton.mp hNew
          exact past_toBody before proc
      have hRest : Passes
          (OnTop (topOf (before ++ [.proc proc])) (usesOf (done ++ [proc.toBody before]))
            (ws ++ bodyWarnings swept (usesOf done) (proc.toBody before))) _
          (walkDeclsBy enumerate decls) :=
        ih hDone' hNamed fun b hb => hSweep b (List.mem_append_right _ hb)
      have hBodies : Decl.bodies before (.proc proc) = [proc.toBody before] := rfl
      rw [usesOf_snoc] at hRest
      rw [hBodies, ← List.append_assoc done, walkWarnings_append, walkWarnings_singleton,
        ← List.append_assoc ws]
      exact (passes_walkProcBy hUs hHead hBody).bind fun _ => hRest

theorem onTop_initial : OnTop (topOf []) [] [] initial := by
  refine ⟨?_, rfl⟩
  have hEntries : entriesAfter [] (topOf []) =
      Builtin.all.map fun b => (b.name, (⟨.builtin, .nowhere, true, true⟩ : Entry)) := by
    simp [entriesAfter, topOf, Reach.top, Declaration.name, entryAfter, Declaration.entry,
      Function.comp_def]
  rw [hEntries]
  exact Scopes.atTop_withBuiltins fun _ => (⟨.builtin, .nowhere, true, true⟩ : Entry)

end Usage

open Usage

/-- In a well-named program the warnings are those about its bodies, one after the other. -/
theorem Program.WellNamed.usageWarningsBy_eq {program : Program} (h : program.WellNamed)
    {enumerate : State → Bindings Entry} {swept : List Use → Body → List Warning}
    (hSweep : ∀ b ∈ program.allBodies, Sweeps enumerate swept b) :
    usageWarningsBy enumerate program = (walkWarnings swept [] program.allBodies, none) := by
  have hDecls : Passes (OnTop (topOf []) (usesOf []) []) _
      (walkDeclsBy enumerate program.decls) :=
    passes_walkDeclsBy (by simp) h.decls fun b hb => hSweep b (List.mem_append_left _ hb)
  have hMain := hSweep program.mainBody (List.mem_append_right _ List.mem_cons_self)
  have hRun : Passes _ _ (walkProgramBy enumerate program) :=
    hDecls.bind fun _ => (passes_body h.mainBody).bind fun _ => hMain.passes
  obtain ⟨a, s, hOk, hs⟩ := hRun initial onTop_initial
  rw [usageWarningsBy, EStateM.run, hOk, Program.allBodies, walkWarnings_append,
    walkWarnings_singleton]
  exact congrArg (·, none) hs.warnings

/-- The warnings of a program are those of its bodies, one after the other. -/
theorem Program.WellNamed.usageWarnings_eq {program : Program} (h : program.WellNamed) :
    usageWarnings program =
      (walkWarnings (fun us b => unusedWarnings (entriesAfter us b.scope)) [] program.allBodies,
        none) := by
  rw [usageWarnings]
  exact h.usageWarningsBy_eq fun b _ us s hEntries => congrArg unusedWarnings hEntries

/-- In a well-named program the walk comes to its end. -/
theorem Program.WellNamed.usageWarnings_fault {program : Program} (h : program.WellNamed) :
    (usageWarnings program).2 = none := by
  rw [h.usageWarnings_eq]

end ChipPascal
