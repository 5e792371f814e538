import ChipPascal.Proofs.ParserProgress

/-!
# Places in a tree

The outline of a tree keeps its places: the tokens of its names and literals, in order, and for each
node with a span of its own the spans of all that is below it. What is read between two cursors
takes its leaves from the tokens between them, and its spans lie behind the token read last before
and reach no further than the token read last. Errors do not change that: recovery drops tokens, but
it never goes back.
-/

namespace ChipPascal

/-! ### Spans of a text -/

/-- A character begins at this byte, or the text ends there. -/
def IsBoundary (source : String) (offset : Nat) : Prop :=
  ∃ before, before <+: source.toList ∧ offset = byteLength before

theorem IsBoundary.le {source : String} {offset : Nat} (h : IsBoundary source offset) :
    offset ≤ source.utf8ByteSize := by
  obtain ⟨before, ⟨after, hText⟩, rfl⟩ := h
  rw [← byteLength_toList, ← hText, byteLength_append]
  exact Nat.le_add_right _ _

namespace Span

/-- The ends are in order, inside the text and between characters. -/
structure WellFormed (source : String) (s : Span) : Prop where
  ordered : s.start ≤ s.stop
  inside : s.stop ≤ source.utf8ByteSize
  start : IsBoundary source s.start
  stop : IsBoundary source s.stop

def Contains (a b : Span) : Prop := a.start ≤ b.start ∧ b.stop ≤ a.stop

variable {source : String} {a b c : Span}

theorem wellFormed_of_boundaries (hle : a.start ≤ a.stop) (hStart : IsBoundary source a.start)
    (hStop : IsBoundary source a.stop) : a.WellFormed source :=
  ⟨hle, hStop.le, hStart, hStop⟩

/-- A span that covers two well formed ones is well formed. -/
theorem WellFormed.cover (ha : a.WellFormed source) (hb : b.WellFormed source) :
    (a.cover b).WellFormed source := by
  refine wellFormed_of_boundaries ?_ ?_ ?_
  · exact Nat.le_trans (Nat.min_le_left _ _) (Nat.le_trans ha.ordered (Nat.le_max_left _ _))
  · rcases Nat.le_total a.start b.start with h | h
    · simpa [Nat.min_eq_left h] using ha.start
    · simpa [Nat.min_eq_right h] using hb.start
  · rcases Nat.le_total a.stop b.stop with h | h
    · simpa [Nat.max_eq_right h] using hb.stop
    · simpa [Nat.max_eq_left h] using ha.stop

theorem wellFormed_mark (source : String) :
    WellFormed source ⟨source.utf8ByteSize, source.utf8ByteSize⟩ := by
  have hEnd : IsBoundary source source.utf8ByteSize :=
    ⟨source.toList, List.prefix_refl _, (byteLength_toList source).symm⟩
  exact wellFormed_of_boundaries (Nat.le_refl _) hEnd hEnd

theorem wellFormed_nowhere (source : String) : WellFormed source .nowhere := by
  have hStart : IsBoundary source 0 := ⟨[], List.nil_prefix, rfl⟩
  exact wellFormed_of_boundaries (Nat.le_refl _) hStart hStart

theorem contains_refl (a : Span) : a.Contains a := ⟨Nat.le_refl _, Nat.le_refl _⟩

theorem Contains.cover_left (h : a.Contains c) (b : Span) : (a.cover b).Contains c :=
  ⟨Nat.le_trans (Nat.min_le_left _ _) h.1, Nat.le_trans h.2 (Nat.le_max_left _ _)⟩

theorem Contains.cover_right (h : b.Contains c) (a : Span) : (a.cover b).Contains c :=
  ⟨Nat.le_trans (Nat.min_le_right _ _) h.1, Nat.le_trans h.2 (Nat.le_max_right _ _)⟩

end Span

/-- A piece of the text has a well formed span. -/
theorem StandsAt.wellFormed {source : String} {span : Span} {text rest : List Char}
    (h : StandsAt source.toList span text rest) : span.WellFormed source := by
  obtain ⟨before, hText, rfl⟩ := h
  refine Span.wellFormed_of_boundaries (Nat.le_add_right _ _) ?_ ?_
  · exact ⟨before, ⟨text ++ rest, hText.symm⟩, rfl⟩
  · exact ⟨before ++ text, ⟨rest, by rw [hText, List.append_assoc]⟩, (byteLength_append _ _).symm⟩

theorem wellFormed_of_mem_tokenize {source : String} {t : Token} (h : t ∈ (tokenize source).list) :
    t.span.WellFormed source := by
  obtain ⟨-, rest, hStands, -⟩ := stands_of_mem_tokenize h
  exact hStands.wellFormed

/-! ### Outlines -/

structure Outline where
  /-- The tokens of the names and literals, in order. -/
  leaves : List Token
  /-- The spans of the other nodes, each with the spans of all that is below the node. -/
  nodes : List (Span × List Span)

namespace Outline

def spans (o : Outline) : List Span := o.leaves.map (·.span) ++ o.nodes.map (·.1)

def Nested (o : Outline) : Prop := ∀ node ∈ o.nodes, ∀ span ∈ node.2, node.1.Contains span

def empty : Outline := ⟨[], []⟩

def leaf (t : Token) : Outline := ⟨[t], []⟩

/-- One tree and behind it another. -/
instance : Append Outline := ⟨fun o p => ⟨o.leaves ++ p.leaves, o.nodes ++ p.nodes⟩⟩

def node (span : Span) (o : Outline) : Outline := ⟨o.leaves, (span, o.spans) :: o.nodes⟩

def row {α : Type} (outline : α → Outline) (xs : List α) : Outline :=
  ⟨xs.flatMap fun x => (outline x).leaves, xs.flatMap fun x => (outline x).nodes⟩

variable {α : Type} (o p q : Outline) (f : α → Outline)

@[simp] theorem leaves_append : (o ++ p).leaves = o.leaves ++ p.leaves := rfl

@[simp] theorem nodes_append : (o ++ p).nodes = o.nodes ++ p.nodes := rfl

@[simp] theorem append_empty : o ++ empty = o := by
  cases o
  exact congrArg₂ mk (List.append_nil _) (List.append_nil _)

@[simp] theorem empty_append : empty ++ o = o := rfl

theorem append_assoc : o ++ p ++ q = o ++ (p ++ q) :=
  congrArg₂ mk (List.append_assoc _ _ _) (List.append_assoc _ _ _)

@[simp] theorem spans_empty : empty.spans = [] := rfl

@[simp] theorem spans_leaf (t : Token) : (leaf t).spans = [t.span] := rfl

theorem mem_spans_append {span : Span} :
    span ∈ (o ++ p).spans ↔ span ∈ o.spans ∨ span ∈ p.spans := by
  simp only [spans, leaves_append, nodes_append, List.map_append, List.mem_append]
  grind

theorem mem_spans_node {span above : Span} :
    span ∈ (o.node above).spans ↔ span = above ∨ span ∈ o.spans := by
  simp only [spans, node, List.map_cons, List.mem_append, List.mem_cons]
  grind

variable {o p q}

theorem Nested.append (ho : o.Nested) (hp : p.Nested) : (o ++ p).Nested :=
  fun node hNode => (List.mem_append.mp hNode).elim (ho node) (hp node)

theorem nested_empty : empty.Nested := List.forall_mem_nil _

theorem nested_leaf (t : Token) : (leaf t).Nested := List.forall_mem_nil _

theorem nested_node {span : Span} :
    (o.node span).Nested ↔ (∀ below ∈ o.spans, span.Contains below) ∧ o.Nested :=
  List.forall_mem_cons

@[simp] theorem row_nil : row f [] = empty := rfl

@[simp] theorem row_cons (x : α) (xs : List α) : row f (x :: xs) = f x ++ row f xs :=
  congrArg₂ mk List.flatMap_cons List.flatMap_cons

@[simp] theorem row_append (xs ys : List α) : row f (xs ++ ys) = row f xs ++ row f ys :=
  congrArg₂ mk List.flatMap_append List.flatMap_append

theorem row_map {β : Type} (g : β → α) (xs : List β) :
    row f (xs.map g) = row (fun x => f (g x)) xs := by
  simp [row, List.flatMap_map]

structure PartOf (o p : Outline) : Prop where
  leaves : o.leaves ⊆ p.leaves
  nodes : o.nodes ⊆ p.nodes

theorem PartOf.trans {o p q : Outline} (h : o.PartOf p) (h' : p.PartOf q) : o.PartOf q :=
  ⟨List.Subset.trans h.leaves h'.leaves, List.Subset.trans h.nodes h'.nodes⟩

theorem partOf_left (o p : Outline) : o.PartOf (o ++ p) :=
  ⟨List.subset_append_left _ _, List.subset_append_left _ _⟩

theorem partOf_right (o p : Outline) : p.PartOf (o ++ p) :=
  ⟨List.subset_append_right _ _, List.subset_append_right _ _⟩

theorem partOf_node (o : Outline) (span : Span) : o.PartOf (o.node span) :=
  ⟨List.Subset.refl _, List.subset_cons_self _ _⟩

theorem partOf_row {xs : List α} {x : α} (h : x ∈ xs) : (f x).PartOf (row f xs) :=
  ⟨fun _ hMem => List.mem_flatMap.mpr ⟨x, h, hMem⟩,
    fun _ hMem => List.mem_flatMap.mpr ⟨x, h, hMem⟩⟩

theorem PartOf.spans {o p : Outline} (h : o.PartOf p) : o.spans ⊆ p.spans := by
  intro span hSpan
  refine List.mem_append.mpr ((List.mem_append.mp hSpan).imp (fun hLeaf => ?_) fun hNode => ?_)
  · exact List.map_subset _ h.leaves hLeaf
  · exact List.map_subset _ h.nodes hNode

end Outline

def Ident.token (name : Ident) : Token := ⟨.ident, name.name, name.span⟩

def Ident.outline (name : Ident) : Outline := .leaf name.token

def Expr.outline : Expr → Outline
  | ref name => name.outline
  | int text span => .leaf ⟨.number, text, span⟩
  | unary _ operand span => operand.outline.node span
  | binary _ left right span => (left.outline ++ right.outline).node span

mutual

def Stmt.outline : Stmt → Outline
  | .block stmts span => (outlineOfStmts stmts).node span
  | .assign target value => target.outline ++ value.outline
  | .call name args => name.outline ++ .row Expr.outline args
  | .ifThen cond yes span => (cond.outline ++ yes.outline).node span
  | .ifElse cond yes no span => (cond.outline ++ yes.outline ++ no.outline).node span

def outlineOfStmts : List Stmt → Outline
  | [] => .empty
  | stmt :: stmts => stmt.outline ++ outlineOfStmts stmts

end

theorem outlineOfStmts_append (stmts stmts' : List Stmt) :
    outlineOfStmts (stmts ++ stmts') = outlineOfStmts stmts ++ outlineOfStmts stmts' := by
  induction stmts with
  | nil => rfl
  | cons stmt stmts ih =>
    rw [List.cons_append, outlineOfStmts, ih, outlineOfStmts, Outline.append_assoc]

def Block.outline (b : Block) : Outline := (outlineOfStmts b.stmts).node b.span

def VarDecl.outline (decl : VarDecl) : Outline := decl.name.outline ++ decl.type.outline

def ProcDecl.outline (p : ProcDecl) : Outline :=
  p.name.outline ++ .row VarDecl.outline p.params ++ .row VarDecl.outline p.locals ++ p.body.outline

def Decl.outline : Decl → Outline
  | .var decl => decl.outline
  | .proc decl => decl.outline

def Program.outline (p : Program) : Outline := .row Decl.outline p.decls ++ p.body.outline

/-! ### Parts of a program -/

open Outline

namespace ProcDecl

variable {p : ProcDecl}

theorem partOf_name : p.name.outline.PartOf p.outline :=
  (partOf_left _ _).trans ((partOf_left _ _).trans (partOf_left _ _))

theorem partOf_var {decl : VarDecl} (h : decl ∈ p.vars) : decl.outline.PartOf p.outline := by
  rcases List.mem_append.mp h with hParam | hLocal
  · refine (partOf_row VarDecl.outline hParam).trans ?_
    exact (partOf_right p.name.outline _).trans ((partOf_left _ _).trans (partOf_left _ _))
  · refine (partOf_row VarDecl.outline hLocal).trans ?_
    exact (partOf_right (p.name.outline ++ row VarDecl.outline p.params) _).trans (partOf_left _ _)

theorem partOf_body : (outlineOfStmts p.body.stmts).PartOf p.outline :=
  (partOf_node _ _).trans (partOf_right _ _)

end ProcDecl

namespace Program

variable {p : Program}

theorem partOf_decl {decl : Decl} (h : decl ∈ p.decls) : decl.outline.PartOf p.outline :=
  (partOf_row Decl.outline h).trans (partOf_left _ _)

theorem partOf_body : (outlineOfStmts p.body.stmts).PartOf p.outline :=
  (partOf_node _ _).trans (partOf_right _ _)

end Program

theorem Expr.span_mem_outline (e : Expr) : e.span ∈ e.outline.spans := by
  cases e with
  | ref name => exact List.mem_singleton_self _
  | int text span => exact List.mem_singleton_self _
  | unary op operand span => exact (Outline.mem_spans_node _).mpr (.inl rfl)
  | binary op left right span => exact (Outline.mem_spans_node _).mpr (.inl rfl)

/-- The span of an expression contains all that is below it. -/
theorem Expr.contains_of_nested {e : Expr} (h : e.outline.Nested) :
    ∀ span ∈ e.outline.spans, e.span.Contains span := by
  cases e with
  | ref name =>
    simpa [outline, Ident.outline, Expr.span, Ident.token] using Span.contains_refl name.span
  | int text span => simpa [outline, Expr.span] using Span.contains_refl span
  | unary op operand span =>
    intro below hBelow
    rcases (Outline.mem_spans_node _).mp hBelow with rfl | hMem
    · exact Span.contains_refl _
    · exact (Outline.nested_node.mp h).1 below hMem
  | binary op left right span =>
    intro below hBelow
    rcases (Outline.mem_spans_node _).mp hBelow with rfl | hMem
    · exact Span.contains_refl _
    · exact (Outline.nested_node.mp h).1 below hMem

/-! ### What a reply leaves -/

namespace Reply

variable {α β : Type} {s t : Cursor} {P : α → Cursor → Prop} {Q : β → Cursor → Prop}

/-- If something is read, it satisfies `P` with the cursor behind it. -/
def Leaves (P : α → Cursor → Prop) : Reply α s → Prop
  | .done a u _ => P a u
  | .fail .. => True

theorem Leaves.andThen {r : Reply α t} {h : t ≤ s}
    {f : (a : α) → (u : Cursor) → u < t → Reply β s} (hr : r.Leaves P)
    (hf : ∀ a u lt, P a u → (f a u lt).Leaves Q) : (r.andThen h f).Leaves Q := by
  cases r with
  | done a u lt => exact hf a u lt hr
  | fail e u le => trivial

theorem Leaves.map {r : Reply α s} {f : α → β} (hr : r.Leaves P)
    (hf : ∀ a u, P a u → Q (f a) u) : (r.map f).Leaves Q := by
  cases r with
  | done a u lt => exact hf a u hr
  | fail e u le => trivial

theorem Leaves.imp {P' : α → Cursor → Prop} {r : Reply α s} (hr : r.Leaves P)
    (h : ∀ a u, P a u → P' a u) : r.Leaves P' := by
  cases r with
  | done a u lt => exact h a u hr
  | fail e u le => trivial

end Reply

/-! ### Outlines of what is read -/

namespace Cursor

variable {source : String} {s t u : Cursor} {o p : Outline}

/-- The token read last and those to come stand one behind the other in the text. -/
structure Sorted (source : String) (s : Cursor) : Prop where
  ordered : (s.last :: s.rest.map (·.span)).Pairwise fun a b => a.stop ≤ b.start
  wellFormed : ∀ span ∈ s.last :: s.rest.map (·.span), span.WellFormed source
  mark : s.size = source.utf8ByteSize

/-- The span begins behind the token read last at `s`, and ends no later than the one at `u`. -/
structure Between (source : String) (s u : Cursor) (span : Span) : Prop where
  behind : s.last.stop ≤ span.start
  upTo : span.stop ≤ u.last.stop
  wellFormed : span.WellFormed source

/-- What is read between `s` and `u` has this outline. -/
structure Gathers (source : String) (s u : Cursor) (o : Outline) : Prop where
  sorted : Sorted source u
  last : u.last = s.last ∨ s.last.stop ≤ u.last.start
  leaves : (o.leaves ++ u.rest).Sublist s.rest
  between : ∀ span ∈ o.spans, Between source s u span
  nested : o.Nested

theorem Sorted.of_sublist (h : Sorted source s)
    (hSub : (t.last :: t.rest.map (·.span)).Sublist (s.last :: s.rest.map (·.span)))
    (hSize : t.size = s.size) : Sorted source t :=
  ⟨h.ordered.sublist hSub, fun span hSpan => h.wellFormed span (hSub.subset hSpan),
    hSize.trans h.mark⟩

theorem Sorted.last_wellFormed (h : Sorted source s) : s.last.WellFormed source :=
  h.wellFormed _ List.mem_cons_self

theorem Sorted.current_wellFormed (h : Sorted source s) : s.current.span.WellFormed source := by
  cases hRest : s.rest with
  | nil =>
    have hCurrent : s.current = .endOfFile source.utf8ByteSize := by
      rw [current, hRest, ← h.mark]
      rfl
    rw [hCurrent]
    exact Span.wellFormed_mark source
  | cons token rest =>
    have hCurrent : s.current = token := by
      rw [current, hRest]
      rfl
    rw [hCurrent]
    exact h.wellFormed _ (by simp [hRest])

/-- A move keeps the tokens to come in order. -/
theorem Sorted.move (h : Sorted source s) (hMove : Move s t) : Sorted source t := by
  cases hMove with
  | read hRest => exact h.of_sublist (by simp [hRest]) rfl
  | skip hRest => exact h.of_sublist (by simp [hRest]) rfl
  | complain what => exact h.of_sublist (List.Sublist.refl _) rfl

theorem Gathers.stop_le (h : Gathers source s u o) : s.last.stop ≤ u.last.stop := by
  rcases h.last with hSame | hBehind
  · rw [hSame]
  · exact Nat.le_trans hBehind h.sorted.last_wellFormed.ordered

theorem Between.mono {s' u' : Cursor} {span : Span} (h : Between source s u span)
    (hs : s'.last.stop ≤ s.last.stop) (hu : u.last.stop ≤ u'.last.stop) :
    Between source s' u' span :=
  ⟨Nat.le_trans hs h.behind, Nat.le_trans h.upTo hu, h.wellFormed⟩

theorem Between.cover {a b : Span} (ha : Between source s u a) (hb : Between source s u b) :
    Between source s u (a.cover b) :=
  ⟨Nat.le_min.mpr ⟨ha.behind, hb.behind⟩, Nat.max_le.mpr ⟨ha.upTo, hb.upTo⟩,
    ha.wellFormed.cover hb.wellFormed⟩

theorem Gathers.refl (h : Sorted source s) : Gathers source s s .empty :=
  ⟨h, .inl rfl, List.Sublist.refl _, by simp, Outline.nested_empty⟩

/-- What is read in two parts has the outlines of both, one behind the other. -/
theorem Gathers.trans (h : Gathers source s t o) (h' : Gathers source t u p) :
    Gathers source s u (o ++ p) := by
  refine ⟨h'.sorted, ?_, ?_, fun span hSpan => ?_, h.nested.append h'.nested⟩
  · rcases h'.last with hSame | hBehind
    · rw [hSame]
      exact h.last
    · exact .inr (Nat.le_trans h.stop_le hBehind)
  · rw [Outline.leaves_append, List.append_assoc]
    exact (h'.leaves.append_left _).trans h.leaves
  · rcases (Outline.mem_spans_append _ _).mp hSpan with hLeft | hRight
    · exact (h.between span hLeft).mono (Nat.le_refl _) h'.stop_le
    · exact (h'.between span hRight).mono h.stop_le (Nat.le_refl _)

/-- A token that is read can be left out of the outline. -/
theorem Gathers.skip (h : Gathers source s t .empty) (h' : Gathers source t u p) :
    Gathers source s u p := by
  simpa using h.trans h'

theorem Gathers.skipped (h : Gathers source s t o) (h' : Gathers source t u .empty) :
    Gathers source s u o := by
  simpa using h.trans h'

/-- The outline can be left out. -/
theorem Gathers.forget (h : Gathers source s u o) : Gathers source s u .empty :=
  ⟨h.sorted, h.last, (List.sublist_append_right _ _).trans h.leaves, by simp,
    Outline.nested_empty⟩

/-- A node is put above what was read, if it contains that. -/
theorem Gathers.node {span : Span} (h : Gathers source s u o) (hSpan : Between source s u span)
    (hContains : ∀ below ∈ o.spans, span.Contains below) : Gathers source s u (o.node span) := by
  refine ⟨h.sorted, h.last, h.leaves, fun other hOther => ?_,
    Outline.nested_node.mpr ⟨hContains, h.nested⟩⟩
  rcases (Outline.mem_spans_node _).mp hOther with rfl | hMem
  · exact hSpan
  · exact h.between other hMem

/-- A run that builds nothing leaves an empty outline. -/
theorem Run.gathers (h : Run s u) (hs : Sorted source s) : Gathers source s u .empty := by
  refine h.invariant (I := fun u => Gathers source s u .empty) (fun t u ht hMove => ?_) (.refl hs)
  have hStep : Gathers source t u .empty := by
    refine ⟨ht.sorted.move hMove, ?_, hMove.le.sublist, by simp, Outline.nested_empty⟩
    cases hMove with
    | read hRest => exact .inr ((List.pairwise_cons.mp ht.sorted.ordered).1 _ (by simp [hRest]))
    | skip => exact .inl rfl
    | complain => exact .inl rfl
  exact ht.skip hStep

/-- A token that is read can be a leaf or not. -/
theorem gathers_next {token : Token} {left : Cursor} {lt : left < s}
    (h : s.next? = some ⟨token, left, lt⟩) (hs : Sorted source s) :
    left.last = token.span ∧ Between source s left token.span ∧
      Gathers source s left .empty ∧ Gathers source s left (.leaf token) := by
  have hPassed : Gathers source s left .empty := (run_next h).gathers hs
  obtain ⟨rest, size, last, errors⟩ := s
  cases rest with
  | nil => simp [next?] at h
  | cons first rest =>
    simp only [next?, Option.some.injEq, Step.mk.injEq] at h
    obtain ⟨rfl, rfl⟩ := h
    have hBetween : Between source ⟨first :: rest, size, last, errors⟩
        ⟨rest, size, first.span, errors⟩ first.span :=
      ⟨(List.pairwise_cons.mp hs.ordered).1 _ List.mem_cons_self, Nat.le_refl _,
        hs.wellFormed _ (by simp)⟩
    exact ⟨rfl, hBetween, hPassed, hPassed.sorted, hPassed.last, List.Sublist.refl _,
      by simpa using hBetween, Outline.nested_leaf first⟩

/-- The node of what begins with the token before `t` and ends with the token before `u`. -/
theorem Gathers.framed (h : Gathers source s t .empty) (hBetween : Between source s t t.last)
    (h' : Gathers source t u o) : Gathers source s u (o.node (t.last.cover u.last)) := by
  have hStart := hBetween.mono (Nat.le_refl _) h'.stop_le
  have hStop : Between source s u u.last := by
    refine ⟨?_, Nat.le_refl _, h'.sorted.last_wellFormed⟩
    rcases h'.last with hSame | hBehind
    · rw [hSame]
      exact hBetween.behind
    · exact Nat.le_trans h.stop_le hBehind
  refine (h.skip h').node (hStart.cover hStop) fun below hBelow => ?_
  have hInner := h'.between below hBelow
  refine ⟨Nat.le_trans (Nat.min_le_left _ _) ?_, Nat.le_trans hInner.upTo (Nat.le_max_right _ _)⟩
  exact Nat.le_trans hBetween.wellFormed.ordered hInner.behind

/-! ### Expressions and statements -/

open Reply

/-- Whatever a reader does, it goes on in the text. -/
theorem gathers_of_stays {α : Type} {r : Reply α t} (hr : r.Stays s.Onward)
    (hs : Sorted source s) : r.Leaves fun _ u => Gathers source s u .empty := by
  cases r with
  | done a u lt => exact (Onward.covered hr).run.gathers hs
  | fail e u le => trivial

theorem gathers_expect (hs : Sorted source s) (kind : TokenKind) :
    (s.expect kind).Leaves fun _ u => Gathers source s u .empty :=
  gathers_of_stays (stays_expect s kind) hs

theorem gathers_accept {kind : TokenKind} {left : { t : Cursor // t < s }}
    (h : s.accept kind = some left) (hs : Sorted source s) : Gathers source s left.val .empty :=
  (onward_accept h).covered.run.gathers hs

theorem gathers_expectAs (hs : Sorted source s) (kind : TokenKind) (what : String) :
    (s.expectAs kind what).Leaves fun token u => token.kind = kind ∧ u.last = token.span ∧
      Between source s u token.span ∧ Gathers source s u (.leaf token) := by
  unfold expectAs
  split
  · trivial
  · next token left lt hNext =>
    obtain ⟨hLast, hBetween, -, hLeaf⟩ := gathers_next hNext hs
    split
    · next hKind => exact ⟨hKind, hLast, hBetween, hLeaf⟩
    · trivial

theorem Gathers.unary {t₀ : Token} {e : Expr} (op : UnaryOp)
    (hSign : Gathers source s t .empty) (hBetween : Between source s t t₀.span)
    (h : Gathers source t u e.outline) :
    Gathers source s u (Expr.unary op e (t₀.span.cover e.span)).outline := by
  refine (hSign.skip h).node ?_ fun below hBelow => ?_
  · refine (hBetween.mono (Nat.le_refl _) h.stop_le).cover ?_
    exact (h.between _ e.span_mem_outline).mono hSign.stop_le (Nat.le_refl _)
  · exact (Expr.contains_of_nested h.nested below hBelow).cover_right _

/-- A binary expression spans its operands. -/
theorem Gathers.binary {left right : Expr} (op : BinaryOp) (h : Gathers source s t left.outline)
    (h' : Gathers source t u right.outline) :
    Gathers source s u (Expr.binary op left right (left.span.cover right.span)).outline := by
  have hBoth := h.trans h'
  have hMem : ∀ span, span ∈ left.outline.spans ∨ span ∈ right.outline.spans →
      Between source s u span := fun span hSpan =>
    hBoth.between span ((Outline.mem_spans_append _ _).mpr hSpan)
  refine hBoth.node ?_ fun below hBelow => ?_
  · exact (hMem _ (.inl left.span_mem_outline)).cover (hMem _ (.inr right.span_mem_outline))
  · rcases (Outline.mem_spans_append _ _).mp hBelow with hLeft | hRight
    · exact (Expr.contains_of_nested h.nested below hLeft).cover_left _
    · exact (Expr.contains_of_nested h'.nested below hRight).cover_right _

mutual

/-- An operand has the tokens that were read for it as leaves, by induction on the cursor. -/
theorem gathers_readOperand {s : Cursor} (hs : Sorted source s) :
    s.readOperand.Leaves fun e u => Gathers source s u e.outline := by
  rw [readOperand]
  split
  · trivial
  · next t s₁ h₁ hNext =>
    have hLess := length_lt h₁
    obtain ⟨-, hBetween, hPassed, hLeaf⟩ := gathers_next hNext hs
    split
    · exact (gathers_readOperand hPassed.sorted).andThen fun _ _ _ he => hPassed.unary _ hBetween he
    · exact (gathers_readOperand hPassed.sorted).andThen fun _ _ _ he => hPassed.unary _ hBetween he
    · next hKind => simpa [Leaves, Expr.outline, ← hKind] using hLeaf
    · next hKind =>
      simpa [Leaves, Expr.outline, Ident.outline, Ident.token, ← hKind] using hLeaf
    · refine (gathers_readBinary hPassed.sorted 0).andThen fun e s₂ _ he => ?_
      exact (gathers_expect he.sorted _).andThen fun _ s₃ _ h₃ => (hPassed.skip he).skipped h₃
    · trivial
termination_by 2 * s.rest.length
decreasing_by all_goals omega

theorem gathers_readBinary {s : Cursor} (hs : Sorted source s) (least : Nat) :
    (s.readBinary least).Leaves fun e u => Gathers source s u e.outline := by
  rw [readBinary]
  refine (gathers_readOperand hs).andThen fun e t lt he => ?_
  have hLess := length_lt lt
  exact gathers_readOperators he lt least
termination_by 2 * s.rest.length + 1
decreasing_by all_goals omega

/-- Each turn of the loop over operators puts a node above what was read so far. -/
theorem gathers_readOperators {s t : Cursor} {left : Expr} (h : Gathers source s t left.outline)
    (lt : t < s) (least : Nat) :
    (t.readOperators s lt least left).Leaves fun e u => Gathers source s u e.outline := by
  rw [readOperators]
  split
  · exact h
  · next token t₁ h₁ hNext =>
    have hLess₁ := length_lt h₁
    obtain ⟨-, -, hPassed, -⟩ := gathers_next hNext h.sorted
    split
    · exact h
    · next op _ =>
      split
      · exact h
      · refine (gathers_readBinary hPassed.sorted _).andThen fun right t₂ h₂ hRight => ?_
        have hLess₂ := length_lt h₂
        exact gathers_readOperators (h.binary op (hPassed.skip hRight)) _ least
termination_by 2 * t.rest.length
decreasing_by all_goals omega

end

theorem gathers_readArgs {found : List Expr}
    (h : Gathers source s t (.row Expr.outline found.reverse)) (lt : t < u) :
    (t.readArgs u lt found).Leaves fun args v => Gathers source s v (.row Expr.outline args) := by
  fun_induction readArgs t u lt found with
  | case1 t lt found ih =>
    refine (gathers_readBinary h.sorted 0).andThen fun arg t₁ h₁ hArg => ?_
    have hFound : Gathers source s t₁ (.row Expr.outline (arg :: found).reverse) := by
      simpa using h.trans hArg
    split
    · next t₂ h₂ hComma =>
      exact ih arg t₁ h₁ t₂ h₂ (hFound.skipped (gathers_accept hComma hFound.sorted))
    · exact hFound

theorem gathers_readCall {name : Ident} (h : Gathers source s t name.outline) (lt : t < u) :
    (t.readCall u lt name).Leaves fun stmt v => Gathers source s v stmt.outline := by
  have hNone : Gathers source s t (Stmt.call name []).outline := by simpa [Stmt.outline] using h
  unfold readCall
  split
  · exact hNone
  · next t₁ h₁ hOpen =>
    have ht₁ := gathers_accept hOpen h.sorted
    split
    · next t₂ h₂ hClose => exact (hNone.skipped ht₁).skipped (gathers_accept hClose ht₁.sorted)
    · have hStart : Gathers source t t₁ (.row Expr.outline ([] : List Expr).reverse) := ht₁
      refine (gathers_readArgs hStart h₁).andThen fun args t₂ _ hArgs => ?_
      exact (gathers_expect hArgs.sorted _).andThen fun _ t₃ _ ht₃ => (h.trans hArgs).skipped ht₃

mutual

theorem gathers_readStmt {s : Cursor} (hs : Sorted source s) :
    s.readStmt.Leaves fun stmt u => Gathers source s u stmt.outline := by
  rw [readStmt]
  split
  · trivial
  · next t s₁ h₁ hNext =>
    have hLess₁ := length_lt h₁
    obtain ⟨hLast, hBetween, hPassed, hLeaf⟩ := gathers_next hNext hs
    rw [← hLast] at hBetween ⊢
    split
    · have hStart : Gathers source s₁ s₁ (outlineOfStmts ([] : List Stmt).reverse) :=
        .refl hPassed.sorted
      refine (gathers_readStmts hStart h₁).map fun block u hBlock => ?_
      rw [hBlock.2]
      exact hPassed.framed hBetween hBlock.1
    · refine (gathers_readBinary hPassed.sorted 0).andThen fun cond s₂ h₂ hCond => ?_
      refine (gathers_expect hCond.sorted _).andThen fun _ s₃ h₃ hThen => ?_
      have hLess₃ := length_lt (lt_trans h₃ h₂)
      refine (gathers_readStmt hThen.sorted).andThen fun yes s₄ h₄ hYes => ?_
      have hInner := (hCond.skipped hThen).trans hYes
      dsimp only
      split
      · exact hPassed.framed hBetween hInner
      · next s₅ h₅ hElse =>
        have hLess₅ := length_lt (lt_trans h₅ h₄)
        have hs₅ := hInner.skipped (gathers_accept hElse hInner.sorted)
        refine (gathers_readStmt hs₅.sorted).andThen fun no s₆ _ hNo => ?_
        exact hPassed.framed hBetween (hs₅.trans hNo)
    · next hKind =>
      have hName : Gathers source s s₁ (Ident.outline ⟨t.text, s₁.last⟩) := by
        simpa [Ident.outline, Ident.token, ← hKind, hLast] using hLeaf
      split
      · exact gathers_readCall hName h₁
      · next s₂ h₂ hBecomes =>
        have hs₂ := hName.skipped (gathers_accept hBecomes hName.sorted)
        exact (gathers_readBinary hs₂.sorted 0).andThen fun _ _ _ hValue => hs₂.trans hValue
    · trivial
termination_by 2 * s.rest.length
decreasing_by all_goals omega

/-- The span of a block begins where its `begin` does, which is the token before `s`. -/
theorem gathers_readStmts {s t u : Cursor} {start : Span} {found : List Stmt}
    (h : Gathers source s t (outlineOfStmts found.reverse)) (lt : t < u) :
    (t.readStmts u lt start found).Leaves fun block v =>
      Gathers source s v (outlineOfStmts block.stmts) ∧ block.span = start.cover v.last := by
  rw [readStmts]
  split
  · refine (gathers_expectAs h.sorted _ _).andThen fun close t₁ _ hClose => ?_
    obtain ⟨-, hLast, -, hClosed⟩ := hClose
    exact ⟨h.skipped hClosed.forget, by rw [hLast]⟩
  · next hClose =>
    have hRead := gathers_readStmt h.sorted
    have hStays := stays_readStmt t
    split
    · next e t₁ h₁ hFail =>
      rw [hFail] at hStays
      obtain ⟨ht₁, what, rfl⟩ := hStays
      have hLess := length_lt
        (recover_lt h₁ (t₁.unexpected what) (fun k => hClose (.inl k)) fun k => hClose (.inr k))
      have hRun := ht₁.covered.run.trans (run_recover t₁ what)
      exact gathers_readStmts (h.skipped (hRun.gathers h.sorted)) _
    · next stmt t₁ h₁ hDone =>
      rw [hDone] at hRead
      have hLess₁ := length_lt h₁
      have hFound : Gathers source s t₁ (outlineOfStmts (stmt :: found).reverse) := by
        rw [List.reverse_cons, outlineOfStmts_append]
        simpa [outlineOfStmts] using h.trans hRead
      split
      · next t₂ h₂ hSemicolon =>
        have hLess₂ := length_lt h₂
        exact gathers_readStmts (hFound.skipped (gathers_accept hSemicolon hFound.sorted)) _
      · split
        · exact gathers_readStmts hFound _
        · have hLess := (recover_le t₁ (t₁.unexpected TokenKind.semicolon.describe)).length_le
          have hRun := run_recover t₁ TokenKind.semicolon.describe
          exact gathers_readStmts (hFound.skipped (hRun.gathers hFound.sorted)) _
termination_by 2 * t.rest.length + 1
decreasing_by all_goals omega

end

/-! ### Declarations and programs -/

theorem gathers_readBlock (hs : Sorted source s) :
    s.readBlock.Leaves fun block u => Gathers source s u block.outline := by
  refine (gathers_expectAs hs _ _).andThen fun token s₁ h₁ hToken => ?_
  obtain ⟨-, hLast, hBetween, hLeaf⟩ := hToken
  rw [← hLast] at hBetween ⊢
  have hStart : Gathers source s₁ s₁ (outlineOfStmts ([] : List Stmt).reverse) :=
    .refl hLeaf.sorted
  refine (gathers_readStmts hStart h₁).imp fun block u hBlock => ?_
  rw [Block.outline, hBlock.2]
  exact hLeaf.forget.framed hBetween hBlock.1

theorem Gathers.ident {token : Token} (h : Gathers source s u (.leaf token))
    (hKind : token.kind = .ident) :
    Gathers source s u (Ident.outline ⟨token.text, token.span⟩) := by
  simpa [Ident.outline, Ident.token, ← hKind] using h

theorem gathers_readIdent (hs : Sorted source s) :
    s.readIdent.Leaves fun name u => Gathers source s u name.outline :=
  (gathers_expectAs hs _ _).map fun _ _ h => h.2.2.2.ident h.1

theorem gathers_readTyped (hs : Sorted source s) (isConst : Bool) :
    (s.readTyped isConst).Leaves fun decl u => Gathers source s u decl.outline := by
  refine (gathers_readIdent hs).andThen fun name s₁ _ hName => ?_
  refine (gathers_expect hName.sorted _).andThen fun _ s₂ _ hColon => ?_
  refine (gathers_expectAs hColon.sorted _ _).andThen fun token s₃ _ hType => ?_
  exact (hName.skipped hColon).trans (hType.2.2.2.ident hType.1)

theorem gathers_readVarDecl (hs : Sorted source s) (isConst : Bool) :
    (s.readVarDecl isConst).Leaves fun decl u => Gathers source s u decl.outline := by
  refine (gathers_readTyped hs isConst).andThen fun decl s₁ _ hDecl => ?_
  exact (gathers_expect hDecl.sorted _).andThen fun _ s₂ _ h₂ => hDecl.skipped h₂

theorem gathers_readVarDecls {found : List VarDecl} (isConst : Bool)
    (h : Gathers source s t (.row VarDecl.outline found.reverse)) (lt : t < u) :
    (t.readVarDecls u lt isConst found).Leaves fun decls v =>
      Gathers source s v (.row VarDecl.outline decls) := by
  fun_induction readVarDecls t u lt isConst found with
  | case1 t lt found _ ih =>
    refine (gathers_readVarDecl h.sorted isConst).andThen fun decl t₁ h₁ hDecl => ?_
    exact ih decl t₁ h₁ (by simpa using h.trans hDecl)
  | case2 t lt found _ => exact h

theorem gathers_readSection (hs : Sorted source s) :
    s.readSection.Leaves fun decls u => Gathers source s u (.row VarDecl.outline decls) := by
  unfold readSection
  split
  · trivial
  · next token s₁ h₁ hNext =>
    obtain ⟨-, -, hPassed, -⟩ := gathers_next hNext hs
    refine (gathers_readVarDecl hPassed.sorted _).andThen fun decl s₂ _ hDecl => ?_
    exact gathers_readVarDecls _ (by simpa using hPassed.skip hDecl) _

theorem gathers_readLocals {found : List VarDecl}
    (h : Gathers source s t (.row VarDecl.outline found)) (lt : t < u) :
    (t.readLocals u lt found).Leaves fun decls v =>
      Gathers source s v (.row VarDecl.outline decls) := by
  fun_induction readLocals t u lt found with
  | case1 t lt found _ ih =>
    refine (gathers_readSection h.sorted).andThen fun decls t₁ h₁ hDecls => ?_
    exact ih decls t₁ h₁ (by simpa using h.trans hDecls)
  | case2 t lt found _ => exact h

theorem gathers_readParams {found : List VarDecl}
    (h : Gathers source s t (.row VarDecl.outline found.reverse)) (lt : t < u) :
    (t.readParams u lt found).Leaves fun decls v =>
      Gathers source s v (.row VarDecl.outline decls) := by
  fun_induction readParams t u lt found with
  | case1 t lt found ih =>
    refine (gathers_readTyped h.sorted false).andThen fun param t₁ h₁ hParam => ?_
    have hFound : Gathers source s t₁ (.row VarDecl.outline (param :: found).reverse) := by
      simpa using h.trans hParam
    split
    · next t₂ h₂ hNext =>
      exact ih param t₁ h₁ t₂ h₂ (hFound.skipped (gathers_accept hNext hFound.sorted))
    · exact hFound

theorem gathers_readParamList (ht : Sorted source t) (lt : t < u) :
    (t.readParamList u lt).Leaves fun decls v =>
      Gathers source t v (.row VarDecl.outline decls) := by
  unfold readParamList
  split
  · exact .refl ht
  · next t₁ h₁ hOpen =>
    have ht₁ := gathers_accept hOpen ht
    refine Leaves.andThen (P := fun decls v => Gathers source t v (.row VarDecl.outline decls)) ?_
      fun params t₂ _ hParams => ?_
    · split
      · exact gathers_readParams ht₁ _
      · exact ht₁
    · exact (gathers_expect hParams.sorted _).andThen fun _ t₃ _ ht₃ => hParams.skipped ht₃

theorem gathers_readProc (hs : Sorted source s) :
    s.readProc.Leaves fun proc u => Gathers source s u proc.outline := by
  unfold readProc
  refine (gathers_expect hs _).andThen fun _ s₁ _ hProcedure => ?_
  refine (gathers_readIdent hProcedure.sorted).andThen fun name s₂ _ hName => ?_
  refine (gathers_readParamList hName.sorted _).andThen fun params s₃ _ hParams => ?_
  refine (gathers_expect hParams.sorted _).andThen fun _ s₄ _ hSemicolon => ?_
  refine (gathers_readLocals (.refl hSemicolon.sorted) _).andThen fun locals s₅ _ hLocals => ?_
  refine (gathers_readBlock hLocals.sorted).andThen fun body s₆ _ hBody => ?_
  have hHead := ((hProcedure.skip hName).trans hParams).skipped hSemicolon
  have hProc : Gathers source s s₆ (ProcDecl.outline ⟨name, params, locals, body⟩) :=
    (hHead.trans hLocals).trans hBody
  split
  · next s₇ _ hLast => exact hProc.skipped (gathers_accept hLast hProc.sorted)
  · exact hProc

theorem gathers_readDecl (hs : Sorted source s) :
    s.readDecl.Leaves fun decls u => Gathers source s u (.row Decl.outline decls) := by
  have hSection : (s.readSection.map (·.map Decl.var)).Leaves fun decls u =>
      Gathers source s u (.row Decl.outline decls) := by
    refine (gathers_readSection hs).map fun decls u hDecls => ?_
    rw [Outline.row_map]
    exact hDecls
  unfold readDecl
  split
  · exact hSection
  · exact hSection
  · exact (gathers_readProc hs).map fun proc u hProc => by simpa [Decl.outline] using hProc
  · trivial

/-- Declarations that recovery drops leave no leaves behind. -/
theorem gathers_readDecls {found : List Decl}
    (h : Gathers source s t (.row Decl.outline found)) :
    Gathers source s (t.readDecls found).2 (.row Decl.outline (t.readDecls found).1) := by
  fun_induction readDecls t found with
  | case1 t found hStop => exact h
  | case2 t found hStop decls t₁ h₁ hRead ih =>
    have hDecls := gathers_readDecl h.sorted
    rw [hRead] at hDecls
    exact ih (by simpa using h.trans hDecls)
  | case3 t found hStop e t₁ h₁ hRead hNext ih =>
    have hRound : t.declRound? = some ([], t₁.recover e) := by simp [declRound?, hStop, hRead]
    exact ih (h.skipped ((covered_declRound hRound).2.run.gathers h.sorted))

/-- A program has the name that stands in its header, or the default name. -/
theorem gathers_readHeader (hs : Sorted source s) :
    Gathers source s s.readHeader.2 .empty ∧
      (s.readHeader.1 = defaultName ∨ Gathers source s s.readHeader.2 s.readHeader.1.outline) := by
  refine ⟨(covered_readHeader s).run.gathers hs, ?_⟩
  unfold readHeader
  split
  · exact .inl rfl
  · next s₁ h₁ hProgram =>
    have hs₁ := gathers_accept hProgram hs
    have hHeader : (s₁.readIdent.andThen (le_refl s₁) fun name s₂ h₂ =>
        (s₂.expect .semicolon).andThen (le_of_lt h₂) fun _ s₃ h₃ =>
          (.done name s₃ (lt_trans h₃ h₂) : Reply Ident s₁)).Leaves fun name u =>
            Gathers source s u name.outline := by
      refine (gathers_readIdent hs₁.sorted).andThen fun name s₂ _ hName => ?_
      exact (gathers_expect hName.sorted _).andThen fun _ _ _ h₃ => (hs₁.skip hName).skipped h₃
    dsimp only
    split
    · next name s₂ h₂ hDone =>
      rw [hDone] at hHeader
      exact .inr hHeader
    · exact .inl rfl

end Cursor

def Program.leaves (p : Program) : List Token :=
  (if p.name = Cursor.defaultName then [] else [p.name.token]) ++ p.outline.leaves

def Program.spans (p : Program) : List Span := p.name.span :: p.outline.spans

/-- The tree keeps to the text: its leaves are among these tokens, in their order, its spans are
well formed, and its nodes contain what is below them. -/
structure Program.TrueTo (p : Program) (source : String) (tokens : List Token) : Prop where
  leaves : p.leaves.Sublist tokens
  spans : ∀ span ∈ p.spans, span.WellFormed source
  nested : p.outline.Nested

namespace Cursor

variable {source : String} {s : Cursor}

/-- The tree of a program keeps to the tokens, whatever was complained about. -/
theorem trueTo_readProgram (hs : Sorted source s) : s.readProgram.1.TrueTo source s.rest := by
  obtain ⟨hPassed, hName⟩ := gathers_readHeader hs
  have hStart : Gathers source s.readHeader.2 s.readHeader.2 (.row Decl.outline []) :=
    .refl hPassed.sorted
  have hDecls := gathers_readDecls hStart
  have hBlock := gathers_readBlock hDecls.sorted
  -- the body that stands in for a missing one has the span of the token at which it is missed
  have hTree : s.readProgram.1.outline.leaves.Sublist s.readHeader.2.rest ∧
      (∀ span ∈ s.readProgram.1.outline.spans, span.WellFormed source) ∧
      s.readProgram.1.outline.Nested := by
    unfold readProgram
    dsimp only
    generalize s.readHeader.2.readDecls [] = decls at hDecls hBlock ⊢
    cases hRead : decls.2.readBlock with
    | done body u lt =>
      rw [hRead] at hBlock
      have hAll := hDecls.trans hBlock
      exact ⟨(List.sublist_append_left _ _).trans hAll.leaves,
        fun span hSpan => (hAll.between span hSpan).wellFormed, hAll.nested⟩
    | fail e u le =>
      have hStays := stays_readBlock decls.2
      rw [hRead] at hStays
      have hu := (Onward.covered hStays.1).run.gathers hDecls.sorted
      refine ⟨?_, fun span hSpan => ?_, hDecls.nested.append (Outline.nested_node.mpr ?_)⟩
      · have hLeaves := (List.sublist_append_left _ _).trans hDecls.leaves
        simpa [Program.outline, Block.outline, outlineOfStmts, Outline.node, Outline.empty]
          using hLeaves
      · rcases (Outline.mem_spans_append _ _).mp hSpan with hDecl | hBody
        · exact (hDecls.between span hDecl).wellFormed
        · rcases (Outline.mem_spans_node _).mp hBody with rfl | hNone
          · exact hu.sorted.current_wellFormed
          · cases hNone
      · exact ⟨by simp [outlineOfStmts], Outline.nested_empty⟩
  have hProgram : s.readProgram.1.name = s.readHeader.1 := rfl
  refine ⟨?_, List.forall_mem_cons.mpr ⟨?_, hTree.2.1⟩, hTree.2.2⟩
  · rw [Program.leaves, hProgram]
    split
    · exact hTree.1.trans hPassed.leaves
    · next hGiven =>
      have hHeader := (hName.resolve_left hGiven).leaves
      exact (hTree.1.append_left _).trans hHeader
  · rw [hProgram]
    rcases hName with hDefault | hGiven
    · rw [hDefault]
      exact Span.wellFormed_nowhere source
    · exact (hGiven.between _ (List.mem_singleton_self _)).wellFormed

/-- The tokens of a text stand one behind the other in it. -/
theorem sorted_before (source : String) :
    Sorted source (before (tokenize source).list (tokenize source).size) := by
  refine ⟨.cons (fun span _ => Nat.zero_le _) ?_, List.forall_mem_cons.mpr ⟨?_, ?_⟩, ?_⟩
  · exact List.pairwise_map.mpr (pairwise_spans_tokenize source)
  · exact Span.wellFormed_nowhere source
  · intro span hSpan
    obtain ⟨t, ht, rfl⟩ := List.mem_map.mp hSpan
    exact wellFormed_of_mem_tokenize ht
  · exact byteLength_toList source

end Cursor

/-- The tree that is read from a text keeps to it, whatever is wrong with the text. -/
theorem trueTo_parse (source : String) :
    (parse source).1.TrueTo source (tokenize source).list :=
  Cursor.trueTo_readProgram (Cursor.sorted_before source)

end ChipPascal
