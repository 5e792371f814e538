import ChipPascal.Proofs.Meaning

/-!
# The fuel of reference runs

The fuel of a reference run bounds how deep calls are nested. A run that is not cut off comes to
the same with more fuel, and none is cut off that has more fuel than the stack has bytes.
-/

namespace ChipPascal

/-! ### Results of reference runs -/

/-- What follows from the result of a reference run. -/
def RunOutcome {α : Type} (r : Except Halt α) (done : α → Prop) (cut : Prop) : Prop :=
  match r with
  | .ok a => done a
  | .error .outOfFuel => cut
  | .error .overflow => True

section

variable {α β : Type} {x : Except Halt α} {f : α → Except Halt β} {done : α → Prop}
  {done' : β → Prop} {cut cut' : Prop}

/-- The rest of a run is asked about only if the first part is done. -/
theorem RunOutcome.bind (h : RunOutcome x done cut) (hf : ∀ a, done a → RunOutcome (f a) done' cut')
    (hCut : cut → cut') : RunOutcome (x >>= f) done' cut' := by
  cases x with
  | ok a => exact hf a h
  | error e =>
    cases e with
    | outOfFuel => exact hCut h
    | overflow => trivial

theorem RunOutcome.mono {done' : α → Prop} (h : RunOutcome x done cut)
    (hDone : ∀ a, done a → done' a) (hCut : cut → cut') : RunOutcome x done' cut' := by
  cases x with
  | ok a => exact hDone a h
  | error e =>
    cases e with
    | outOfFuel => exact hCut h
    | overflow => trivial

theorem RunOutcome.fits {n : Nat} (h : n ≤ stackLimit → RunOutcome x done cut) :
    RunOutcome (ChipPascal.fits n >>= fun _ => x) done cut := by
  unfold ChipPascal.fits
  split
  · next hFits => exact h hFits
  · trivial

abbrev Lasts (r : Except Halt α) : Prop := RunOutcome r (fun _ => True) False

theorem Lasts.bind (h : Lasts x) (hf : ∀ a, Lasts (f a)) : Lasts (x >>= f) :=
  RunOutcome.bind h (fun a _ => hf a) id

end

/-! ### Runs side by side -/

/-- What holds of the steps of two runs holds of the runs. -/
structure Congruent (R : (α : Type) → Except Halt α → Except Halt α → Prop) : Prop where
  ok {α : Type} (a : α) : R α (.ok a) (.ok a)
  overflow {α : Type} : R α (.error .overflow) (.error .overflow)
  bind {α β : Type} {x y : Except Halt α} {f g : α → Except Halt β} :
    R α x y → (∀ a, R β (f a) (g a)) → R β (x >>= f) (y >>= g)

section

variable {R : (α : Type) → Except Halt α → Except Halt α → Prop} {program : Program}
  {call call' : ProcDecl → List Nat → Nat → World → Except Halt World} {vars : List VarDecl}
  {live : Nat}

theorem Congruent.fits (h : Congruent R) {α : Type} {x y : Except Halt α} {n : Nat}
    (hFits : n ≤ stackLimit → R α x y) :
    R α (ChipPascal.fits n >>= fun _ => x) (ChipPascal.fits n >>= fun _ => y) := by
  unfold ChipPascal.fits
  split
  · next hn => exact hFits hn
  · exact h.overflow

theorem Congruent.stageArgs (h : Congruent R) (store : Store) (args : List (Expr × ValueType))
    (live : Nat) : R _ (stageArgs store live args) (stageArgs store live args) := by
  induction args generalizing live with
  | nil => exact h.ok _
  | cons arg rest ih => exact h.fits fun _ => h.fits fun _ => h.bind (ih _) fun _ => h.ok _

/-- A call is related to a call if the two ways to run a procedure are. -/
theorem Congruent.runCall (h : Congruent R)
    (hCall : live + 1 ≤ stackLimit → ∀ proc values w,
      R World (call proc values live w) (call' proc values live w))
    (name : String) (args : List Expr) (w : World) (locals : Store) :
    R World (runCall program call vars live name args w locals)
      (runCall program call' vars live name args w locals) := by
  unfold ChipPascal.runCall
  split
  · unfold runIntrinsic
    split
    · exact h.fits fun _ => h.ok _
    · exact h.ok _
  · split
    · exact h.ok _
    · exact h.fits fun hFits => h.bind (h.stageArgs _ _ _) fun _ => hCall hFits _ _ _

theorem Congruent.runCond (h : Congruent R) (cond : Expr) (w : World) (locals : Store) :
    R Bool (runCond program vars live cond w locals) (runCond program vars live cond w locals) :=
  h.fits fun _ => h.ok _

mutual

/-- Statements are related by induction, with the calls they make as the base. -/
theorem Congruent.runStmt (h : Congruent R)
    (hCall : live + 1 ≤ stackLimit → ∀ proc values w,
      R World (call proc values live w) (call' proc values live w))
    (stmt : Stmt) (w : World) (locals : Store) :
    R _ (runStmt program call vars live stmt w locals)
      (runStmt program call' vars live stmt w locals) := by
  cases stmt with
  | block stmts span =>
    rw [ChipPascal.runStmt, ChipPascal.runStmt]
    exact h.runStmts hCall stmts w locals
  | assign target value =>
    rw [ChipPascal.runStmt, ChipPascal.runStmt]
    exact h.fits fun _ => h.ok _
  | call name args =>
    rw [ChipPascal.runStmt, ChipPascal.runStmt]
    exact h.bind (h.runCall hCall _ _ _ _) fun _ => h.ok _
  | ifThen cond yes span =>
    rw [ChipPascal.runStmt, ChipPascal.runStmt]
    refine h.bind (h.runCond cond w locals) fun holds => ?_
    cases holds with
    | true => exact h.runStmt hCall yes w locals
    | false => exact h.ok _
  | ifElse cond yes no span =>
    rw [ChipPascal.runStmt, ChipPascal.runStmt]
    refine h.bind (h.runCond cond w locals) fun holds => ?_
    cases holds with
    | true => exact h.runStmt hCall yes w locals
    | false => exact h.runStmt hCall no w locals

theorem Congruent.runStmts (h : Congruent R)
    (hCall : live + 1 ≤ stackLimit → ∀ proc values w,
      R World (call proc values live w) (call' proc values live w))
    (stmts : List Stmt) (w : World) (locals : Store) :
    R _ (runStmts program call vars live stmts w locals)
      (runStmts program call' vars live stmts w locals) := by
  cases stmts with
  | nil =>
    rw [ChipPascal.runStmts, ChipPascal.runStmts]
    exact h.ok _
  | cons stmt stmts =>
    rw [ChipPascal.runStmts, ChipPascal.runStmts]
    exact h.bind (h.runStmt hCall stmt w locals) fun r => h.runStmts hCall stmts r.1 r.2

end

end

/-! ### Enough fuel -/

section

variable {program : Program} {start : Nat → Store} {fuel fuel' live : Nat}
  {call : ProcDecl → List Nat → Nat → World → Except Halt World} {vars : List VarDecl}

theorem congruent_lasts : Congruent fun _ x _ => Lasts x where
  ok _ := trivial
  overflow := trivial
  bind := Lasts.bind

theorem runCall_lasts
    (hCall : live + 1 ≤ stackLimit → ∀ proc values w, Lasts (call proc values live w))
    (name : String) (args : List Expr) (w : World) (locals : Store) :
    Lasts (runCall program call vars live name args w locals) :=
  @Congruent.runCall _ program call call vars live congruent_lasts hCall name args w locals

theorem runStmts_lasts
    (hCall : live + 1 ≤ stackLimit → ∀ proc values w, Lasts (call proc values live w))
    (stmts : List Stmt) (w : World) (locals : Store) :
    Lasts (runStmts program call vars live stmts w locals) :=
  @Congruent.runStmts _ program call call vars live congruent_lasts hCall stmts w locals

/-- Each call takes a byte of the stack at least, so calls are never nested deeper than it is
high. -/
theorem runProc_lasts (start : Nat → Store) (hLive : live ≤ stackLimit)
    (hFuel : stackLimit < live + fuel) (proc : ProcDecl) (values : List Nat) (w : World) :
    Lasts (runProc program start fuel proc values live w) := by
  induction fuel generalizing live proc values w with
  | zero => omega
  | succ fuel ih =>
    refine RunOutcome.fits fun hTop => ?_
    refine (runStmts_lasts ?_ _ _ _).bind fun _ => trivial
    exact fun _ proc values w => ih hTop (by omega) proc values w

/-! ### More fuel -/

/-- Where `x` is cut off for want of fuel `y` may be anything, and otherwise they agree. -/
def CutOrEq {α : Type} (x y : Except Halt α) : Prop := x = .error .outOfFuel ∨ x = y

section

variable {α : Type} {x y : Except Halt α} {a : α}

theorem CutOrEq.ne_overflow_left (h : CutOrEq x y) (hy : y = .ok a) : x ≠ .error .overflow := by
  rcases h with rfl | rfl <;> simp_all

theorem CutOrEq.ne_overflow_right (h : CutOrEq x y) (hx : x = .ok a) : y ≠ .error .overflow := by
  rcases h with rfl | rfl <;> simp_all

end

theorem congruent_cutOrEq : Congruent fun _ => CutOrEq where
  ok _ := .inr rfl
  overflow := .inr rfl
  bind := by
    rintro α β x y f g (rfl | rfl) hf
    · exact .inl rfl
    · cases x with
      | ok a => exact hf a
      | error e => exact .inr rfl

/-- More fuel changes nothing but a run that was cut short. -/
theorem runProc_cutOrEq (hFuel : fuel ≤ fuel') (proc : ProcDecl) (values : List Nat) (live : Nat)
    (w : World) :
    CutOrEq (runProc program start fuel proc values live w)
      (runProc program start fuel' proc values live w) := by
  induction fuel generalizing fuel' proc values live w with
  | zero => exact .inl rfl
  | succ fuel ih =>
    obtain ⟨more, rfl⟩ := Nat.exists_eq_add_of_lt hFuel
    refine congruent_cutOrEq.fits fun _ => congruent_cutOrEq.bind ?_ fun _ => .inr rfl
    exact congruent_cutOrEq.runStmts
      (fun _ proc values w => ih (Nat.le_add_right _ _) proc values _ w) _ _ _

theorem runCall_cutOrEq (hFuel : fuel ≤ fuel') (name : String) (args : List Expr) (w : World)
    (locals : Store) :
    CutOrEq (runCall program (runProc program start fuel) vars live name args w locals)
      (runCall program (runProc program start fuel') vars live name args w locals) :=
  congruent_cutOrEq.runCall (fun _ proc values w => runProc_cutOrEq hFuel proc values _ w) name args
    w locals

/-- One run of the call that ends shows that the stack is high enough for it. -/
theorem runCall_ne_overflow {name : String} {args : List Expr} {w w' : World} {locals : Store}
    (h : runCall program (runProc program start fuel) vars live name args w locals = .ok w')
    (fuel' : Nat) :
    runCall program (runProc program start fuel') vars live name args w locals ≠
      .error .overflow := by
  rcases Nat.le_total fuel fuel' with hFuel | hFuel
  · exact (runCall_cutOrEq hFuel name args w locals).ne_overflow_right h
  · exact (runCall_cutOrEq hFuel name args w locals).ne_overflow_left h

end

end ChipPascal
