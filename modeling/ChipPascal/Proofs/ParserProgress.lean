import ChipPascal.Proofs.Recovery
import Mathlib.Data.List.Forall2
import Mathlib.Logic.Relation

/-!
# The parser goes on

Whatever the tokens are, reading a program is a run of three kinds of moves: a token is read, a
token is skipped after an error, or the token that comes next is complained about. No move goes
back, so complaints come in the order of the tokens.

Complaints are paid for with tokens: behind whatever could be read, and behind whatever was given up
after its first token, more tokens lie than complaints were made about them. Every round of the
loops over declarations and statements passes a token, so no round makes more complaints than it can
pay.
-/

namespace ChipPascal

namespace Cursor

variable {s t u v : Cursor}

/-! ### Moves -/

inductive Move : Cursor → Cursor → Prop
  | read {s : Cursor} {token : Token} {rest : List Token} (h : s.rest = token :: rest) :
      Move s { s with rest := rest, last := token.span }
  | skip {s : Cursor} {token : Token} {rest : List Token} (h : s.rest = token :: rest) :
      Move s { s with rest := rest }
  | complain (s : Cursor) (what : String) : Move s (s.report (s.unexpected what))

def Run : Cursor → Cursor → Prop := Relation.ReflTransGen Move

theorem Run.refl (s : Cursor) : Run s s := Relation.ReflTransGen.refl

theorem Run.trans (h : Run s t) (h' : Run t u) : Run s u := Relation.ReflTransGen.trans h h'

theorem Run.move (h : Run s t) (h' : Move t u) : Run s u := Relation.ReflTransGen.tail h h'

/-- What every move preserves holds along a run. -/
theorem Run.invariant {I : Cursor → Prop} (hMove : ∀ t u, I t → Move t u → I u) (h : Run s t)
    (hs : I s) : I t := by
  induction h with
  | refl => exact hs
  | tail _ hLast ih => exact hMove _ _ ih hLast

theorem Run.le (h : Run s t) : t ≤ s := by
  refine h.invariant (I := (· ≤ s)) (fun t u hle hMove => ?_) (le_refl s)
  cases hMove with
  | read h => exact le_trans (le_def.mpr (h ▸ List.suffix_cons _ _)) hle
  | skip h => exact le_trans (le_def.mpr (h ▸ List.suffix_cons _ _)) hle
  | complain => exact hle

theorem run_next {step : Step s} (h : s.next? = some step) : Run s step.left := by
  obtain ⟨rest, size, last, errors⟩ := s
  cases rest with
  | nil => simp [next?] at h
  | cons token rest =>
    simp only [next?, Option.some.injEq] at h
    subst h
    exact (Run.refl _).move (.read rfl)

theorem run_skip {rest : List Token} (h : rest <:+ s.rest) : Run s { s with rest := rest } := by
  obtain ⟨skipped, hSkipped⟩ := h
  induction skipped generalizing s with
  | nil =>
    obtain rfl := hSkipped
    exact .refl s
  | cons token skipped ih =>
    have hMove : Move s { s with rest := skipped ++ rest } := .skip hSkipped.symm
    exact ((Run.refl s).move hMove).trans (ih rfl)

/-- Recovering is a run: it complains, then skips. -/
theorem run_recover (s : Cursor) (what : String) : Run s (s.recover (s.unexpected what)) :=
  ((Run.refl s).move (.complain s what)).trans (run_skip (resume_suffix s.rest))

/-! ### Complaints are paid for -/

def weight (s : Cursor) : Nat := s.rest.length + s.errors.length

/-- There are at most as many complaints between `s` and `t` as tokens. -/
structure Covered (s t : Cursor) : Prop where
  run : Run s t
  weight : t.weight ≤ s.weight

/-- Nothing happens between `s` and `t`, or there are fewer complaints than tokens. -/
def Onward (s t : Cursor) : Prop := t = s ∨ Run s t ∧ t.weight < s.weight

theorem Covered.refl (s : Cursor) : Covered s s := ⟨.refl s, Nat.le_refl _⟩

theorem Covered.trans (h : Covered s t) (h' : Covered t u) : Covered s u :=
  ⟨h.run.trans h'.run, Nat.le_trans h'.weight h.weight⟩

theorem Onward.refl (s : Cursor) : Onward s s := .inl rfl

theorem Onward.covered (h : Onward s t) : Covered s t := by
  rcases h with rfl | ⟨hRun, hWeight⟩
  · exact .refl t
  · exact ⟨hRun, Nat.le_of_lt hWeight⟩

/-- Each token that is passed makes the cursor lighter. -/
theorem Onward.weight_lt (h : Onward s t) (lt : t < s) : t.weight < s.weight := by
  rcases h with rfl | ⟨-, hWeight⟩
  · exact absurd (length_lt lt) (Nat.lt_irrefl _)
  · exact hWeight

theorem Onward.trans (h : Onward s t) (h' : Onward t u) : Onward s u := by
  rcases h with rfl | ⟨hRun, hWeight⟩
  · exact h'
  · exact .inr ⟨hRun.trans h'.covered.run, Nat.lt_of_le_of_lt h'.covered.weight hWeight⟩

/-- What is passed between `s` and `t` also pays for the complaints behind `t`. -/
theorem Onward.trans_covered (h : Onward s t) (lt : t < s) (h' : Covered t u) : Onward s u :=
  .inr ⟨h.covered.run.trans h'.run, Nat.lt_of_le_of_lt h'.weight (h.weight_lt lt)⟩

theorem onward_next {step : Step s} (h : s.next? = some step) : Onward s step.left := by
  refine .inr ⟨run_next h, ?_⟩
  obtain ⟨hReached, hErrors⟩ := advances_next h
  simp [weight, hReached.rest, hErrors]

theorem onward_accept {kind : TokenKind} {left : { t : Cursor // t < s }}
    (h : s.accept kind = some left) : Onward s left.val := by
  simp only [accept] at h
  split at h
  · cases h
  · next token u lt hNext =>
    split at h
    · cases h
      exact onward_next hNext
    · cases h

/-- A complaint weighs one. -/
theorem weight_recover_le (s : Cursor) (e : Error) : (s.recover e).weight ≤ s.weight + 1 := by
  have := (resume_suffix s.rest).length_le
  simp only [weight, recover, List.length_cons]
  omega

/-- Recovery behind something that was read. -/
theorem Onward.recover (h : Onward s t) (lt : t < s) (what : String) :
    Covered s (t.recover (t.unexpected what)) := by
  have := weight_recover_le t (t.unexpected what)
  have := h.weight_lt lt
  exact ⟨h.covered.run.trans (run_recover t what), by omega⟩

/-- Recovery from a failure at a token that can be skipped. -/
theorem Onward.recover_skipping (h : Onward s t) (hEnd : s.kind ≠ .endKw) (hEof : s.kind ≠ .eof)
    (what : String) : Covered s (t.recover (t.unexpected what)) := by
  refine ⟨h.covered.run.trans (run_recover t what), ?_⟩
  rcases h with rfl | ⟨-, hWeight⟩
  · have := length_lt (recover_lt (le_refl t) (t.unexpected what) hEnd hEof)
    simp only [weight, Cursor.recover, List.length_cons] at this ⊢
    omega
  · have := weight_recover_le t (t.unexpected what)
    omega

end Cursor

namespace Reply

variable {α β : Type} {s t u : Cursor} {r : Reply α u}

theorem Stays.map {P : Cursor → Prop} (hr : r.Stays P) (f : α → β) : (r.map f).Stays P := by
  cases r <;> exact hr

theorem Stays.imp {P Q : Cursor → Prop} (hr : r.Stays P) (h : ∀ v, P v → Q v) : r.Stays Q := by
  cases r with
  | done a v lt => exact h v hr
  | fail e v le => exact ⟨h v hr.1, hr.2⟩

theorem Stays.after (h : s.Onward t) (hr : r.Stays t.Onward) : r.Stays s.Onward :=
  hr.imp fun _ => h.trans

end Reply

namespace Cursor

open Reply

variable {s t : Cursor}

theorem stays_expectAs (s : Cursor) (kind : TokenKind) (what : String) :
    (s.expectAs kind what).Stays s.Onward := by
  unfold expectAs
  split
  · exact stays_reject (.refl s)
  · next token left lt hNext =>
    split
    · exact onward_next hNext
    · exact stays_reject (.refl s)

theorem stays_expect (s : Cursor) (kind : TokenKind) : (s.expect kind).Stays s.Onward :=
  stays_expectAs s kind _

mutual

/-- Reading an operand goes on, whether it succeeds or fails, by induction on the cursor. -/
theorem stays_readOperand (s : Cursor) : s.readOperand.Stays s.Onward := by
  rw [readOperand]
  split
  · exact stays_reject (.refl s)
  · next t s₁ h₁ hNext =>
    have hLess := length_lt h₁
    have hs₁ := onward_next hNext
    split
    · exact ((stays_readOperand s₁).after hs₁).andThen fun _ _ _ hs₂ => hs₂
    · exact ((stays_readOperand s₁).after hs₁).andThen fun _ _ _ hs₂ => hs₂
    · exact hs₁
    · exact hs₁
    · refine ((stays_readBinary s₁ 0).after hs₁).andThen fun e s₂ _ hs₂ => ?_
      exact ((stays_expect s₂ _).after hs₂).andThen fun _ _ _ hs₃ => hs₃
    · exact stays_reject (.refl s)
termination_by 2 * s.rest.length
decreasing_by all_goals omega

theorem stays_readBinary (s : Cursor) (least : Nat) : (s.readBinary least).Stays s.Onward := by
  rw [readBinary]
  refine (stays_readOperand s).andThen fun e t lt ht => ?_
  have hLess := length_lt lt
  exact stays_readOperators ht lt least e
termination_by 2 * s.rest.length + 1
decreasing_by all_goals omega

theorem stays_readOperators {s t : Cursor} (ht : s.Onward t) (lt : t < s) (least : Nat)
    (left : Expr) : (t.readOperators s lt least left).Stays s.Onward := by
  rw [readOperators]
  split
  · exact ht
  · next token t₁ h₁ hNext =>
    have ht₁ := ht.trans (onward_next hNext)
    have hLess₁ := length_lt h₁
    split
    · exact ht
    · split
      · exact ht
      · refine ((stays_readBinary t₁ _).after ht₁).andThen fun right t₂ h₂ ht₂ => ?_
        have hLess₂ := length_lt h₂
        exact stays_readOperators ht₂ _ least _
termination_by 2 * t.rest.length
decreasing_by all_goals omega

end

theorem stays_readArgs (ht : s.Onward t) (lt : t < s) (found : List Expr) :
    (t.readArgs s lt found).Stays s.Onward := by
  fun_induction readArgs t s lt found with
  | case1 t lt found ih =>
    refine ((stays_readBinary t 0).after ht).andThen fun arg t₁ h₁ ht₁ => ?_
    split
    · next t₂ h₂ hComma => exact ih arg t₁ h₁ t₂ h₂ (ht₁.trans (onward_accept hComma))
    · exact ht₁

theorem stays_readCall (ht : s.Onward t) (lt : t < s) (name : Ident) :
    (t.readCall s lt name).Stays s.Onward := by
  unfold readCall
  split
  · exact ht
  · next t₁ h₁ hOpen =>
    have ht₁ := onward_accept hOpen
    split
    · next t₂ h₂ hClose => exact ht.trans (ht₁.trans (onward_accept hClose))
    · refine ((stays_readArgs ht₁ h₁ []).after ht).andThen fun args t₂ _ ht₂ => ?_
      exact ((stays_expect t₂ _).after ht₂).andThen fun _ _ _ ht₃ => ht₃

mutual

theorem stays_readStmt (s : Cursor) : s.readStmt.Stays s.Onward := by
  rw [readStmt]
  split
  · exact stays_reject (.refl s)
  · next t s₁ h₁ hNext =>
    have hLess₁ := length_lt h₁
    have hs₁ := onward_next hNext
    split
    · exact Stays.map (stays_readStmts hs₁ h₁ t.span []) _
    · refine ((stays_readBinary s₁ 0).after hs₁).andThen fun cond s₂ h₂ hs₂ => ?_
      refine ((stays_expect s₂ _).after hs₂).andThen fun _ s₃ h₃ hs₃ => ?_
      have hLess₃ := length_lt (lt_trans h₃ h₂)
      refine ((stays_readStmt s₃).after hs₃).andThen fun yes s₄ h₄ hs₄ => ?_
      dsimp only
      split
      · exact hs₄
      · next s₅ h₅ hElse =>
        have hLess₅ := length_lt (lt_trans h₅ h₄)
        have hs₅ := hs₄.trans (onward_accept hElse)
        exact ((stays_readStmt s₅).after hs₅).andThen fun _ _ _ hs₆ => hs₆
    · split
      · exact stays_readCall hs₁ h₁ _
      · next s₂ h₂ hBecomes =>
        have hs₂ := hs₁.trans (onward_accept hBecomes)
        exact ((stays_readBinary s₂ 0).after hs₂).andThen fun _ _ _ hs₃ => hs₃
    · exact stays_reject (.refl s)
termination_by 2 * s.rest.length
decreasing_by all_goals omega

/-- Each round over the statements of a block pays for its complaint with the tokens it skips. -/
theorem stays_readStmts {s t : Cursor} (ht : s.Onward t) (lt : t < s) (start : Span)
    (found : List Stmt) : (t.readStmts s lt start found).Stays s.Onward := by
  rw [readStmts]
  split
  · exact ((stays_expect t _).after ht).andThen fun _ _ _ ht₁ => ht₁
  · next hClose =>
    have hRead := stays_readStmt t
    split
    · next e t₁ h₁ hFail =>
      rw [hFail] at hRead
      obtain ⟨ht₁, what, rfl⟩ := hRead
      have hLess := length_lt
        (recover_lt h₁ (t₁.unexpected what) (fun k => hClose (.inl k)) fun k => hClose (.inr k))
      have hNext := ht₁.recover_skipping (fun k => hClose (.inl k)) (fun k => hClose (.inr k)) what
      exact stays_readStmts (ht.trans_covered lt hNext) _ start found
    · next stmt t₁ h₁ hDone =>
      rw [hDone] at hRead
      have hLess₁ := length_lt h₁
      split
      · next t₂ h₂ hSemicolon =>
        have hLess₂ := length_lt h₂
        exact stays_readStmts (ht.trans (hRead.trans (onward_accept hSemicolon))) _ start _
      · split
        · exact stays_readStmts (ht.trans hRead) _ start _
        · have hLess := (recover_le t₁ (t₁.unexpected TokenKind.semicolon.describe)).length_le
          have hNext := hRead.recover h₁ TokenKind.semicolon.describe
          exact stays_readStmts (ht.trans_covered lt hNext) _ start _
termination_by 2 * t.rest.length + 1
decreasing_by all_goals omega

end

theorem stays_readBlock (s : Cursor) : s.readBlock.Stays s.Onward :=
  (stays_expect s .beginKw).andThen fun t _ h₁ hs₁ => stays_readStmts hs₁ h₁ t.span []

theorem stays_readIdent (s : Cursor) : s.readIdent.Stays s.Onward := (stays_expect s .ident).map _

theorem stays_readTyped (s : Cursor) (isConst : Bool) : (s.readTyped isConst).Stays s.Onward := by
  refine (stays_readIdent s).andThen fun name s₁ _ hs₁ => ?_
  refine ((stays_expect s₁ _).after hs₁).andThen fun _ s₂ _ hs₂ => ?_
  exact ((stays_expectAs s₂ _ _).after hs₂).andThen fun _ _ _ hs₃ => hs₃

theorem stays_readVarDecl (s : Cursor) (isConst : Bool) :
    (s.readVarDecl isConst).Stays s.Onward := by
  refine (stays_readTyped s isConst).andThen fun decl s₁ _ hs₁ => ?_
  exact ((stays_expect s₁ _).after hs₁).andThen fun _ _ _ hs₂ => hs₂

theorem stays_readVarDecls (ht : s.Onward t) (lt : t < s) (isConst : Bool)
    (found : List VarDecl) : (t.readVarDecls s lt isConst found).Stays s.Onward := by
  fun_induction readVarDecls t s lt isConst found with
  | case1 t lt found _ ih =>
    exact ((stays_readVarDecl t isConst).after ht).andThen fun decl t₁ h₁ ht₁ => ih decl t₁ h₁ ht₁
  | case2 t lt found _ => exact ht

theorem stays_readSection (s : Cursor) : s.readSection.Stays s.Onward := by
  unfold readSection
  split
  · exact stays_reject (.refl s)
  · next token s₁ h₁ hNext =>
    refine ((stays_readVarDecl s₁ _).after (onward_next hNext)).andThen fun decl s₂ _ hs₂ => ?_
    exact stays_readVarDecls hs₂ _ _ [decl]

theorem stays_readLocals (ht : s.Onward t) (lt : t < s) (found : List VarDecl) :
    (t.readLocals s lt found).Stays s.Onward := by
  fun_induction readLocals t s lt found with
  | case1 t lt found _ ih =>
    exact ((stays_readSection t).after ht).andThen fun decls t₁ h₁ ht₁ => ih decls t₁ h₁ ht₁
  | case2 t lt found _ => exact ht

theorem stays_readParams (ht : s.Onward t) (lt : t < s) (found : List VarDecl) :
    (t.readParams s lt found).Stays s.Onward := by
  fun_induction readParams t s lt found with
  | case1 t lt found ih =>
    refine ((stays_readTyped t false).after ht).andThen fun param t₁ h₁ ht₁ => ?_
    split
    · next t₂ h₂ hNext => exact ih param t₁ h₁ t₂ h₂ (ht₁.trans (onward_accept hNext))
    · exact ht₁

theorem stays_readParamList (ht : s.Onward t) (lt : t < s) :
    (t.readParamList s lt).Stays s.Onward := by
  unfold readParamList
  split
  · exact ht
  · next t₁ h₁ hOpen =>
    have ht₁ := onward_accept hOpen
    refine Stays.andThen (P := s.Onward) ?_ fun params t₂ _ ht₂ => ?_
    · split
      · exact (stays_readParams ht₁ h₁ []).after ht
      · exact ht.trans ht₁
    · exact ((stays_expect t₂ _).after ht₂).andThen fun _ _ _ ht₃ => ht₃

theorem stays_readProc (s : Cursor) : s.readProc.Stays s.Onward := by
  unfold readProc
  refine (stays_expect s _).andThen fun _ s₁ _ hs₁ => ?_
  refine ((stays_readIdent s₁).after hs₁).andThen fun name s₂ _ hs₂ => ?_
  refine (stays_readParamList hs₂ _).andThen fun params s₃ _ hs₃ => ?_
  refine ((stays_expect s₃ _).after hs₃).andThen fun _ s₄ _ hs₄ => ?_
  refine (stays_readLocals hs₄ _ []).andThen fun locals s₅ _ hs₅ => ?_
  refine ((stays_readBlock s₅).after hs₅).andThen fun body s₆ _ hs₆ => ?_
  split
  · next s₇ _ hLast => exact hs₆.trans (onward_accept hLast)
  · exact hs₆

theorem stays_readDecl (s : Cursor) : s.readDecl.Stays s.Onward := by
  unfold readDecl
  split
  · exact (stays_readSection s).map _
  · exact (stays_readSection s).map _
  · exact (stays_readProc s).map _
  · exact stays_reject (.refl s)

/-! ### Rounds of the loops -/

/-- One round of the loop over declarations: what it finds and where it ends. There is none where
the loop is over. -/
def declRound? (s : Cursor) : Option (List Decl × Cursor) :=
  if s.kind = .beginKw ∨ s.kind = .endKw ∨ s.kind = .eof then none
  else
    match s.readDecl with
    | .done decls t _ => some (decls, t)
    | .fail e t _ => some ([], t.recover e)

def stmtRound? (s : Cursor) : Option (Option Stmt × Cursor) :=
  if s.kind = .endKw ∨ s.kind = .eof then none
  else
    match s.readStmt with
    | .fail e t _ => some (none, t.recover e)
    | .done stmt t _ =>
      match t.accept .semicolon with
      | some ⟨u, _⟩ => some (some stmt, u)
      | none =>
        if t.kind = .endKw then some (some stmt, t)
        else some (some stmt, t.recover (t.unexpected TokenKind.semicolon.describe))

theorem readDecls_of_end (h : s.declRound? = none) (found : List Decl) :
    s.readDecls found = (found, s) := by
  unfold declRound? at h
  split at h
  · next hStop => rw [readDecls, dif_pos hStop]
  · split at h <;> cases h

/-- The loop over declarations, one round at a time. -/
theorem readDecls_of_round {decls : List Decl} (h : s.declRound? = some (decls, t))
    (found : List Decl) : s.readDecls found = t.readDecls (found ++ decls) := by
  unfold declRound? at h
  split at h
  · cases h
  · next hStop =>
    rw [readDecls, dif_neg hStop]
    cases hRead : s.readDecl with
    | done more u lt =>
      rw [hRead] at h
      cases h
      rfl
    | fail e u le =>
      rw [hRead] at h
      cases h
      rw [List.append_nil]

/-- A round of the loop over declarations passes at least one token, and pays for its complaint. -/
theorem covered_declRound {decls : List Decl} (h : s.declRound? = some (decls, t)) :
    t < s ∧ s.Covered t := by
  unfold declRound? at h
  split at h
  · cases h
  · next hStop =>
    have hEnd : s.kind ≠ .endKw := fun k => hStop (.inr (.inl k))
    have hEof : s.kind ≠ .eof := fun k => hStop (.inr (.inr k))
    have hRead := stays_readDecl s
    split at h
    · next lt hDone =>
      rw [hDone] at hRead
      cases h
      exact ⟨lt, Onward.covered hRead⟩
    · next e u le hFail =>
      rw [hFail] at hRead
      obtain ⟨hu, what, rfl⟩ := hRead
      cases h
      exact ⟨recover_lt le _ hEnd hEof, hu.recover_skipping hEnd hEof what⟩

theorem readStmts_of_end (h : t.stmtRound? = none) (lt : t < s) (start : Span)
    (found : List Stmt) :
    t.readStmts s lt start found =
      (t.expect .endKw).andThen (le_of_lt lt) fun close u lt' =>
        .done ⟨found.reverse, start.cover close.span⟩ u (lt_trans lt' lt) := by
  unfold stmtRound? at h
  split at h
  · next hClose => rw [readStmts, dif_pos hClose]
  · split at h
    · cases h
    · split at h
      · cases h
      · split at h <;> cases h

theorem readStmts_of_round {stmt : Option Stmt} {u : Cursor} (h : t.stmtRound? = some (stmt, u))
    (lt : t < s) (start : Span) (found : List Stmt) :
    ∃ lt', t.readStmts s lt start found = u.readStmts s lt' start (stmt.toList ++ found) := by
  unfold stmtRound? at h
  split at h
  · cases h
  · next hClose =>
    split at h
    · next hFail =>
      cases h
      exact readStmts_of_fail hFail hClose lt start found
    · next t₁ h₁ hDone =>
      rw [readStmts, dif_neg hClose]
      split at h
      · next hSemicolon =>
        cases h
        exact ⟨_, by simp only [hDone, hSemicolon]; rfl⟩
      · next hSemicolon =>
        split at h
        · next hEnd =>
          cases h
          exact ⟨lt_trans h₁ lt, by simp only [hDone, hSemicolon, if_pos hEnd]; rfl⟩
        · next hEnd =>
          cases h
          exact ⟨lt_of_le_of_lt (recover_le t₁ _) (lt_trans h₁ lt),
            by simp only [hDone, hSemicolon, if_neg hEnd]; rfl⟩

/-- A round of the loop over statements passes at least one token, and pays for its complaint. -/
theorem covered_stmtRound {stmt : Option Stmt} (h : s.stmtRound? = some (stmt, t)) :
    t < s ∧ s.Covered t := by
  unfold stmtRound? at h
  split at h
  · cases h
  · next hClose =>
    have hEnd : s.kind ≠ .endKw := fun k => hClose (.inl k)
    have hEof : s.kind ≠ .eof := fun k => hClose (.inr k)
    have hRead := stays_readStmt s
    split at h
    · next e u le hFail =>
      rw [hFail] at hRead
      obtain ⟨hu, what, rfl⟩ := hRead
      cases h
      exact ⟨recover_lt le _ hEnd hEof, hu.recover_skipping hEnd hEof what⟩
    · next stmt' u lt hDone =>
      rw [hDone] at hRead
      have hu : s.Onward u := hRead
      split at h
      · next v lt' hSemicolon =>
        cases h
        exact ⟨lt_trans lt' lt, (hu.trans (onward_accept hSemicolon)).covered⟩
      · split at h
        · cases h
          exact ⟨lt, hu.covered⟩
        · cases h
          exact ⟨lt_of_le_of_lt (recover_le u _) lt, hu.recover lt _⟩

/-! ### Programs -/

/-- All rounds over declarations together complain no more often than they pass tokens. -/
theorem covered_readDecls (s : Cursor) (found : List Decl) : s.Covered (s.readDecls found).2 := by
  fun_induction readDecls s found with
  | case1 s found hStop => exact .refl s
  | case2 s found hStop decls s₁ h₁ hRead ih =>
    have hRound : s.declRound? = some (decls, s₁) := by simp [declRound?, hStop, hRead]
    exact (covered_declRound hRound).2.trans ih
  | case3 s found hStop e s₁ h₁ hRead hNext ih =>
    have hRound : s.declRound? = some ([], s₁.recover e) := by simp [declRound?, hStop, hRead]
    exact (covered_declRound hRound).2.trans ih

theorem covered_readHeader (s : Cursor) : s.Covered s.readHeader.2 := by
  unfold readHeader
  split
  · exact .refl s
  · next s₁ h₁ hProgram =>
    have hs₁ := onward_accept hProgram
    have hHeader : (s₁.readIdent.andThen (le_refl s₁) fun name s₂ h₂ =>
        (s₂.expect .semicolon).andThen (le_of_lt h₂) fun _ s₃ h₃ =>
          (.done name s₃ (lt_trans h₃ h₂) : Reply Ident s₁)).Stays s.Onward := by
      refine ((stays_readIdent s₁).after hs₁).andThen fun name s₂ _ hs₂ => ?_
      exact ((stays_expect s₂ _).after hs₂).andThen fun _ _ _ hs₃ => hs₃
    dsimp only
    split
    · next name s₂ h₂ hDone =>
      rw [hDone] at hHeader
      exact Onward.covered hHeader
    · next e s₂ h₂ hFail =>
      rw [hFail] at hHeader
      obtain ⟨hs₂, what, rfl⟩ := hHeader
      exact hs₂.recover (lt_of_le_of_lt h₂ h₁) what

/-- A reading that fails and is reported adds the one report to what its start weighs. -/
theorem run_report {s u v : Cursor} {e : Error} (hu : s.Run u)
    (hFail : u.Onward v ∧ ∃ what, e = v.unexpected what) :
    s.Run (v.report e) ∧ (v.report e).weight ≤ u.weight + 1 := by
  obtain ⟨hv, what, rfl⟩ := hFail
  refine ⟨(hu.trans hv.covered.run).move (.complain v what), ?_⟩
  have := hv.covered.weight
  simp only [weight, report, List.length_cons] at this ⊢
  omega

/-- All complaints but the last two are paid for: those that the body or the dot behind it is
missing. -/
theorem run_readProgram (s : Cursor) :
    s.Run s.readProgram.2 ∧ s.readProgram.2.weight ≤ s.weight + 2 := by
  have hHeader := covered_readHeader s
  have hDecls := hHeader.trans (covered_readDecls s.readHeader.2 [])
  unfold readProgram
  dsimp only
  generalize s.readHeader.2.readDecls [] = decls at hDecls ⊢
  have hBlock := stays_readBlock decls.2
  have hDeclsWeight := hDecls.weight
  cases hRead : decls.2.readBlock with
  | done body u lt =>
    rw [hRead] at hBlock
    have hu := hDecls.trans (Onward.covered hBlock)
    have hDot := stays_expect u .dot
    cases hExpect : u.expect .dot with
    | done _ v _ =>
      rw [hExpect] at hDot
      have hv := hu.trans (Onward.covered hDot)
      exact ⟨hv.run, Nat.le_add_right_of_le hv.weight⟩
    | fail e v _ =>
      rw [hExpect] at hDot
      have hv := run_report hu.run hDot
      exact ⟨hv.1, Nat.le_trans hv.2 (by have := hu.weight; omega)⟩
  | fail e u le =>
    rw [hRead] at hBlock
    have hu := run_report hDecls.run hBlock
    have hDot := stays_expect (u.report e) .dot
    cases hExpect : (u.report e).expect .dot with
    | done _ v _ =>
      rw [hExpect] at hDot
      have hv := Onward.covered hDot
      exact ⟨hu.1.trans hv.run, Nat.le_trans hv.weight (by omega)⟩
    | fail e' v _ =>
      rw [hExpect] at hDot
      have hv := run_report hu.1 hDot
      exact ⟨hv.1, Nat.le_trans hv.2 (by omega)⟩

/-! ### Positions -/

/-- The cursor before the first of `tokens`, with the end mark of a text of `size` bytes behind the
last. -/
def before (tokens : List Token) (size : Nat) : Cursor := ⟨tokens, size, .nowhere, []⟩

def position (tokens : List Token) (s : Cursor) : Nat := tokens.length - s.rest.length

def ComplainsAt (tokens : List Token) (place : Nat) (e : Error) : Prop :=
  ∃ what token, tokens[place]? = some token ∧ e = .unexpectedToken what token.quoted token.span

/-- The cursor stands among `tokens`, or before the end mark, and has complained about tokens behind
it or about the next one, in their order. -/
structure Among (tokens : List Token) (size : Nat) (s : Cursor) : Prop where
  rest : s.rest <:+ tokens
  mark : s.size = size
  complaints : ∃ places : List Nat, places.Pairwise (· ≥ ·) ∧
    (∀ place ∈ places, place ≤ s.position tokens) ∧
    List.Forall₂ (ComplainsAt (tokens ++ [.endOfFile size])) places s.errors

variable {tokens : List Token} {size : Nat}

theorem among_before (tokens : List Token) (size : Nat) : Among tokens size (before tokens size) :=
  ⟨List.suffix_refl _, rfl, [], .nil, by simp, .nil⟩

theorem Among.current (h : Among tokens size s) :
    (tokens ++ [.endOfFile size])[s.position tokens]? = some s.current := by
  obtain ⟨⟨passed, hPassed⟩, hSize, -⟩ := h
  have hPosition : s.position tokens = passed.length := by
    simp [position, ← hPassed]
  rw [hPosition, ← hPassed, List.append_assoc, List.getElem?_append_right (Nat.le_refl _),
    Nat.sub_self, Cursor.current, hSize]
  cases s.rest <;> rfl

theorem position_le_of_le (h : t ≤ s) (tokens : List Token) :
    s.position tokens ≤ t.position tokens :=
  Nat.sub_le_sub_left h.length_le _

theorem Move.le (h : Move s t) : t ≤ s := ((Run.refl s).move h).le

/-- A move stays among the tokens, and complains where it stands. -/
theorem Among.move (h : Among tokens size s) (hMove : Move s t) : Among tokens size t := by
  obtain ⟨places, hOrder, hPassed, hComplaints⟩ := h.complaints
  have hBehind : ∀ place ∈ places, place ≤ t.position tokens := fun place hPlace =>
    Nat.le_trans (hPassed place hPlace) (position_le_of_le hMove.le tokens)
  refine ⟨List.IsSuffix.trans hMove.le h.rest, ?_, ?_⟩
  · cases hMove <;> exact h.mark
  cases hMove with
  | read => exact ⟨places, hOrder, hBehind, hComplaints⟩
  | skip => exact ⟨places, hOrder, hBehind, hComplaints⟩
  | complain what =>
    refine ⟨s.position tokens :: places, .cons hPassed hOrder, ?_, .cons ?_ hComplaints⟩
    · exact List.forall_mem_cons.mpr ⟨Nat.le_refl _, hPassed⟩
    · exact ⟨what, s.current, h.current, rfl⟩

theorem Run.among (h : (before tokens size).Run s) : Among tokens size s :=
  h.invariant (fun _ _ => Among.move) (among_before tokens size)

end Cursor

/-- `e` starts no later in the text than `e'`. -/
def Error.StartsBy (e e' : Error) : Prop := ∀ a ∈ e.span?, ∀ b ∈ e'.span?, a.start ≤ b.start

namespace Cursor

/-- Complaints about tokens in order start in the order of the text, if the tokens do. -/
theorem pairwise_startsBy {all : List Token} {places : List Nat} {errors : List Error}
    (hAll : all.Pairwise fun t t' => t.span.start ≤ t'.span.start)
    (hPlaces : places.Pairwise (· ≤ ·)) (h : List.Forall₂ (ComplainsAt all) places errors) :
    errors.Pairwise Error.StartsBy := by
  have hStart : ∀ {place place' : Nat} {e e' : Error}, place ≤ place' → ComplainsAt all place e →
      ComplainsAt all place' e' → e.StartsBy e' := by
    rintro place place' _ _ hle ⟨what, token, hToken, rfl⟩ ⟨what', token', hToken', rfl⟩
    rintro _ ⟨rfl⟩ _ ⟨rfl⟩
    rcases Nat.lt_or_eq_of_le hle with hlt | rfl
    · obtain ⟨hPlace, rfl⟩ := List.getElem?_eq_some_iff.mp hToken
      obtain ⟨hPlace', rfl⟩ := List.getElem?_eq_some_iff.mp hToken'
      exact List.pairwise_iff_getElem.mp hAll _ _ hPlace hPlace' hlt
    · obtain rfl := Option.some.inj (hToken.symm.trans hToken')
      exact Nat.le_refl _
  obtain ⟨hLength, hEach⟩ := List.forall₂_iff_get.mp h
  refine List.pairwise_iff_getElem.mpr fun i j hi hj hij => ?_
  have hle := List.pairwise_iff_getElem.mp hPlaces i j (hLength ▸ hi) (hLength ▸ hj) hij
  exact hStart hle (hEach i (hLength ▸ hi) hi) (hEach j (hLength ▸ hj) hj)

/-- How a program is read from `tokens`, whatever they are. -/
structure ReadsOn (tokens : List Token) (size : Nat) : Prop where
  /-- Reading is a run of moves. -/
  run : (before tokens size).Run (before tokens size).readProgram.2
  /-- On the way there is always a token to look at, and no move goes back. -/
  inside : ∀ s, (before tokens size).Run s →
    (tokens ++ [.endOfFile size])[s.position tokens]? = some s.current ∧
      ∀ t, s.Move t → s.position tokens ≤ t.position tokens
  /-- Complaints are about tokens in their order. -/
  complaints : ∃ places : List Nat, places.Pairwise (· ≤ ·) ∧
    List.Forall₂ (ComplainsAt (tokens ++ [.endOfFile size])) places
      (before tokens size).readProgram.2.errors.reverse
  /-- If the tokens are in the order of the text, so are the complaints. -/
  sorted : (tokens ++ [Token.endOfFile size]).Pairwise (fun t t' => t.span.start ≤ t'.span.start) →
    (before tokens size).readProgram.2.errors.reverse.Pairwise Error.StartsBy
  /-- There is at most one complaint for each token, the end mark included, and one more. -/
  count : (before tokens size).readProgram.2.errors.length ≤
    (tokens ++ [Token.endOfFile size]).length + 1

/-- The loops over declarations and statements go round by round, and each round goes on by at least
one token. -/
structure RoundsGoOn : Prop where
  decls : ∀ (s t : Cursor) (decls : List Decl), s.declRound? = some (decls, t) →
    t < s ∧ s.Run t ∧ ∀ found, s.readDecls found = t.readDecls (found ++ decls)
  declsEnd : ∀ s : Cursor, s.declRound? = none → ∀ found, s.readDecls found = (found, s)
  stmts : ∀ (t u : Cursor) (stmt : Option Stmt), t.stmtRound? = some (stmt, u) →
    u < t ∧ t.Run u ∧ ∀ (s : Cursor) (lt : t < s) (start : Span) (found : List Stmt), ∃ lt',
      t.readStmts s lt start found = u.readStmts s lt' start (stmt.toList ++ found)
  stmtsEnd : ∀ t : Cursor, t.stmtRound? = none →
    ∀ (s : Cursor) (lt : t < s) (start : Span) (found : List Stmt),
      t.readStmts s lt start found = (t.expect .endKw).andThen (le_of_lt lt) fun close u lt' =>
        .done ⟨found.reverse, start.cover close.span⟩ u (lt_trans lt' lt)

/-- Complaints are made at places that never go back. -/
theorem exists_places (tokens : List Token) (size : Nat) :
    ∃ places : List Nat, places.Pairwise (· ≤ ·) ∧
      List.Forall₂ (ComplainsAt (tokens ++ [.endOfFile size])) places
        (before tokens size).readProgram.2.errors.reverse := by
  obtain ⟨places, hOrder, -, hComplaints⟩ :=
    (run_readProgram (before tokens size)).1.among.complaints
  exact ⟨places.reverse, List.pairwise_reverse.mpr hOrder, List.forall₂_reverse_iff.mpr hComplaints⟩

theorem readsOn (tokens : List Token) (size : Nat) : ReadsOn tokens size := by
  obtain ⟨hRun, hWeight⟩ := run_readProgram (before tokens size)
  obtain ⟨places, hOrder, hComplaints⟩ := exists_places tokens size
  refine ⟨hRun, fun s hs => ⟨hs.among.current, fun t hMove => position_le_of_le hMove.le tokens⟩,
    ⟨places, hOrder, hComplaints⟩, fun hTokens => pairwise_startsBy hTokens hOrder hComplaints, ?_⟩
  have hStart : (before tokens size).weight = tokens.length := rfl
  rw [hStart, weight] at hWeight
  rw [List.length_append, List.length_singleton]
  omega

theorem roundsGoOn : RoundsGoOn where
  decls _ _ _ h :=
    ⟨(covered_declRound h).1, (covered_declRound h).2.run, readDecls_of_round h⟩
  declsEnd _ h := readDecls_of_end h
  stmts _ _ _ h :=
    ⟨(covered_stmtRound h).1, (covered_stmtRound h).2.run, fun _ lt => readStmts_of_round h lt⟩
  stmtsEnd _ h _ lt := readStmts_of_end h lt

end Cursor

theorem pairwise_all_tokenize (source : String) :
    (tokenize source).all.Pairwise fun t t' => t.span.start ≤ t'.span.start := by
  refine List.pairwise_append.mpr ⟨?_, List.pairwise_singleton _ _, ?_⟩
  · exact (pairwise_tokenize source).imp Nat.le_of_lt
  · rintro t ht _ hEnd
    obtain rfl := List.mem_singleton.mp hEnd
    obtain ⟨-, rest, ⟨before, hText, hSpan⟩, -⟩ := stands_of_mem_tokenize ht
    have hSize : (tokenize source).size = byteLength source.toList := rfl
    rw [hText, byteLength_append] at hSize
    show t.span.start ≤ (tokenize source).size
    rw [hSpan, hSize]
    exact Nat.le_add_right _ _

/-- Whatever the tokens are, the parser goes from one to the next and never back, each round of its
loops passes a token, and it complains in the order of the tokens, at most once for each and once
more. The tokens of a text stand in order, so what is said about its grammar does too. -/
theorem parser_goes_on :
    (∀ tokens size, Cursor.ReadsOn tokens size) ∧ Cursor.RoundsGoOn ∧
    ∀ source, ∃ complaints, (parse source).2 = (tokenize source).errors ++ complaints ∧
      complaints.Pairwise Error.StartsBy ∧
      complaints.length ≤ (tokenize source).all.length + 1 := by
  refine ⟨Cursor.readsOn, Cursor.roundsGoOn, fun source => ⟨_, rfl, ?_, ?_⟩⟩
  · exact (Cursor.readsOn _ _).sorted (pairwise_all_tokenize source)
  · rw [List.length_reverse]
    exact (Cursor.readsOn _ _).count

end ChipPascal
