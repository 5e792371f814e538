import ChipPascal.Proofs.ParserCompleteness
import ChipPascal.Proofs.SourceTiling

/-!
# Recovery inside a block

Where the tokens between two semicolons of a block are no statement, and none of them is a word that
opens or closes a part of the program, the parser complains once and goes on behind them: the
statements before and after are read as if nothing were wrong.

No rule for a statement goes past a semicolon or an `end` that does not belong to it, so whatever
the tokens are, reading gives up among them or at what comes right behind.
-/

namespace ChipPascal

/-- The kinds of token at which reading resumes after an error. -/
def TokenKind.isBoundary : TokenKind → Bool
  | semicolon | beginKw | endKw | varKw | constKw | procedureKw => true
  | _ => false

def Token.IsPlain (t : Token) : Prop := t.kind.isBoundary = false ∧ t.kind ≠ .eof

def TokenKind.Closes (kind : TokenKind) : Prop := kind = .semicolon ∨ kind = .endKw

/-- A token that recovery skips ends no statement. -/
theorem Token.IsPlain.not_closes {t : Token} (h : t.IsPlain) : ¬ t.kind.Closes := by
  rintro (hKind | hKind) <;> simp [IsPlain, hKind, TokenKind.isBoundary] at h

namespace Reply

variable {α β : Type} {s t : Cursor} {P : Cursor → Prop}

/-- Reading ends where `P` holds, and if it fails it is the token there that was not expected. -/
def Stays (P : Cursor → Prop) : Reply α s → Prop
  | .done _ u _ => P u
  | .fail e u _ => P u ∧ ∃ what, e = u.unexpected what

theorem stays_reject {what : String} (h : P s) : (Reply.reject s what : Reply α s).Stays P :=
  ⟨h, what, rfl⟩

theorem Stays.andThen {r : Reply α t} {h : t ≤ s} {f : (a : α) → (u : Cursor) → u < t → Reply β s}
    (hr : r.Stays P) (hf : ∀ a u lt, P u → (f a u lt).Stays P) : (r.andThen h f).Stays P := by
  cases r with
  | done a u lt => exact hf a u lt hr
  | fail e u le => exact hr

end Reply

namespace Cursor

open Grammar Reply

variable {stop : List Token} {errors : List Error} {s t : Cursor}

def Stops (stop : List Token) : Prop := ∃ sep rest, stop = sep :: rest ∧ sep.kind.Closes

/-- Up to `stop` there are only tokens that recovery skips, and nothing has been complained about
since the errors given. -/
structure Ahead (stop : List Token) (errors : List Error) (s : Cursor) : Prop where
  rest : ∃ mid, s.rest = mid ++ stop ∧ ∀ t ∈ mid, Token.IsPlain t
  errors : s.errors = errors

/-! ### Reading up to the end of a statement -/

/-- A token that ends no statement comes before `stop`. -/
theorem Ahead.next (h : Ahead stop errors s) (hStop : Stops stop) {token : Token} {left : Cursor}
    {lt : left < s} (hNext : s.next? = some ⟨token, left, lt⟩) (hKind : ¬ token.kind.Closes) :
    token.IsPlain ∧ Ahead stop errors left := by
  obtain ⟨mid, hRest, hPlain⟩ := h.rest
  obtain ⟨hReached, hErrors⟩ := advances_next hNext
  have hSplit := hRest.symm.trans hReached.rest
  cases mid with
  | nil =>
    obtain ⟨sep, rest, rfl, hSep⟩ := hStop
    obtain ⟨rfl, -⟩ := List.cons.inj hSplit
    exact absurd hSep hKind
  | cons first mid =>
    obtain ⟨rfl, hLeft⟩ := List.cons.inj hSplit
    refine ⟨hPlain _ List.mem_cons_self, ⟨mid, hLeft.symm, fun t ht => ?_⟩, ?_⟩
    · exact hPlain t (List.mem_cons_of_mem _ ht)
    · rw [hErrors, h.errors]

theorem Ahead.accept (h : Ahead stop errors s) (hStop : Stops stop) {kind : TokenKind}
    (hKind : ¬ kind.Closes) {left : { t : Cursor // t < s }} (hAccept : s.accept kind = some left) :
    Ahead stop errors left.val := by
  simp only [Cursor.accept] at hAccept
  split at hAccept
  · cases hAccept
  · next token u lt hNext =>
    split at hAccept
    · next hToken =>
      cases hAccept
      exact (h.next hStop hNext (hToken ▸ hKind)).2
    · cases hAccept

theorem Ahead.expect (h : Ahead stop errors s) (hStop : Stops stop) {kind : TokenKind}
    (hKind : ¬ kind.Closes) : (s.expect kind).Stays (Ahead stop errors) := by
  unfold Cursor.expect expectAs
  split
  · exact stays_reject h
  · next token u lt hNext =>
    split
    · next hToken => exact (h.next hStop hNext (hToken ▸ hKind)).2
    · exact stays_reject h

mutual

/-- Reading an expression stays before `stop`, whether it succeeds or fails. -/
theorem Ahead.readOperand {s : Cursor} (h : Ahead stop errors s) (hStop : Stops stop) :
    s.readOperand.Stays (Ahead stop errors) := by
  rw [Cursor.readOperand]
  split
  · exact stays_reject h
  · next t s₁ h₁ hNext =>
    have hLess := length_lt h₁
    have hLeft (hKind : ¬ t.kind.Closes) := (h.next hStop hNext hKind).2
    split
    · next hKind =>
      exact ((hLeft (by simp [hKind, TokenKind.Closes])).readOperand hStop).andThen
        fun _ _ _ hu => hu
    · next hKind =>
      exact ((hLeft (by simp [hKind, TokenKind.Closes])).readOperand hStop).andThen
        fun _ _ _ hu => hu
    · next hKind => exact hLeft (by simp [hKind, TokenKind.Closes])
    · next hKind => exact hLeft (by simp [hKind, TokenKind.Closes])
    · next hKind =>
      refine ((hLeft (by simp [hKind, TokenKind.Closes])).readBinary hStop 0).andThen
        fun _ s₂ _ hs₂ => ?_
      exact (hs₂.expect hStop (by simp [TokenKind.Closes])).andThen fun _ _ _ hs₃ => hs₃
    · exact stays_reject h
termination_by 2 * s.rest.length
decreasing_by all_goals omega

theorem Ahead.readBinary {s : Cursor} (h : Ahead stop errors s) (hStop : Stops stop)
    (least : Nat) : (s.readBinary least).Stays (Ahead stop errors) := by
  rw [Cursor.readBinary]
  refine (h.readOperand hStop).andThen fun e t lt ht => ?_
  have hLess := length_lt lt
  exact ht.readOperators hStop lt least e
termination_by 2 * s.rest.length + 1
decreasing_by all_goals omega

theorem Ahead.readOperators {s t : Cursor} (h : Ahead stop errors t) (hStop : Stops stop)
    (lt : t < s) (least : Nat) (left : Expr) :
    (t.readOperators s lt least left).Stays (Ahead stop errors) := by
  rw [Cursor.readOperators]
  split
  · exact h
  · next token t₁ h₁ hNext =>
    split
    · exact h
    · next op hOp =>
      split
      · exact h
      · have hKind : ¬ token.kind.Closes := by
          rintro (hKind | hKind) <;> simp [hKind, TokenKind.binaryOp?] at hOp
        have hLess₁ := length_lt h₁
        refine ((h.next hStop hNext hKind).2.readBinary hStop _).andThen fun right t₂ h₂ ht₂ => ?_
        have hLess₂ := length_lt h₂
        exact ht₂.readOperators hStop _ least _
termination_by 2 * t.rest.length
decreasing_by all_goals omega

end

theorem Ahead.readArgs (h : Ahead stop errors t) (hStop : Stops stop) (lt : t < s)
    (found : List Expr) : (t.readArgs s lt found).Stays (Ahead stop errors) := by
  fun_induction Cursor.readArgs t s lt found with
  | case1 t lt found ih =>
    refine (h.readBinary hStop 0).andThen fun arg t₁ h₁ ht₁ => ?_
    split
    · next t₂ h₂ hComma =>
      exact ih arg t₁ h₁ t₂ h₂ (ht₁.accept hStop (by simp [TokenKind.Closes]) hComma)
    · exact ht₁

theorem Ahead.readCall (h : Ahead stop errors t) (hStop : Stops stop) (lt : t < s)
    (name : Ident) : (t.readCall s lt name).Stays (Ahead stop errors) := by
  unfold Cursor.readCall
  split
  · exact h
  · next t₁ h₁ hOpen =>
    have ht₁ := h.accept hStop (by simp [TokenKind.Closes]) hOpen
    split
    · next t₂ h₂ hClose => exact ht₁.accept hStop (by simp [TokenKind.Closes]) hClose
    · refine (ht₁.readArgs hStop h₁ []).andThen fun args t₂ h₂ ht₂ => ?_
      exact (ht₂.expect hStop (by simp [TokenKind.Closes])).andThen fun _ _ _ ht₃ => ht₃

/-- Reading a statement stays before `stop`. It would have to pass a token that ends statements to
get beyond. -/
theorem Ahead.readStmt {s : Cursor} (h : Ahead stop errors s) (hStop : Stops stop) :
    s.readStmt.Stays (Ahead stop errors) := by
  rw [Cursor.readStmt]
  split
  · exact stays_reject h
  · next t s₁ h₁ hNext =>
    have hLess₁ := length_lt h₁
    split
    -- there is no `begin` before `stop`
    · next hKind =>
      have hPlain := (h.next hStop hNext (by simp [hKind, TokenKind.Closes])).1
      simp [Token.IsPlain, hKind, TokenKind.isBoundary] at hPlain
    · next hKind =>
      have hs₁ := (h.next hStop hNext (by simp [hKind, TokenKind.Closes])).2
      refine (hs₁.readBinary hStop 0).andThen fun cond s₂ h₂ hs₂ => ?_
      refine (hs₂.expect hStop (by simp [TokenKind.Closes])).andThen fun _ s₃ h₃ hs₃ => ?_
      have hLess₃ := length_lt (lt_trans h₃ h₂)
      refine (hs₃.readStmt hStop).andThen fun yes s₄ h₄ hs₄ => ?_
      dsimp only
      split
      · exact hs₄
      · next s₅ h₅ hElse =>
        have hLess₅ := length_lt (lt_trans h₅ h₄)
        have hs₅ := hs₄.accept hStop (by simp [TokenKind.Closes]) hElse
        exact (hs₅.readStmt hStop).andThen fun _ _ _ hs₆ => hs₆
    · next hKind =>
      have hs₁ := (h.next hStop hNext (by simp [hKind, TokenKind.Closes])).2
      split
      · exact hs₁.readCall hStop h₁ _
      · next s₂ h₂ hBecomes =>
        have hs₂ := hs₁.accept hStop (by simp [TokenKind.Closes]) hBecomes
        exact (hs₂.readBinary hStop 0).andThen fun _ _ _ hs₃ => hs₃
    · exact stays_reject h
termination_by s.rest.length
decreasing_by all_goals omega

/-! ### Going on behind the end of a statement -/

theorem skipToBoundary_append {mid : List Token} (h : ∀ t ∈ mid, Token.IsPlain t)
    (stop : List Token) : skipToBoundary (mid ++ stop) = skipToBoundary stop := by
  induction mid with
  | nil => rfl
  | cons t mid ih =>
    obtain ⟨hBoundary, hEof⟩ := h t List.mem_cons_self
    have hSkip : skipToBoundary (t :: (mid ++ stop)) = skipToBoundary (mid ++ stop) := by
      rw [skipToBoundary]
      cases hKind : t.kind <;> simp_all [TokenKind.isBoundary]
    rw [List.cons_append, hSkip, ih fun u hu => h u (List.mem_cons_of_mem t hu)]

theorem skipToBoundary_of_stops (h : Stops stop) : skipToBoundary stop = resume stop := by
  obtain ⟨sep, rest, rfl, hSep | hSep⟩ := h <;> simp [skipToBoundary, resume, hSep]

/-- From among the tokens before `stop`, reading resumes as it does from there. -/
theorem resume_append {mid : List Token} (h : ∀ t ∈ mid, Token.IsPlain t) (hStop : Stops stop) :
    resume (mid ++ stop) = resume stop := by
  cases mid with
  | nil => rfl
  | cons t mid =>
    obtain ⟨hBoundary, hEof⟩ := h t List.mem_cons_self
    have hSkip : resume (t :: (mid ++ stop)) = skipToBoundary (mid ++ stop) := by
      rw [resume]
      cases hKind : t.kind <;> simp_all [TokenKind.isBoundary]
    rw [List.cons_append, hSkip, skipToBoundary_append fun u hu => h u (List.mem_cons_of_mem t hu),
      skipToBoundary_of_stops hStop]

/-- A cursor behind `t` and before `stop` stands among the tokens between them. -/
theorem Ahead.split {bad : List Token} {u : Cursor} (h : Ahead stop errors u) (hle : u ≤ t)
    (ht : t.rest = bad ++ stop) : ∃ pre mid, bad = pre ++ mid ∧ u.rest = mid ++ stop := by
  obtain ⟨mid, hRest, -⟩ := h.rest
  obtain ⟨pre, hPre⟩ := le_def.mp hle
  rw [ht, hRest, ← List.append_assoc] at hPre
  exact ⟨pre, mid, (List.append_cancel_right hPre).symm, hRest⟩

/-- Without a complaint, what was read is a phrase. -/
theorem Ahead.clean {P : List Token → Prop} {u : Cursor} (h : Ahead stop t.errors u)
    (hReads : t.Reads P u) : ∃ used, Advances t u used ∧ P used := by
  obtain ⟨new, hNew, -, hClean⟩ := hReads
  rw [h.errors] at hNew
  exact hClean (List.append_left_eq_self.mp hNew.symm)

section Bad

variable {bad pre mid : List Token} {u : Cursor}

/-- Recovery at a cursor among the tokens before `stop`. -/
theorem recover_among (hStop : Stops stop) (hPlain : ∀ token ∈ bad, Token.IsPlain token)
    (hSplit : bad = pre ++ mid) (hMid : u.rest = mid ++ stop) (what : String) :
    (u.recover (u.unexpected what)).rest = resume stop ∧
      (u.current ∈ bad ∨ stop.head? = some u.current) := by
  have hMidPlain : ∀ token ∈ mid, Token.IsPlain token := fun token hToken =>
    hPlain token (by rw [hSplit]; exact List.mem_append_right _ hToken)
  refine ⟨by rw [recover, hMid, resume_append hMidPlain hStop], ?_⟩
  cases mid with
  | nil =>
    obtain ⟨sep, rest, rfl, -⟩ := hStop
    right
    simp [current, hMid]
  | cons t mid =>
    left
    simp [current, hMid, hSplit]

theorem kind_of_plain (hPlain : ∀ token ∈ bad, Token.IsPlain token) (hBad : bad ≠ [])
    (hRest : u.rest = bad ++ stop) : ¬ u.kind.Closes ∧ u.kind ≠ .eof := by
  obtain ⟨first, bad, rfl⟩ := List.exists_cons_of_ne_nil hBad
  have hKind : u.kind = first.kind := by simp [kind, current, hRest]
  have hFirst := hPlain first List.mem_cons_self
  rw [hKind]
  exact ⟨hFirst.not_closes, hFirst.2⟩

/-- A statement that cannot be read is left out. -/
theorem readStmts_of_fail {e : Error} {le : u ≤ t} (hRead : t.readStmt = .fail e u le)
    (hOpen : ¬ (t.kind = .endKw ∨ t.kind = .eof)) (lt : t < s) (start : Span)
    (found : List Stmt) :
    ∃ lt', t.readStmts s lt start found = (u.recover e).readStmts s lt' start found := by
  have hNext := recover_lt le e (fun hEnd => hOpen (.inl hEnd)) fun hEof => hOpen (.inr hEof)
  refine ⟨lt_trans hNext lt, ?_⟩
  rw [readStmts, dif_neg hOpen]
  simp only [hRead]

/-- What stands between a statement and the end of it is skipped. -/
theorem readStmts_of_rest {stmt : Stmt} {lt₁ : u < t} (hRead : t.readStmt = .done stmt u lt₁)
    (hKind : ¬ u.kind.Closes) (lt : t < s) (start : Span) (found : List Stmt) :
    ∃ lt', t.readStmts s lt start found =
      (u.recover (u.unexpected TokenKind.semicolon.describe)).readStmts s lt' start
        (stmt :: found) := by
  refine ⟨lt_of_le_of_lt (recover_le u _) (lt_trans lt₁ lt), ?_⟩
  rw [readStmts, dif_neg (not_closed_of_yields ⟨lt₁, hRead⟩)]
  simp only [hRead, accept_eq_none fun hSep => hKind (.inl hSep),
    if_neg fun hEnd => hKind (.inr hEnd)]

/-- Where the tokens before `stop` are no statement, the block goes on behind them, after one
complaint and with at most one statement that was read from the first of them. -/
theorem readStmts_recovers (hStop : Stops stop) (hRest : t.rest = bad ++ stop) (hBad : bad ≠ [])
    (hPlain : ∀ token ∈ bad, Token.IsPlain token) (hNot : ∀ stmt, ¬ IsStmt bad stmt) (lt : t < s)
    (start : Span) (found : List Stmt) :
    ∃ what token mid v, ∃ lt' : v < s,
      t.readStmts s lt start found = v.readStmts s lt' start (Option.toList mid ++ found) ∧
      v.rest = resume stop ∧
      v.errors = .unexpectedToken what (Token.quoted token) (Token.span token) :: t.errors ∧
      (token ∈ bad ∨ stop.head? = some token) ∧
      ∀ stmt ∈ mid, ∃ pre, pre <+: bad ∧ IsStmt pre stmt := by
  have hAhead : Ahead stop t.errors t := ⟨⟨bad, hRest, hPlain⟩, rfl⟩
  obtain ⟨hNotClosed, hNotEof⟩ := kind_of_plain hPlain hBad hRest
  have hOpen : ¬ (t.kind = .endKw ∨ t.kind = .eof) := by
    rintro (hEnd | hEof)
    · exact hNotClosed (.inr hEnd)
    · exact hNotEof hEof
  have hStays := hAhead.readStmt hStop
  have hReads := reads_readStmt t
  cases hRead : t.readStmt with
  | fail e u le =>
    obtain ⟨lt', hLoop⟩ := readStmts_of_fail hRead hOpen lt start found
    rw [hRead] at hStays
    obtain ⟨hu, what, rfl⟩ := hStays
    obtain ⟨pre, mid, hSplit, hMid⟩ := hu.split le hRest
    obtain ⟨hResume, hCurrent⟩ := recover_among hStop hPlain hSplit hMid what
    refine ⟨what, u.current, none, _, lt', hLoop, hResume, ?_, hCurrent, by simp⟩
    rw [recover, hu.errors, unexpected]
  | done stmt u lt₁ =>
    rw [hRead] at hStays hReads
    have hu : Ahead stop t.errors u := hStays
    obtain ⟨used, hReached, hStmt, -⟩ := hu.clean hReads
    obtain ⟨pre, mid, hSplit, hMid⟩ := hu.split (le_of_lt lt₁) hRest
    have hUsed : used = pre := by
      have hTokens := hReached.rest
      rw [hRest, hMid, hSplit, List.append_assoc] at hTokens
      exact (List.append_cancel_right hTokens).symm
    have hMidPlain : ∀ token ∈ mid, Token.IsPlain token := fun token hToken =>
      hPlain token (by rw [hSplit]; exact List.mem_append_right _ hToken)
    -- all of the tokens would be a statement
    have hMore : mid ≠ [] := by
      rintro rfl
      rw [List.append_nil] at hSplit
      exact hNot stmt (hSplit ▸ hUsed ▸ hStmt)
    obtain ⟨hNotSep, -⟩ := kind_of_plain hMidPlain hMore hMid
    obtain ⟨hResume, hCurrent⟩ := recover_among hStop hPlain hSplit hMid
      TokenKind.semicolon.describe
    obtain ⟨lt', hLoop⟩ := readStmts_of_rest hRead hNotSep lt start found
    refine ⟨TokenKind.semicolon.describe, u.current, some stmt, _, lt', hLoop, hResume, ?_,
      hCurrent, ?_⟩
    · rw [recover, hu.errors, unexpected]
    · rintro _ ⟨rfl⟩
      exact ⟨pre, ⟨mid, hSplit.symm⟩, hUsed ▸ hStmt⟩

end Bad

end Cursor

/-! ### The block around the error -/

namespace Grammar

/-- A statement with the semicolon behind it. -/
inductive IsEnded : List Token → Stmt → Prop
  | ended {sep : Token} {ts : List Token} {stmt : Stmt} :
      IsStmt ts stmt → sep.kind = .semicolon → IsEnded (ts ++ [sep]) stmt

/-- What may stand between a statement and the `end` of its block: nothing, or a semicolon and
further statements. -/
inductive IsTail : List Token → List Stmt → Prop
  | absent : IsTail [] []
  | present {sep : Token} {ts : List Token} {stmts : List Stmt} :
      sep.kind = .semicolon → IsBody ts stmts → IsTail (sep :: ts) stmts

end Grammar

namespace Cursor

open Grammar Reply

variable {s t u w : Cursor} {start : Span} {found stmts : List Stmt} {block : Block}

theorem exists_passes {ts more : List Token} (h : t.rest = ts ++ more) :
    ∃ u, Passes t u ts ∧ u.rest = more :=
  ⟨{ t with rest := more, last := lastSpan t.last ts }, ⟨⟨h, rfl⟩, rfl, rfl⟩, rfl⟩

theorem yields_ended {ts : List Token} (h : Repeated IsEnded ts stmts) (hs : Passes t u ts)
    (lt : t < s)
    (hRest : ∀ lt', (u.readStmts s lt' start (stmts.reverse ++ found)).Yields block w) :
    (t.readStmts s lt start found).Yields block w := by
  induction h generalizing t found with
  | none =>
    have hEq := hs.eq
    subst hEq
    exact hRest lt
  | @more _ rest stmt stmts hEnded _ ih =>
    cases hEnded with
    | @ended sep ts _ hStmt hSep =>
      obtain ⟨t₂, hsEnded, hsRest⟩ := hs.split
      obtain ⟨t₁, hsStmt, hsSep⟩ := hsEnded.split
      have hNext : t₁.kind = .semicolon := hsSep.kind.trans hSep
      have hRead := yields_readStmt hStmt hsStmt (.inl hNext) fun _ => by simp [hNext]
      refine yields_semicolon hRead hsSep hSep lt fun lt' => ih hsRest lt' fun lt'' => ?_
      simpa using hRest lt''

theorem stops_tail {ts more : List Token} {e : Token} (h : IsTail ts stmts)
    (he : e.kind = .endKw) : Stops (ts ++ e :: more) := by
  cases h with
  | absent => exact ⟨e, more, rfl, .inr he⟩
  | present hSep _ => exact ⟨_, _, rfl, .inl hSep⟩

/-- Where reading resumes, the rest of the block is read as it stands. -/
theorem yields_tail {ts more : List Token} {e : Token} (h : IsTail ts stmts)
    (he : e.kind = .endKw) (hRest : t.rest = resume (ts ++ e :: more)) (lt : t < s) (start : Span)
    (found : List Stmt) :
    ∃ u, u.rest = more ∧ u.errors = t.errors ∧
      (t.readStmts s lt start found).Yields ⟨found.reverse ++ stmts, start.cover e.span⟩ u := by
  cases h with
  | absent =>
    have hEnd : t.rest = [e] ++ more := by simpa [resume, he] using hRest
    obtain ⟨u, hs, hMore⟩ := exists_passes hEnd
    refine ⟨u, hMore, hs.errors, ?_⟩
    simpa using yields_closeBlock hs he lt start found
  | @present sep ts _ hSep hBody =>
    have hEnd : t.rest = (ts ++ [e]) ++ more := by simpa [resume, hSep] using hRest
    obtain ⟨u, hs, hMore⟩ := exists_passes hEnd
    exact ⟨u, hMore, hs.errors, yields_readStmts hBody hs he lt start found⟩

/-- Of a block with a bad statement, the statements before and behind it are read. -/
theorem readBlock_recovers {b e : Token} {before bad after more : List Token} {ss ts : List Stmt}
    (hRest : s.rest = [b] ++ (before ++ (bad ++ (after ++ e :: more)))) (hb : b.kind = .beginKw)
    (hBefore : Repeated IsEnded before ss) (hBad : bad ≠ [])
    (hPlain : ∀ token ∈ bad, Token.IsPlain token) (hNot : ∀ stmt, ¬ IsStmt bad stmt)
    (hAfter : IsTail after ts) (he : e.kind = .endKw) :
    ∃ what token mid w,
      s.readBlock.Yields ⟨ss ++ (Option.toList mid ++ ts), b.span.cover e.span⟩ w ∧ w.rest = more ∧
      w.errors = .unexpectedToken what (Token.quoted token) (Token.span token) :: s.errors ∧
      (token ∈ bad ∨ (after ++ e :: more).head? = some token) ∧
      ∀ stmt ∈ mid, ∃ pre, pre <+: bad ∧ IsStmt pre stmt := by
  obtain ⟨t, hsBegin, ht⟩ := exists_passes hRest
  obtain ⟨u, hsBefore, hu⟩ := exists_passes ht
  obtain ⟨lt, -⟩ := hsBegin.expect hb
  have hle : u ≤ t := ⟨before, hsBefore.rest.symm⟩
  obtain ⟨what, token, mid, v, lt', hLoop, hv, hErrors, hToken, hMid⟩ :=
    readStmts_recovers (stops_tail hAfter he) hu hBad hPlain hNot (lt_of_le_of_lt hle lt) b.span
      (ss.reverse ++ [])
  obtain ⟨w, hw, hwErrors, hTail⟩ := yields_tail hAfter he hv lt' b.span
    (mid.toList ++ (ss.reverse ++ []))
  refine ⟨what, token, mid, w, ?_, hw, ?_, hToken, hMid⟩
  · have hStmts : (mid.toList ++ (ss.reverse ++ [])).reverse ++ ts =
        ss ++ (mid.toList ++ ts) := by
      cases mid <;> simp
    rw [hStmts, ← hLoop] at hTail
    exact (hsBegin.expect hb).andThen fun lt => yields_ended hBefore hsBefore lt fun _ => hTail
  · rw [hwErrors, hErrors, hsBefore.errors, hsBegin.errors]

/-- A program that begins with its body has no declarations and the name that is kept for this. -/
theorem readProgram_of_block {d : Token} (hBegin : s.kind = .beginKw)
    (hBlock : s.readBlock.Yields block t) (hDot : Passes t u [d]) (hd : d.kind = .dot) :
    s.readProgram = (⟨defaultName, [], block⟩, u) := by
  have hs : Passes s s [] := ⟨.refl s, rfl, rfl⟩
  obtain ⟨lt, hRead⟩ := hBlock
  obtain ⟨lt', hEnd⟩ := hDot.expect hd
  have hDecls := readDecls_eq .none hs hBegin []
  unfold readProgram
  rw [readHeader_eq .absent hs (by simp [hBegin])]
  dsimp only
  rw [hDecls]
  dsimp only
  rw [hRead]
  dsimp only
  rw [hEnd]
  rfl

end Cursor

/-! ### Texts -/

open Grammar in
/-- A text that begins with a block in which `bad` stands where a statement should be, and without
any token that opens or closes a part of the program. The parser complains once, at a token of `bad`
or at the one right behind, and the body has the statements before and after `bad` as they stand,
and between them at most one, which was read from the first tokens of `bad`. -/
theorem parse_recovers {source : String} {b e d : Token} {before bad after : List Token}
    {ss ts : List Stmt}
    (hTokens : b :: (before ++ (bad ++ (after ++ [e, d]))) <+: (tokenize source).list)
    (hb : b.kind = .beginKw) (hBefore : Repeated IsEnded before ss) (hBad : bad ≠ [])
    (hPlain : ∀ t ∈ bad, t.kind.isBoundary = false) (hNot : ∀ stmt, ¬ IsStmt bad stmt)
    (hAfter : IsTail after ts) (he : e.kind = .endKw) (hd : d.kind = .dot) :
    ∃ (what : String) (t : Token) (mid : Option Stmt),
      parse source =
        (⟨Cursor.defaultName, [], ⟨ss ++ (mid.toList ++ ts), b.span.cover e.span⟩⟩,
          (tokenize source).errors ++ [.unexpectedToken what t.quoted t.span]) ∧
      (t ∈ bad ∨ (after ++ [e]).head? = some t) ∧
      ∀ stmt ∈ mid, ∃ pre, pre <+: bad ∧ IsStmt pre stmt := by
  obtain ⟨rest, hRest⟩ := hTokens
  have hSkipped : ∀ t ∈ bad, Token.IsPlain t := by
    intro t ht
    have hMem : t ∈ (tokenize source).list := by
      rw [← hRest]
      simp [ht]
    exact ⟨hPlain t ht, kind_ne_eof_of_mem_tokenize hMem⟩
  let s : Cursor := ⟨(tokenize source).list, (tokenize source).size, .nowhere, []⟩
  have hs : s.rest = [b] ++ (before ++ (bad ++ (after ++ e :: (d :: rest)))) := by
    simp [s, ← hRest]
  obtain ⟨what, token, mid, w, hBlock, hw, hErrors, hToken, hMid⟩ :=
    Cursor.readBlock_recovers hs hb hBefore hBad hSkipped hNot hAfter he
  obtain ⟨x, hsDot, -⟩ : ∃ x, Cursor.Passes w x [d] ∧ x.rest = rest := Cursor.exists_passes hw
  have hBegin : s.kind = .beginKw := by
    simpa [Cursor.kind, Cursor.current, hs] using hb
  refine ⟨what, token, mid, ?_, ?_, hMid⟩
  · have hProgram := Cursor.readProgram_of_block hBegin hBlock hsDot hd
    have hComplaints : x.errors = [.unexpectedToken what token.quoted token.span] := by
      rw [hsDot.errors, hErrors]
    simp only [s] at hProgram
    simp only [parse, hProgram, hComplaints, List.reverse_singleton]
  · cases after with
    | nil => exact hToken
    | cons sep after => exact hToken

/-- Two calls run together between an assignment and a call. -/
def runTogether : String := "begin x := 1; f g; h(2) end."

theorem Grammar.not_isStmt_of_idents {x y : Token} (hx : x.kind = .ident) (hy : y.kind = .ident)
    (stmt : Stmt) : ¬ Grammar.IsStmt [x, y] stmt := by
  intro h
  generalize hTokens : [x, y] = tokens at h
  cases h with
  | block hBlock =>
    cases hBlock with
    | compound hb _ _ =>
      obtain ⟨rfl, -⟩ := List.cons.inj hTokens
      simp [hx] at hb
  | assign _ ha _ =>
    cases hTokens
    simp [hy] at ha
  | call _ hArgs =>
    obtain ⟨-, hRest⟩ := List.cons.inj hTokens
    cases hArgs with
    | absent => cases hRest
    | empty => cases hRest
    | some ho _ _ =>
      obtain ⟨rfl, -⟩ := List.cons.inj hRest
      simp [hy] at ho
  | ifThen hi _ _ _ =>
    obtain ⟨rfl, -⟩ := List.cons.inj hTokens
    simp [hx] at hi
  | ifElse hi _ _ _ _ _ _ =>
    obtain ⟨rfl, -⟩ := List.cons.inj hTokens
    simp [hx] at hi

open Grammar in
/-- Two names in a row are reported once, and the statement behind them is read. -/
theorem runTogether_recovers :
    ∃ (what : String) (t : Token) (mid : Option Stmt),
      parse runTogether =
        (⟨Cursor.defaultName, [],
          ⟨[.assign ⟨"x", ⟨6, 7⟩⟩ (.int "1" ⟨11, 12⟩)] ++
            (mid.toList ++ [.call ⟨"h", ⟨19, 20⟩⟩ [.int "2" ⟨21, 22⟩]]), ⟨0, 27⟩⟩⟩,
          [.unexpectedToken what t.quoted t.span]) ∧
      (t ∈ [⟨.ident, "f", ⟨14, 15⟩⟩, ⟨.ident, "g", ⟨16, 17⟩⟩] ∨
        t = ⟨.semicolon, ";", ⟨17, 18⟩⟩) ∧
      ∀ stmt ∈ mid, ∃ pre, pre <+: [⟨.ident, "f", ⟨14, 15⟩⟩, ⟨.ident, "g", ⟨16, 17⟩⟩] ∧
        IsStmt pre stmt := by
  have hTokens : (tokenize runTogether).list =
      [⟨.beginKw, "begin", ⟨0, 5⟩⟩, ⟨.ident, "x", ⟨6, 7⟩⟩, ⟨.becomes, ":=", ⟨8, 10⟩⟩,
        ⟨.number, "1", ⟨11, 12⟩⟩, ⟨.semicolon, ";", ⟨12, 13⟩⟩, ⟨.ident, "f", ⟨14, 15⟩⟩,
        ⟨.ident, "g", ⟨16, 17⟩⟩, ⟨.semicolon, ";", ⟨17, 18⟩⟩, ⟨.ident, "h", ⟨19, 20⟩⟩,
        ⟨.lparen, "(", ⟨20, 21⟩⟩, ⟨.number, "2", ⟨21, 22⟩⟩, ⟨.rparen, ")", ⟨22, 23⟩⟩,
        ⟨.endKw, "end", ⟨24, 27⟩⟩, ⟨.dot, ".", ⟨27, 28⟩⟩] := by
    decide +kernel
  have hErrors : (tokenize runTogether).errors = [] := by decide +kernel
  have hBefore : Repeated IsEnded
      [⟨.ident, "x", ⟨6, 7⟩⟩, ⟨.becomes, ":=", ⟨8, 10⟩⟩, ⟨.number, "1", ⟨11, 12⟩⟩,
        ⟨.semicolon, ";", ⟨12, 13⟩⟩] [.assign ⟨"x", ⟨6, 7⟩⟩ (.int "1" ⟨11, 12⟩)] :=
    .more (IsEnded.ended (.assign rfl rfl (.term (.unary (.primary (.number rfl))))) rfl) .none
  have hAfter : IsTail
      [⟨.semicolon, ";", ⟨17, 18⟩⟩, ⟨.ident, "h", ⟨19, 20⟩⟩, ⟨.lparen, "(", ⟨20, 21⟩⟩,
        ⟨.number, "2", ⟨21, 22⟩⟩, ⟨.rparen, ")", ⟨22, 23⟩⟩]
      [.call ⟨"h", ⟨19, 20⟩⟩ [.int "2" ⟨21, 22⟩]] :=
    .present rfl (.one (.call rfl (.some rfl (.one (.term (.unary (.primary (.number rfl))))) rfl)))
  have hNot := not_isStmt_of_idents (x := ⟨.ident, "f", ⟨14, 15⟩⟩) (y := ⟨.ident, "g", ⟨16, 17⟩⟩)
    rfl rfl
  obtain ⟨what, t, mid, hParse, ht, hMid⟩ := parse_recovers
    (b := ⟨.beginKw, "begin", ⟨0, 5⟩⟩) (e := ⟨.endKw, "end", ⟨24, 27⟩⟩) (d := ⟨.dot, ".", ⟨27, 28⟩⟩)
    ⟨[], by rw [hTokens]; rfl⟩ rfl hBefore (by simp) (by decide) hNot hAfter rfl rfl
  refine ⟨what, t, mid, ?_, ht.imp_right fun hSep => (Option.some.inj hSep).symm, hMid⟩
  rw [hParse, hErrors]
  rfl

end ChipPascal
