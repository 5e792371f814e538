import ChipPascal.Diagnostic
import ChipPascal.Token

/-!
# Reading tokens

A `Cursor` stands before the next token. Reading something from a cursor `s` gives a `Reply`: the
thing read, with a cursor strictly further on, or a syntax error, with the cursor at which reading
gave up. What is left is always a suffix of what there was, so reading ends, and whoever recovers
from an error knows where to go on.
-/

namespace ChipPascal

/-- A place between tokens, with the syntax errors met on the way there. -/
structure Cursor where
  /-- The tokens still to be read. -/
  rest : List Token
  /-- The size of the text in bytes, where the end mark stands. -/
  size : Nat
  /-- Where the token read last stands. -/
  last : Span
  /-- The errors so far, the newest first. -/
  errors : List Error

namespace Cursor

/-- `t` is reached from `s` by reading on. -/
instance : LE Cursor := ⟨fun t s => t.rest <:+ s.rest⟩

/-- `t` is reached from `s` by reading at least one token. -/
instance : LT Cursor := ⟨fun t s => t.rest <:+ s.rest ∧ t.rest.length < s.rest.length⟩

theorem le_def {t s : Cursor} : t ≤ s ↔ t.rest <:+ s.rest := Iff.rfl

theorem le_refl (s : Cursor) : s ≤ s := List.suffix_refl _

theorem le_trans {u t s : Cursor} (h : u ≤ t) (h' : t ≤ s) : u ≤ s := List.IsSuffix.trans h h'

theorem le_of_lt {t s : Cursor} (h : t < s) : t ≤ s := h.1

theorem lt_of_lt_of_le {u t s : Cursor} (h : u < t) (h' : t ≤ s) : u < s :=
  ⟨List.IsSuffix.trans h.1 h', Nat.lt_of_lt_of_le h.2 (List.IsSuffix.length_le h')⟩

theorem lt_of_le_of_lt {u t s : Cursor} (h : u ≤ t) (h' : t < s) : u < s :=
  ⟨List.IsSuffix.trans h h'.1, Nat.lt_of_le_of_lt (List.IsSuffix.length_le h) h'.2⟩

theorem lt_trans {u t s : Cursor} (h : u < t) (h' : t < s) : u < s := lt_of_lt_of_le h h'.1

theorem le_of_lt_of_lt {u t s : Cursor} (h : u < t) (h' : t < s) : u ≤ s := le_of_lt (lt_trans h h')

theorem lt_trans₃ {v u t s : Cursor} (h : v < u) (h' : u < t) (h'' : t < s) : v < s :=
  lt_trans h (lt_trans h' h'')

theorem length_lt {t s : Cursor} (h : t < s) : t.rest.length < s.rest.length := h.2

def current (s : Cursor) : Token := s.rest.headD (.endOfFile s.size)

def kind (s : Cursor) : TokenKind := s.current.kind

def nextKind (s : Cursor) : TokenKind := (s.rest[1]?.map (·.kind)).getD .eof

def unexpected (s : Cursor) (expected : String) : Error :=
  .unexpectedToken expected s.current.quoted s.current.span

def report (s : Cursor) (e : Error) : Cursor := { s with errors := e :: s.errors }

structure Step (s : Cursor) where
  token : Token
  left : Cursor
  lt : left < s

/-- Reads the current token, if it is not the end mark. -/
def next? (s : Cursor) : Option (Step s) :=
  match h : s.rest with
  | [] => none
  | t :: ts =>
    some ⟨t, { s with rest := ts, last := t.span },
      ⟨by rw [h]; exact List.suffix_cons t ts, by rw [h]; simp⟩⟩

/-- Steps over the current token if it is of this kind. -/
def accept (s : Cursor) (kind : TokenKind) : Option { t : Cursor // t < s } :=
  match s.next? with
  | none => none
  | some ⟨t, left, lt⟩ => if t.kind = kind then some ⟨left, lt⟩ else none

end Cursor

inductive Reply (α : Type) (s : Cursor) where
  | done (value : α) (left : Cursor) (lt : left < s)
  | fail (error : Error) (left : Cursor) (le : left ≤ s)

namespace Reply

variable {α β : Type} {s t : Cursor}

def reject (s : Cursor) (expected : String) : Reply α s :=
  .fail (s.unexpected expected) s (Cursor.le_refl s)

/-- Goes on from where `r` ended, unless it failed. -/
def andThen (r : Reply α t) (h : t ≤ s) (f : (a : α) → (u : Cursor) → u < t → Reply β s) :
    Reply β s :=
  match r with
  | .done a u lt => f a u lt
  | .fail e u le => .fail e u (Cursor.le_trans le h)

def map (f : α → β) (r : Reply α s) : Reply β s :=
  match r with
  | .done a u lt => .done (f a) u lt
  | .fail e u le => .fail e u le

@[simp] theorem andThen_done (a : α) (u : Cursor) (lt : u < t) (h : t ≤ s)
    (f : (a : α) → (u : Cursor) → u < t → Reply β s) :
    (Reply.done a u lt).andThen h f = f a u lt := rfl

@[simp] theorem andThen_fail (e : Error) (u : Cursor) (le : u ≤ t) (h : t ≤ s)
    (f : (a : α) → (u : Cursor) → u < t → Reply β s) :
    (Reply.fail e u le).andThen h f = .fail e u (Cursor.le_trans le h) := rfl

@[simp] theorem map_done (f : α → β) (a : α) (u : Cursor) (lt : u < s) :
    (Reply.done a u lt).map f = .done (f a) u lt := rfl

@[simp] theorem map_fail (f : α → β) (e : Error) (u : Cursor) (le : u ≤ s) :
    (Reply.fail e u le).map f = .fail e u le := rfl

end Reply

namespace Cursor

/-- Reads a token of this kind; an error calls it `what`. -/
def expectAs (s : Cursor) (kind : TokenKind) (what : String) : Reply Token s :=
  match s.next? with
  | none => .reject s what
  | some ⟨t, left, lt⟩ => if t.kind = kind then .done t left lt else .reject s what

def expect (s : Cursor) (kind : TokenKind) : Reply Token s := s.expectAs kind kind.describe

/-! ### Recovery -/

/-- Goes to just behind the next `;`, or before a word that closes a block or opens a part. -/
def skipToBoundary : List Token → List Token
  | [] => []
  | t :: ts =>
    match t.kind with
    | .semicolon => ts
    | .endKw | .procedureKw | .varKw | .constKw | .beginKw | .eof => t :: ts
    | _ => skipToBoundary ts

/-- The tokens at which reading resumes: as `skipToBoundary`, but a word that opens a part is
skipped when it comes first, because that is where reading failed. -/
def resume : List Token → List Token
  | [] => []
  | t :: ts =>
    match t.kind with
    | .semicolon => ts
    | .endKw | .eof => t :: ts
    | _ => skipToBoundary ts

/-- Records an error and moves to where reading can resume. -/
def recover (s : Cursor) (e : Error) : Cursor :=
  { s with rest := resume s.rest, errors := e :: s.errors }

theorem skipToBoundary_suffix (ts : List Token) : skipToBoundary ts <:+ ts := by
  fun_induction skipToBoundary ts with
  | case1 => exact List.suffix_refl _
  | case2 t ts _ => exact List.suffix_cons t ts
  | case9 t ts _ _ _ _ _ _ _ ih => exact ih.trans (List.suffix_cons t ts)
  | _ => exact List.suffix_refl _

theorem resume_suffix (ts : List Token) : resume ts <:+ ts := by
  unfold resume
  split
  · exact List.suffix_refl _
  · split
    · exact List.suffix_cons _ _
    · exact List.suffix_refl _
    · exact List.suffix_refl _
    · exact (skipToBoundary_suffix _).trans (List.suffix_cons _ _)

/-- Resuming gets past the token it starts at, unless that one closes a block or the text. -/
theorem length_resume_cons (t : Token) (ts : List Token) (hEnd : t.kind ≠ .endKw)
    (hEof : t.kind ≠ .eof) : (resume (t :: ts)).length < (t :: ts).length := by
  have := (skipToBoundary_suffix ts).length_le
  simp only [resume, List.length_cons]
  split
  · omega
  · contradiction
  · contradiction
  · omega

theorem recover_le (s : Cursor) (e : Error) : s.recover e ≤ s := resume_suffix s.rest

/-- Recovery from a failure that began at a token which can be skipped makes progress. -/
theorem recover_lt {t s : Cursor} (h : t ≤ s) (e : Error) (hEnd : s.kind ≠ .endKw)
    (hEof : s.kind ≠ .eof) : t.recover e < s := by
  refine ⟨(resume_suffix t.rest).trans h, ?_⟩
  rcases Nat.lt_or_ge t.rest.length s.rest.length with hlt | hge
  · exact Nat.lt_of_le_of_lt (resume_suffix t.rest).length_le hlt
  · have heq : t.rest = s.rest := h.eq_of_length (Nat.le_antisymm h.length_le hge)
    show (resume t.rest).length < s.rest.length
    rw [heq]
    cases hs : s.rest with
    | nil => simp [kind, current, hs, Token.endOfFile] at hEof
    | cons a as =>
      have hk : s.kind = a.kind := by simp [kind, current, hs]
      exact length_resume_cons a as (hk ▸ hEnd) (hk ▸ hEof)

end Cursor

end ChipPascal
