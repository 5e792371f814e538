/-!
# Byte spans of a source text

A span marks the bytes from `start` up to, and without, `stop`.
-/

namespace ChipPascal

/-- A half-open range of byte offsets. -/
structure Span where
  start : Nat
  stop : Nat
deriving DecidableEq, Repr

namespace Span

/-- The span of what stands nowhere in the text, such as a builtin. -/
def nowhere : Span := ⟨0, 0⟩

/-- The least span that covers both `a` and `b`. -/
def cover (a b : Span) : Span := ⟨min a.start b.start, max a.stop b.stop⟩

/-- The number of bytes, where the ends are in order. -/
def length? (s : Span) : Option Nat :=
  if s.start ≤ s.stop then some (s.stop - s.start) else none

@[simp] theorem cover_start (a b : Span) : (a.cover b).start = min a.start b.start := rfl

@[simp] theorem cover_stop (a b : Span) : (a.cover b).stop = max a.stop b.stop := rfl

theorem length?_eq_some {s : Span} (h : s.start ≤ s.stop) :
    s.length? = some (s.stop - s.start) := by
  simp [length?, h]

end Span

end ChipPascal
