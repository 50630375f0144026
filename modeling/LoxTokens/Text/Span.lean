/-!
# Spans

A span names a stretch of a source by the byte offsets of its two ends. It is
half-open: the byte at `start` belongs to it, the byte at `stop` does not. Spans of
scanned tokens never run backwards; a span put together by hand may, and then it
has no length.
-/

namespace LoxTokens

/-- The bytes from `start` up to, and without, `stop`. -/
structure Span where
  start : Nat
  stop : Nat
deriving DecidableEq

namespace Span

def isEmpty (s : Span) : Bool := s.start == s.stop

/-- The number of bytes between the ends; a span that runs backwards has none. -/
def length? (s : Span) : Option Nat :=
  if s.start ≤ s.stop then some (s.stop - s.start) else none

end Span

end LoxTokens
