/-!
# Positions in a source text

A position is what the scan knows about a place in the source: how many bytes of
UTF-8 stand before it, and on which line it lies. Lines are counted from one, and
a newline character belongs to the line it ends.
-/

namespace LoxTokens

/-- A place in a source text: the bytes before it and its line. -/
structure Position where
  offset : Nat
  line : Nat
deriving DecidableEq

namespace Position

def start : Position := ⟨0, 1⟩

/-- The place just behind the character `c`, when `c` stands at `p`. -/
def next (p : Position) (c : Char) : Position :=
  ⟨p.offset + c.utf8Size, if c = '\n' then p.line + 1 else p.line⟩

/-- The place just behind `text`, when `text` stands at `p`. -/
def after (p : Position) (text : List Char) : Position :=
  text.foldl next p

@[simp] theorem after_nil (p : Position) : p.after [] = p := rfl

@[simp] theorem after_cons (p : Position) (c : Char) (cs : List Char) :
    p.after (c :: cs) = (p.next c).after cs := rfl

theorem after_append (p : Position) (xs ys : List Char) :
    p.after (xs ++ ys) = (p.after xs).after ys := by
  simp [after]

end Position

end LoxTokens
