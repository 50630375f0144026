import LoxTokens.Number.Shortest

/-!
# Literals

The value that a string or a number in the source stands for. Strings know no escape
sequences, so the value of a string is the text between its quotes.
-/

namespace LoxTokens

inductive Literal where
  | number (value : Binary64)
  | string (content : String)

namespace Literal

/-- The written form: a string as it is, without quotes, and a number as a decimal. -/
def text : Literal → String
  | number value => value.text
  | string content => content

/-- Equality of values: strings by their text, numbers as numbers. A literal that is
no number differs from itself. -/
instance : BEq Literal where
  beq
    | number x, number y => x == y
    | string s, string t => s == t
    | _, _ => false

end Literal

end LoxTokens
