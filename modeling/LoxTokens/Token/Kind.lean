import LoxTokens.Token.Keyword
import LoxTokens.Token.Symbol

/-!
# Kinds of tokens

A token is a symbol, a keyword, an identifier, a string, a number, or the mark that
ends every scan.
-/

namespace LoxTokens

inductive Kind where
  | symbol (s : Symbol)
  | identifier
  | string
  | number
  | keyword (k : Keyword)
  | endOfSource
deriving DecidableEq

namespace Kind

/-- All kinds: symbols, then identifiers and literals, then keywords, then the end. -/
def all : List Kind :=
  Symbol.all.map symbol ++ [identifier, string, number] ++ Keyword.all.map keyword ++
    [endOfSource]

/-- The name of a kind in a listing of tokens. -/
def name : Kind → String
  | symbol s => s.name
  | identifier => "IDENTIFIER"
  | string => "STRING"
  | number => "NUMBER"
  | keyword k => k.name
  | endOfSource => "EOF"

def ofName? (name : String) : Option Kind :=
  all.find? fun k => k.name == name

def isKeyword : Kind → Bool
  | keyword _ => true
  | _ => false

/-- The kind of a word: a keyword if it is one, an identifier otherwise. -/
def ofWord (word : String) : Kind :=
  match Keyword.ofWord? word with
  | some k => keyword k
  | none => identifier

end Kind

end LoxTokens
