import LoxTokens.Diagnostic.Basic

/-!
# Logs of diagnostics

A log keeps the diagnostics it is given, in the order it is given them.
-/

namespace LoxTokens

/-- The diagnostics reported so far. -/
structure Log where
  entries : Array Diagnostic
deriving DecidableEq

namespace Log

def empty : Log := ⟨#[]⟩

def report (log : Log) (d : Diagnostic) : Log := ⟨log.entries.push d⟩

/-- The diagnostics of a log, oldest first. -/
def toList (log : Log) : List Diagnostic := log.entries.toList

def hasErrors (log : Log) : Bool := !log.entries.isEmpty

@[simp] theorem toList_empty : empty.toList = [] := rfl

@[simp] theorem toList_report (log : Log) (d : Diagnostic) :
    (log.report d).toList = log.toList ++ [d] := by
  simp [report, toList]

theorem hasErrors_eq (log : Log) : log.hasErrors = !log.toList.isEmpty := by
  simp [hasErrors, toList]

end Log

end LoxTokens
