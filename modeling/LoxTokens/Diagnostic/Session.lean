import LoxTokens.Source.Scan

/-!
# Sessions with a log

A session is a sequence of steps on one log, which is empty at first. Diagnostics are
reported by hand or by a scan; the log may be thrown away or emptied into a list; and
a copy of it may take a diagnostic that the log itself never sees.
-/

namespace LoxTokens

namespace Log

inductive Step where
  | report (d : Diagnostic)
  | scan (policy : Policy) (source : String)
  | reset
  | drain
  | fork (d : Diagnostic)

/-- What a step yields besides the log it leaves: the tokens of a scan, the contents
of a drained log, the contents of a forked copy. -/
inductive Yield where
  | nothing
  | tokens (tokens : List Token)
  | drained (errors : List Diagnostic)
  | forked (errors : List Diagnostic)

def step (log : Log) : Step → Yield × Log
  | .report d => (.nothing, log.report d)
  | .scan policy source =>
      let (tokens, log) := log.scan policy source
      (.tokens tokens, log)
  | .reset => (.nothing, empty)
  | .drain => (.drained log.toList, empty)
  | .fork d => (.forked (log.report d).toList, log)

/-- Takes the steps in order. The result has, for each, what it yields and the log
behind it. -/
def run (log : Log) : List Step → List (Yield × Log)
  | [] => []
  | s :: steps => log.step s :: (log.step s).2.run steps

end Log

/-- The session that takes the given steps on a log with nothing in it. -/
def session (steps : List Log.Step) : List (Log.Yield × Log) := Log.empty.run steps

end LoxTokens
