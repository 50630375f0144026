import Mathlib.Data.List.DropRight
import LoxTokens.Diagnostic.Session
import LoxTokens.Proofs.Diagnostic.Sink

/-!
# What a log holds in the course of a session

Steps may come in any order, and one of them is a whole scan with the log as its sink. A
log holds what was given to it since it was last cleared, and nothing else: a scan adds
what it would have reported to an empty log, and what is given to a copy never reaches
the log itself.

`keepsAccount_session` says so for every step of every session, together with what the
step yields.
-/

namespace LoxTokens

namespace Log

/-- Whether a step leaves the log with nothing in it. -/
def Step.clears : Step → Bool
  | .reset | .drain => true
  | .report _ | .scan _ _ | .fork _ => false

/-- What a step gives to the log. A scan gives what it reports to an empty one. -/
def Step.contribution : Step → List Diagnostic
  | .report d => [d]
  | .scan policy source => (LoxTokens.scan policy source).2.toList
  | .reset | .drain | .fork _ => []

/-- All that was given to the log since it was last cleared. -/
def held (steps : List Step) : List Diagnostic :=
  (steps.rtakeWhile fun s => !s.clears).flatMap Step.contribution

theorem held_concat_of_clears (steps : List Step) {s : Step} (h : s.clears = true) :
    held (steps ++ [s]) = [] := by
  rw [held, List.rtakeWhile_concat_neg _ _ _ (by simp [h]), List.flatMap_nil]

theorem held_concat (steps : List Step) {s : Step} (h : s.clears = false) :
    held (steps ++ [s]) = held steps ++ s.contribution := by
  rw [held, List.rtakeWhile_concat_pos _ _ _ (by simp [h]), List.flatMap_append,
    List.flatMap_singleton, held]

theorem hasErrors_iff (log : Log) : log.hasErrors = true ↔ log.toList ≠ [] := by
  simp [hasErrors_eq]

/-- What a step behind others yields, and the log it leaves. A scan has the tokens that it
has by itself, whatever came before it. A drained log had all that it held, and the forked
copy has one diagnostic more. -/
structure KeepsStep (before : List Step) (s : Step) (yield : Yield) (log : Log) : Prop where
  toList : log.toList = held (before ++ [s])
  hasErrors_iff : log.hasErrors = true ↔ held (before ++ [s]) ≠ []
  scan : ∀ policy source, s = .scan policy source →
    yield = .tokens (LoxTokens.scan policy source).1
  drain : s = .drain → yield = .drained (held before)
  fork : ∀ d, s = .fork d → yield = .forked (held before ++ [d])

theorem toList_step {log : Log} {before : List Step} (h : log.toList = held before)
    (s : Step) : (log.step s).2.toList = held (before ++ [s]) := by
  cases s with
  | report d =>
    rw [held_concat before rfl, ← h]
    exact log.toList_report d
  | scan policy source =>
    have hscan : (log.step (.scan policy source)).2 =
        (LoxTokens.scan policy source).2.toList.foldl report log := by
      simp only [step, Log.scan, scanInto_eq_scan]
    rw [held_concat before rfl, ← h, hscan, toList_foldl_report, Step.contribution]
  | reset =>
    rw [held_concat_of_clears before rfl]
    rfl
  | drain =>
    rw [held_concat_of_clears before rfl]
    rfl
  | fork d =>
    rw [held_concat before rfl, ← h]
    exact (List.append_nil _).symm

theorem keepsStep_step {log : Log} {before : List Step} (h : log.toList = held before)
    (s : Step) : KeepsStep before s (log.step s).1 (log.step s).2 := by
  have htoList := toList_step h s
  refine ⟨htoList, ?_, ?_, ?_, ?_⟩
  · rw [Log.hasErrors_iff, htoList]
  · rintro policy source rfl
    simp only [step, Log.scan, scanInto_eq_scan]
  · rintro rfl
    rw [← h]
    rfl
  · rintro d rfl
    rw [step, toList_report, h]

theorem length_run (log : Log) (steps : List Step) : (log.run steps).length = steps.length := by
  induction steps generalizing log with
  | nil => rfl
  | cons s steps ih => rw [run, List.length_cons, List.length_cons, ih]

/-- A run that goes on behind other steps: what the log holds is carried from step to step
by these. -/
theorem exists_keepsStep {log : Log} {done : List Step} (h : log.toList = held done)
    (before : List Step) (s : Step) (after : List Step) : ∃ yield left,
      (log.run (before ++ s :: after))[before.length]? = some (yield, left) ∧
        KeepsStep (done ++ before) s yield left := by
  induction before generalizing log done with
  | nil =>
    rw [List.append_nil]
    exact ⟨_, _, rfl, keepsStep_step h s⟩
  | cons t before ih =>
    obtain ⟨yield, left, hentry, hkeeps⟩ := ih (toList_step h t)
    rw [List.append_assoc, List.singleton_append] at hkeeps
    exact ⟨yield, left, hentry, hkeeps⟩

end Log

/-- A session has an entry for each of its steps, and no entry depends on the steps that
come later. -/
structure KeepsAccount (steps : List Log.Step) : Prop where
  length : (session steps).length = steps.length
  entry : ∀ before s after, steps = before ++ s :: after → ∃ yield log,
    (session steps)[before.length]? = some (yield, log) ∧ Log.KeepsStep before s yield log

/-- A log loses nothing and invents nothing, whatever the session. -/
theorem keepsAccount_session (steps : List Log.Step) : KeepsAccount steps := by
  constructor
  · exact Log.empty.length_run steps
  · rintro before s after rfl
    have hempty : Log.empty.toList = Log.held [] := rfl
    exact Log.exists_keepsStep hempty before s after

end LoxTokens
