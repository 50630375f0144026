import LoxTokens.Proofs.Cursor.Turn
import LoxTokens.Proofs.Source.Outline

/-!
# The machine runs safely to its end

`Cursor.Sound.run` and `Machine.leads_behind` together say how the machine runs. It is
never without a next step, each turn of its loop takes it further, and in the end it has
made what a scan of the pieces makes.

The source has to be small enough for its offsets: a word that is one bit wider than its
size holds all the sums the machine calculates.
-/

namespace LoxTokens

variable {σ : Type} {m : Machine σ} {s t : Cursor σ} {front rest : List Char} {c : Char}

namespace Machine

theorem run_add (n k : Nat) (s : Cursor σ) : m.run (n + k) s = (m.run n s).bind (m.run k) := by
  induction n generalizing s with
  | zero => rw [Nat.zero_add, run, Option.bind_some]
  | succ n ih =>
    rw [Nat.succ_add, run, run]
    cases m.step s with
    | none => rfl
    | some t => exact ih t

theorem run_of_stop (h : s.task = .stop) (n : Nat) : m.run n s = some s := by
  induction n with
  | zero => rfl
  | succ n ih => simp [run, step, h, ih]

theorem Leads.exists_run {b : Cursor σ} (h : m.Leads b s t) :
    ∃ k, m.run k s = some t ∧ ∀ j < k, ∀ u, m.run j s = some u → u.Within b := by
  induction h with
  | refl s => exact ⟨0, rfl, fun j hj => absurd hj (Nat.not_lt_zero j)⟩
  | @step s t u hwithin hstep _ ih =>
    obtain ⟨k, hrun, hall⟩ := ih
    have hnext : ∀ j, m.run (j + 1) s = m.run j t := fun j => by simp [run, hstep]
    refine ⟨k + 1, (hnext k).trans hrun, fun j hj v hv => ?_⟩
    cases j with
    | zero =>
      obtain rfl : s = v := Option.some.inj hv
      exact hwithin
    | succ j => exact hall j (Nat.lt_of_succ_lt_succ hj) v ((hnext j).symm.trans hv)

/-- Between the states `s` and `t` at most one token was pushed or one diagnostic reported. -/
inductive AtMostOne (m : Machine σ) (s t : Cursor σ) : Prop
  | nothing (htokens : t.tokens = s.tokens) (hsink : t.sink = s.sink)
  | token (made : Token) (htokens : t.tokens = s.tokens.push made) (hsink : t.sink = s.sink)
  | diagnostic (d : Diagnostic) (htokens : t.tokens = s.tokens)
      (hsink : t.sink = m.report s.sink d)

theorem atMostOne_behind (m : Machine σ) (s : Cursor σ) (x : Piece) :
    m.AtMostOne s (s.behind m x) := by
  cases x with
  | lexeme l => exact .token (l.tokenAt s.place) rfl rfl
  | openString body => exact .diagnostic _ rfl rfl
  | unknown c =>
    cases hpolicy : m.policy with
    | report =>
      refine .diagnostic ⟨.unexpectedCharacter, s.line⟩ rfl ?_
      simp [Cursor.behind, Piece.diagnostic?, hpolicy, Cursor.place]
    | skip =>
      refine .nothing rfl ?_
      simp [Cursor.behind, Piece.diagnostic?, hpolicy]
  | _ => exact .nothing rfl rfl

end Machine

/-- What the machine has of a scan. -/
def Cursor.progress (s : Cursor σ) : Progress σ := ⟨s.place, s.tokens, s.sink⟩

theorem Cursor.progress_behind (m : Machine σ) (s : Cursor σ) (x : Piece) :
    (s.behind m x).progress = s.progress.step m.policy m.report x := rfl

namespace Machine

theorem Between.behind (hs : m.Between s front (c :: rest)) :
    m.Between (s.behind m (Piece.first c rest).1) (front ++ (Piece.first c rest).1.text)
      (Piece.first c rest).2 := by
  rw [← Piece.first_append c rest] at hs
  have hat := hs.reading .head
  exact ⟨hat.source, hat.current⟩

section

variable (hsize : m.source.utf8ByteSize < 2 ^ m.bits)
include hsize

/-- A turn takes the machine behind the first piece of what it has not read. -/
theorem exists_turn (h : s.Sound m) (hhead : s.task = .head)
    (hs : m.Between s front (c :: rest)) :
    ∃ k, m.run (k + 1) s = some (s.behind m (Piece.first c rest).1) ∧
      (s.behind m (Piece.first c rest).1).Sound m ∧
      ∀ j < k, ∀ u, m.run (j + 1) s = some u → u.Within s := by
  have hs' : m.Between s front ((Piece.first c rest).1.text ++ (Piece.first c rest).2) := by
    rwa [Piece.first_append]
  have hleads := leads_behind hsize (Piece.wellFormed_first c rest)
    (Piece.endsBefore_first c rest) hs' h.fits.line_le
  obtain ⟨k, hrun, hall⟩ := hleads.exists_run
  have hend : ¬ m.atEnd s := fun hend => List.cons_ne_nil _ _ (hs.atEnd_iff.mp hend)
  have hstep : m.step s = some (s.goto .markStart) := by simp [step, hhead, hend]
  have hnext : ∀ j, m.run (j + 1) s = m.run j (s.goto .markStart) := fun j => by
    simp [run, hstep]
  obtain ⟨t, ht, hsound⟩ := h.run hsize (k + 1)
  have hturn := (hnext k).trans hrun
  rw [← Option.some.inj (hturn.symm.trans ht)] at hsound
  exact ⟨k, hturn, hsound, fun j hj u hu => hall j hj u ((hnext j).symm.trans hu)⟩

/-- From the head of its loop the machine comes to its end, and has made what the pieces make
that it has not read. -/
theorem exists_stop (h : s.Sound m) (hhead : s.task = .head) (hs : m.Between s front rest) :
    ∃ n t, m.run n s = some t ∧ t.task = .stop ∧
      let done := (pieces rest).foldl (Progress.step m.policy m.report) s.progress
      t.tokens = done.tokens.push (.endAt done.position) ∧ t.sink = done.sink := by
  induction rest using source_induction generalizing s front with
  | nil =>
    have hend : s.current = m.source.utf8ByteSize := by simpa using hs.size.symm
    refine ⟨1, m.finish s, ?_, rfl, ?_, ?_⟩
    · simp [run, step, hhead, hs.atEnd_iff.mpr rfl]
    · simp [finish, Cursor.progress, Token.endAt, Cursor.place, hend]
    · simp [finish, Cursor.progress]
  | cons c cs ih =>
    obtain ⟨k, hrun, hsound, -⟩ := exists_turn hsize h hhead hs
    obtain ⟨n, t, hn, hstop, hdone⟩ := ih hsound rfl hs.behind
    refine ⟨k + 1 + n, t, ?_, hstop, ?_⟩
    · rw [run_add, hrun, Option.bind_some, hn]
    · rwa [pieces_cons, List.foldl_cons, ← Cursor.progress_behind]

/-- Whenever the machine is at the head of its loop, it has read whole pieces and has made
what they make. -/
theorem exists_read {n : Nat} (h : s.Sound m) (hhead : s.task = .head)
    (hs : m.Between s front rest) (hrun : m.run n s = some t) (ht : t.task = .head) :
    ∃ read unread, pieces rest = read ++ unread ∧
      t.progress = read.foldl (Progress.step m.policy m.report) s.progress := by
  induction rest using source_induction generalizing s front n with
  | nil =>
    cases n with
    | zero =>
      obtain rfl : s = t := Option.some.inj hrun
      exact ⟨[], _, rfl, rfl⟩
    | succ n =>
      have hstep : m.step s = some (m.finish s) := by simp [step, hhead, hs.atEnd_iff.mpr rfl]
      have hstop : m.run n (m.finish s) = some t := by simpa [run, hstep] using hrun
      rw [run_of_stop rfl n] at hstop
      obtain rfl : m.finish s = t := Option.some.inj hstop
      cases ht
  | cons c cs ih =>
    cases n with
    | zero =>
      obtain rfl : s = t := Option.some.inj hrun
      exact ⟨[], _, rfl, rfl⟩
    | succ n =>
      obtain ⟨k, hturn, hsound, hall⟩ := exists_turn hsize h hhead hs
      have hle : k ≤ n := by
        by_contra hlt
        exact (hall n (Nat.lt_of_not_le hlt) t hrun).task ht
      obtain ⟨j, rfl⟩ := Nat.exists_eq_add_of_le hle
      rw [Nat.add_right_comm, run_add, hturn, Option.bind_some] at hrun
      obtain ⟨read, unread, hpieces, hprogress⟩ := ih hsound rfl hs.behind hrun
      refine ⟨(Piece.first c cs).1 :: read, unread, ?_, ?_⟩
      · rw [pieces_cons, hpieces, List.cons_append]
      · rw [hprogress, List.foldl_cons, ← Cursor.progress_behind]

end

end Machine

/-- How a machine runs on its source. It always has a next state, so that no text is taken
from outside the source or from inside a character, and nothing calculated that does not fit
into a word. All its states fit the source, and a string that is closed has both its quotes.
A turn of the loop ends, moves the cursor on, and has made one token at most or reported once
at most, in its last step. So the loop ends as well, and what there is then is the scan of
the source. -/
structure RunsSafely (m : Machine σ) (sink : σ) : Prop where
  fits : ∀ n, ∃ s, m.run n (.initial sink) = some s ∧ s.Fits m.source
  quotes : ∀ n s, m.run n (.initial sink) = some s → s.task = .close → s.start + 2 ≤ s.current
  turn : ∀ n s, m.run n (.initial sink) = some s → s.task = .head →
    s.current < m.source.utf8ByteSize → ∃ k t, m.run (k + 1) s = some t ∧ t.task = .head ∧
      s.current < t.current ∧ m.AtMostOne s t ∧
      ∀ j < k, ∀ u, m.run (j + 1) s = some u → u.Within s
  stops : ∃ n s, m.run n (.initial sink) = some s ∧ s.task = .stop ∧
    (s.tokens.toList, s.sink) = scanInto m.policy m.report sink m.source

/-- A machine runs safely on every source whose bytes can be counted with one bit less than
its words have. -/
theorem runsSafely_of_size_lt (m : Machine σ) (sink : σ)
    (hsize : m.source.utf8ByteSize < 2 ^ m.bits) : RunsSafely m sink := by
  have hsound : ∀ n s, m.run n (.initial sink) = some s → s.Sound m := by
    intro n s hs
    obtain ⟨t, ht, hsound⟩ := (Cursor.Sound.initial m sink).run hsize n
    rwa [Option.some.inj (hs.symm.trans ht)]
  constructor
  · intro n
    obtain ⟨t, ht, hsound⟩ := (Cursor.Sound.initial m sink).run hsize n
    exact ⟨t, ht, hsound.fits⟩
  · intro n s hs htask
    have hready := (hsound n s hs).ready
    rw [Cursor.Ready, htask] at hready
    exact hready.2.1
  · intro n s hs hhead hlt
    have hfits := (hsound n s hs).fits
    obtain ⟨front, rest, hbetween⟩ := hfits.exists_between
    cases rest with
    | nil => exact absurd (by simpa using hbetween.size) (Nat.ne_of_gt hlt)
    | cons c rest =>
      obtain ⟨k, hrun, -, hall⟩ := Machine.exists_turn hsize (hsound n s hs) hhead hbetween
      refine ⟨k, _, hrun, rfl, ?_, Machine.atMostOne_behind m s _, hall⟩
      exact Position.lt_after (Piece.first_text_ne_nil c rest) s.place
  · have hinitial : m.Between (Cursor.initial sink) [] m.source.toList := ⟨rfl, rfl⟩
    obtain ⟨n, t, hrun, hstop, htokens, hsink⟩ :=
      Machine.exists_stop hsize (.initial m sink) rfl hinitial
    refine ⟨n, t, hrun, hstop, ?_⟩
    rw [htokens, hsink]
    rfl

/-- Characters of one to four bytes, a string of two lines, a number in front of a point, and a
string that stays open. -/
theorem runsSafely_mixed :
    (Machine.mk 63 .report Log.report "é\"ü\n𝄞\" 1.\"€").source.utf8ByteSize < 2 ^ 63 ∧
      RunsSafely (Machine.mk 63 .report Log.report "é\"ü\n𝄞\" 1.\"€") Log.empty :=
  ⟨by decide, runsSafely_of_size_lt _ _ (by decide)⟩

end LoxTokens
