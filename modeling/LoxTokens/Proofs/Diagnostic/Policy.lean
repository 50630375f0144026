import LoxTokens.Proofs.Source.Legible
import LoxTokens.Proofs.Source.Outline

/-!
# What the choice of a policy changes

The policy is asked in one place only: when a character begins no token, it says whether
to report it. It moves no position and makes no token. A string that is never closed is
reported whatever the policy, and behind such a string there is nothing left to report.

`scan_policies` puts the two policies side by side.
-/

namespace LoxTokens

/-- Under the policy to skip, a piece gives rise to the diagnostic it gives rise to under
the other, unless that is about a character. -/
theorem Piece.diagnostic?_skip (p : Position) (x : Piece) : x.diagnostic? .skip p =
    (x.diagnostic? .report p).filter fun d => d.fault = .unterminatedString := by
  cases x with
  | blank => rfl
  | comment => rfl
  | lexeme => rfl
  | unknown => rfl
  | openString => rfl

/-- What is kept of the diagnostics of pieces is what each of them keeps of its own. -/
theorem gather_filter {α : Type} (f : Position → Piece → Option α) (keep : α → Bool)
    (p : Position) (ps : List Piece) :
    gather (fun q x => (f q x).filter keep) p ps = (gather f p ps).filter keep := by
  induction ps generalizing p with
  | nil => rfl
  | cons x xs ih =>
    have hhead : ((f p x).filter keep).toList = (f p x).toList.filter keep := by
      cases f p x with
      | none => rfl
      | some a => by_cases ha : keep a = true <;> simp [Option.filter, ha]
    rw [gather, gather, ih, hhead, List.filter_append]

theorem diagnosticsAt_skip (p : Position) (ps : List Piece) : diagnosticsAt .skip p ps =
    (diagnosticsAt .report p ps).filter fun d => d.fault = .unterminatedString := by
  have hskip : Piece.diagnostic? .skip = fun q x =>
      (Piece.diagnostic? .report q x).filter fun d => d.fault = .unterminatedString := by
    funext q x
    exact x.diagnostic?_skip q
  rw [diagnosticsAt, diagnosticsAt, hskip, gather_filter]

/-- A string that is never closed is the last piece. So its diagnostic comes last, behind
those of characters only, and has the line on which everything ends. -/
theorem exists_closing (policy : Policy) {ps : List Piece} (hps : Legible ps) (p : Position) :
    ∃ characters closing, diagnosticsAt policy p ps = characters ++ closing ∧
      (∀ d ∈ characters, d.fault = .unexpectedCharacter) ∧
      (closing = [] ∨
        closing = [⟨.unterminatedString, (p.after (ps.flatMap Piece.text)).line⟩]) := by
  induction hps generalizing p with
  | nil => exact ⟨[], [], rfl, by simp, Or.inl rfl⟩
  | @cons x xs hx hends hxs ih =>
    obtain ⟨characters, closing, hds, hcharacters, hclosing⟩ := ih (p.after x.text)
    rw [List.flatMap_cons, Position.after_append]
    cases x with
    | blank => exact ⟨characters, closing, hds, hcharacters, hclosing⟩
    | comment => exact ⟨characters, closing, hds, hcharacters, hclosing⟩
    | lexeme => exact ⟨characters, closing, hds, hcharacters, hclosing⟩
    | unknown c =>
      cases policy with
      | skip => exact ⟨characters, closing, hds, hcharacters, hclosing⟩
      | report =>
        refine ⟨⟨.unexpectedCharacter, p.line⟩ :: characters, closing, ?_, ?_, hclosing⟩
        · rw [List.cons_append, ← hds]
          rfl
        · exact List.forall_mem_cons.mpr ⟨rfl, hcharacters⟩
    | openString body =>
      obtain rfl : xs = [] := hxs.eq_nil_of_text hends
      exact ⟨[], _, rfl, by simp, Or.inr rfl⟩

/-- When characters are passed over, an open string is all that can be left. -/
theorem diagnosticsAt_skip_cases {ps : List Piece} (hps : Legible ps) (p : Position) :
    diagnosticsAt .skip p ps = [] ∨ diagnosticsAt .skip p ps =
      [⟨.unterminatedString, (p.after (ps.flatMap Piece.text)).line⟩] := by
  obtain ⟨characters, closing, hds, hcharacters, hclosing⟩ := exists_closing .skip hps p
  have hnil : characters = [] := by
    apply List.eq_nil_iff_forall_not_mem.mpr
    intro d hd
    have hmem : d ∈ diagnosticsAt .skip p ps := by
      rw [hds]
      exact List.mem_append_left _ hd
    rw [diagnosticsAt_skip] at hmem
    have hfault := (List.mem_filter.mp hmem).2
    rw [hcharacters d hd] at hfault
    cases hfault
  rwa [hds, hnil, List.nil_append]

/-- The two policies differ in what they report, and in nothing else. Skipping leaves out
the diagnostics about characters and keeps the others as they are and in their order.
Under either policy an open string is reported once at most, behind everything else, and
for the line of the mark that ends the tokens. -/
structure DiffersInReports (source : String) : Prop where
  tokens : (scan .skip source).1 = (scan .report source).1
  diagnostics : (scan .skip source).2.toList =
    (scan .report source).2.toList.filter fun d => d.fault = .unterminatedString
  last : ∀ policy, ∃ front mark characters closing,
    (scan policy source).1 = front ++ [mark] ∧ mark.kind = .endOfSource ∧
      (scan policy source).2.toList = characters ++ closing ∧
      (∀ d ∈ characters, d.fault = .unexpectedCharacter) ∧
      (closing = [] ∨ closing = [⟨.unterminatedString, mark.line⟩])

theorem scan_policies (source : String) : DiffersInReports source := by
  constructor
  · rw [tokens_scan, tokens_scan]
  · rw [toList_scan, toList_scan, diagnosticsAt_skip]
  · intro policy
    obtain ⟨characters, closing, hds, hcharacters, hclosing⟩ :=
      exists_closing policy (legible_pieces source.toList) .start
    rw [flatMap_text_pieces] at hclosing
    rw [← toList_scan] at hds
    exact ⟨_, _, characters, closing, tokens_scan policy source, rfl, hds, hcharacters, hclosing⟩

end LoxTokens
