import LoxTokens.CommandLine.Program
import LoxTokens.Proofs.Source.Outline

/-!
# One scan for every sink

A scan hands its diagnostics to a sink and never looks at the sink again. So what is
scanned is the same for all of them: the tokens do not depend on the sink, and the sink
has taken, one after another, the diagnostics that an empty log would have collected.

`scan_seenAlike` says so for any sink and any state it may be in, and says what this
comes to for a function that is told the line and the wording, for a log in use, for a
scan that prints and for one that stops at the first diagnostic.
-/

namespace LoxTokens

universe u

/-- The sink that tells a function the line and the wording of each diagnostic. -/
def Diagnostic.tell {σ : Type u} (f : σ → Nat → String → σ) (s : σ) (d : Diagnostic) : σ :=
  f s d.line d.fault.text

/-- The line that is printed for a diagnostic. -/
def Diagnostic.printed (d : Diagnostic) : String := d.message ++ "\n"

theorem Diagnostic.newline_not_mem_message (d : Diagnostic) : '\n' ∉ d.message.toList := by
  have hline : '\n' ∉ Nat.toDigits 10 d.line := by
    intro hm
    exact absurd (Nat.isDigit_of_mem_toDigits (by decide) (by decide) hm) (by decide)
  have hfault : '\n' ∉ d.fault.text.toList := by
    cases d.fault <;> decide
  simp [message, hline, hfault]

theorem Transcript.foldl_report (t : Transcript) (ds : List Diagnostic) :
    ds.foldl report t =
      ⟨t.text ++ String.join (ds.map Diagnostic.printed), t.failed || !ds.isEmpty⟩ := by
  induction ds generalizing t with
  | nil => simp
  | cons d ds ih =>
    rw [List.foldl_cons, ih]
    simp [report, Diagnostic.printed, String.append_assoc]

theorem count_newline_printed (ds : List Diagnostic) :
    (String.join (ds.map Diagnostic.printed)).toList.count '\n' = ds.length := by
  induction ds with
  | nil => rfl
  | cons d ds ih =>
    have hline : d.printed.toList.count '\n' = 1 := by
      rw [Diagnostic.printed, String.toList_append, List.count_append,
        List.count_eq_zero.mpr d.newline_not_mem_message]
      rfl
    rw [List.map_cons, String.join_cons, String.toList_append, List.count_append, hline, ih,
      List.length_cons, Nat.add_comm]

/-- The tokens of a scan do not depend on its sink, which takes in order the diagnostics that
an empty log collects. -/
theorem scanInto_eq_scan {σ : Type u} (policy : Policy) (report : σ → Diagnostic → σ) (s : σ)
    (source : String) : scanInto policy report s source =
      ((scan policy source).1, (scan policy source).2.toList.foldl report s) := by
  rw [scanInto_eq, tokens_scan, toList_scan]

theorem scanPrinting_eq (policy : Policy) (source : String) : scanPrinting policy source =
    ((scan policy source).1,
      ⟨String.join ((scan policy source).2.toList.map Diagnostic.printed),
        !(scan policy source).2.toList.isEmpty⟩) := by
  rw [scanPrinting, scanInto_eq_scan, Transcript.foldl_report]
  simp [Transcript.empty]

/-- The code that a scan with these reports leads to. -/
def codeOf (reports : List Diagnostic) : Nat :=
  if reports = [] then successCode else faultCode

theorem codeOf_ne_unread (ds : List Diagnostic) : codeOf ds ≠ 66 := by
  by_cases h : ds = [] <;> simp [codeOf, h, successCode, faultCode]

theorem codeOf_faulty_iff (ds : List Diagnostic) : codeOf ds = 65 ↔ ds ≠ [] := by
  by_cases h : ds = [] <;> simp [codeOf, h, successCode, faultCode]

theorem codeOf_clean_iff (ds : List Diagnostic) : codeOf ds = 0 ↔ ds = [] := by
  by_cases h : ds = [] <;> simp [codeOf, h, successCode, faultCode]

theorem code_scanPrinting (policy : Policy) (source : String) :
    (scanPrinting policy source).2.code = codeOf (scan policy source).2.toList := by
  rw [scanPrinting_eq]
  by_cases h : (scan policy source).2.toList = [] <;> simp [Transcript.code, codeOf, h]

theorem tokenize_eq (source : String) : tokenize source =
    match (scan .report source).2.toList with
    | [] => .ok (scan .report source).1
    | d :: _ => .error d := rfl

theorem tokenize_eq_error_iff {source : String} {d : Diagnostic} :
    tokenize source = .error d ↔ (scan .report source).2.toList.head? = some d := by
  rw [tokenize_eq]
  cases (scan .report source).2.toList <;> simp

theorem tokenize_eq_ok_iff {source : String} {tokens : List Token} :
    tokenize source = .ok tokens ↔
      (scan .report source).2.toList = [] ∧ tokens = (scan .report source).1 := by
  rw [tokenize_eq]
  cases (scan .report source).2.toList <;> simp [eq_comm]

/-- Every sink is given the diagnostics that an empty log collects, in their order, and the
tokens are the same for all. A function is told each line with the wording of the fault; a
log keeps what it held in front of them; a scan that prints has printed one line for each,
and its code is 65 when there is any and 0 when there is none. One that stops at the first
diagnostic gives just that, and the tokens when there is none. -/
structure SeenAlike (policy : Policy) (source : String) : Prop where
  sink : ∀ {σ : Type u} (report : σ → Diagnostic → σ) (s : σ),
    scanInto policy report s source =
      ((scan policy source).1, (scan policy source).2.toList.foldl report s)
  told : ∀ {σ : Type u} (f : σ → Nat → String → σ) (s : σ),
    scanInto policy (Diagnostic.tell f) s source =
      ((scan policy source).1, ((scan policy source).2.toList.map fun d =>
        (d.line, d.fault.text)).foldl (fun s told => f s told.1 told.2) s)
  log : ∀ log : Log, (log.scan policy source).1 = (scan policy source).1 ∧
    (log.scan policy source).2.toList = log.toList ++ (scan policy source).2.toList
  tokens_printing : (scanPrinting policy source).1 = (scan policy source).1
  text : (scanPrinting policy source).2.text =
    String.join ((scan policy source).2.toList.map fun d =>
      "[line " ++ toString d.line ++ "] Error: " ++ d.fault.text ++ "\n")
  lines : (scanPrinting policy source).2.text.toList.count '\n' =
    (scan policy source).2.toList.length
  faulty_iff : (scanPrinting policy source).2.code = 65 ↔ (scan policy source).2.toList ≠ []
  clean_iff : (scanPrinting policy source).2.code = 0 ↔ (scan policy source).2.toList = []
  error_iff : ∀ d, tokenize source = .error d ↔ (scan .report source).2.toList.head? = some d
  ok_iff : ∀ tokens, tokenize source = .ok tokens ↔
    (scan .report source).2.toList = [] ∧ tokens = (scan .report source).1

theorem scan_seenAlike (policy : Policy) (source : String) : SeenAlike.{u} policy source where
  sink report s := scanInto_eq_scan policy report s source
  told f s := by
    rw [scanInto_eq_scan, List.foldl_map]
    rfl
  log log := by
    rw [Log.scan, scanInto_eq_scan]
    exact ⟨rfl, Log.toList_foldl_report log _⟩
  tokens_printing := by rw [scanPrinting_eq]
  text := by
    rw [scanPrinting_eq]
    rfl
  lines := by rw [scanPrinting_eq, count_newline_printed]
  faulty_iff := by rw [code_scanPrinting, codeOf_faulty_iff]
  clean_iff := by rw [code_scanPrinting, codeOf_clean_iff]
  error_iff _ := tokenize_eq_error_iff
  ok_iff _ := tokenize_eq_ok_iff

end LoxTokens
