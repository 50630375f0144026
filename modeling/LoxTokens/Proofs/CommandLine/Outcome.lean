import LoxTokens.Proofs.Diagnostic.Policy
import LoxTokens.Proofs.Diagnostic.Sink

/-!
# What a run leaves behind

Both commands come to an end in one of three ways, and their code says in which: there was
no source, there was something to report, or there was nothing. One command lists the tokens
and the other does not; what they print about faults is the same, and so is the code.

The flag on unknown characters takes away reports and nothing else. `commands_agree` says so
about the text that is printed, line by line, and about the code.
-/

namespace LoxTokens

namespace Invocation

/-- What the invocation leaves behind when reading its input came to `input`: a source, or a
message that says why there is none. -/
def outcome (i : Invocation) (input : Except String String) : Outcome :=
  i.command.run i.policy i.path input

/-- What the scan that is asked for reports about a source. -/
def reports (i : Invocation) (source : String) : List Diagnostic :=
  (scan i.policy source).2.toList

end Invocation

section Outcome

variable {i : Invocation} {source : String}

theorem outcome_tokens (h : i.command = .tokens) : i.outcome (.ok source) =
    ⟨codeOf (i.reports source),
      String.join ((scan i.policy source).1.map fun t => t.text ++ "\n"),
      String.join ((i.reports source).map Diagnostic.printed)⟩ := by
  have hlist : i.outcome (.ok source) =
      ⟨(scanPrinting i.policy source).2.code, Token.listing (scanPrinting i.policy source).1,
        (scanPrinting i.policy source).2.text⟩ := by
    rw [Invocation.outcome, h]
    rfl
  rw [hlist, code_scanPrinting, scanPrinting_eq]
  rfl

theorem outcome_check (h : i.command = .check) : i.outcome (.ok source) =
    ⟨codeOf (i.reports source), "",
      String.join ((i.reports source).map Diagnostic.printed) ++
        if i.reports source = [] then "OK: " ++ i.path ++ "\n" else ""⟩ := by
  have hcheck : i.outcome (.ok source) =
      ⟨(scanPrinting i.policy source).2.code, "", (scanPrinting i.policy source).2.text ++
        if (scanPrinting i.policy source).2.failed then "" else "OK: " ++ i.path ++ "\n"⟩ := by
    rw [Invocation.outcome, h]
    rfl
  rw [hcheck, code_scanPrinting, scanPrinting_eq]
  by_cases hnil : (scan i.policy source).2.toList = [] <;> simp [Invocation.reports, hnil]

theorem code_outcome (i : Invocation) (source : String) :
    (i.outcome (.ok source)).code = codeOf (i.reports source) := by
  cases h : i.command with
  | tokens => rw [outcome_tokens h]
  | check => rw [outcome_check h]

end Outcome

/-- The text without the lines that end with `ending`. -/
def withoutLines (ending text : String) : String :=
  String.ofList (['\n'].intercalate
    ((text.toList.splitOn '\n').filter fun line => ¬ending.toList <:+ line))

/-- Lines that each end with a newline are what stands between newlines, with nothing behind
the last. -/
theorem flatMap_newline (lines : List (List Char)) :
    lines.flatMap (· ++ ['\n']) = ['\n'].intercalate (lines ++ [[]]) := by
  induction lines with
  | nil => rfl
  | cons line lines ih =>
    cases lines with
    | nil => simp
    | cons next lines =>
      rw [List.flatMap_cons, ih]
      exact List.intercalate_cons_cons.symm

theorem toList_join_printed (ds : List Diagnostic) :
    (String.join (ds.map Diagnostic.printed)).toList =
      ['\n'].intercalate (ds.map (fun d => d.message.toList) ++ [[]]) := by
  rw [← flatMap_newline, String.toList_join, List.flatMap_map, List.flatMap_map]
  simp [Diagnostic.printed, String.toList_append]

/-- A message ends with the wording of a character that begins nothing exactly when it is
about one, because neither wording ends the other. -/
theorem suffix_message_iff (d : Diagnostic) :
    Fault.unexpectedCharacter.text.toList <:+ d.message.toList ↔
      d.fault = .unexpectedCharacter := by
  have hmessage : d.message.toList =
      ("[line " ++ toString d.line ++ "] Error: ").toList ++ d.fault.text.toList :=
    String.toList_append
  have hsuffix : d.fault.text.toList <:+ d.message.toList := by
    rw [hmessage]
    exact List.suffix_append _ _
  cases hfault : d.fault with
  | unexpectedCharacter =>
    rw [hfault] at hsuffix
    exact iff_of_true hsuffix rfl
  | unterminatedString =>
    rw [hfault] at hsuffix
    refine iff_of_false (fun h => ?_) Fault.noConfusion
    have hshort := List.suffix_of_suffix_length_le hsuffix h (by decide)
    exact absurd hshort (by decide)

/-- Among the lines that are printed, those about characters can be told by their ending. -/
theorem withoutLines_printed (ds : List Diagnostic) :
    withoutLines Fault.unexpectedCharacter.text (String.join (ds.map Diagnostic.printed)) =
      String.join ((ds.filter fun d => d.fault = .unterminatedString).map Diagnostic.printed) := by
  apply String.toList_injective
  have hnewline : ∀ line ∈ ds.map (fun d => d.message.toList) ++ [[]], '\n' ∉ line := by
    simp only [List.mem_append, List.mem_map, List.mem_singleton]
    rintro line (⟨d, -, rfl⟩ | rfl)
    · exact d.newline_not_mem_message
    · simp
  have hlast : [[]].filter (fun line => ¬Fault.unexpectedCharacter.text.toList <:+ line) =
      [[]] := by
    decide
  have hkept : ∀ d ∈ ds, decide (¬Fault.unexpectedCharacter.text.toList <:+ d.message.toList) =
      decide (d.fault = .unterminatedString) := by
    intro d _
    rw [decide_eq_decide, suffix_message_iff]
    cases d.fault <;> decide
  rw [withoutLines, String.toList_ofList, toList_join_printed, toList_join_printed,
    List.splitOn_intercalate _ hnewline (by simp), List.filter_append, List.filter_map, hlast,
    ← List.filter_congr hkept]
  rfl

/-- With the flag the reports about characters are left out. -/
theorem reports_skipUnknown (command : Command) (path source : String) :
    Invocation.reports ⟨command, path, true⟩ source =
      (Invocation.reports ⟨command, path, false⟩ source).filter
        fun d => d.fault = .unterminatedString := by
  simp only [Invocation.reports, toList_scan]
  exact diagnosticsAt_skip _ _

theorem reports_skipUnknown_eq_nil_iff (command : Command) (path source : String) :
    Invocation.reports ⟨command, path, true⟩ source = [] ↔
      ∀ d ∈ Invocation.reports ⟨command, path, false⟩ source, d.fault = .unexpectedCharacter := by
  rw [reports_skipUnknown, List.filter_eq_nil_iff]
  refine forall₂_congr fun d _ => ?_
  cases d.fault <;> decide

theorem run_eq_outcome (path : String) (input : Except String String) (command : Command)
    (flag : Bool) (source : Except ReadError String)
    (hinput : input = source.mapError (ReadError.message (.ofPath path))) :
    Invocation.run ⟨command, path, flag⟩ source =
      Invocation.outcome ⟨command, path, flag⟩ input := by
  rw [hinput]
  rfl

theorem runIn_eq_outcome (path : String) (input : Except String String) (parse : Parser)
    (tree : FileTree) (here : List String) (standardInput : ByteArray) (arguments : List String)
    (command : Command) (flag : Bool)
    (harguments : Invocation.ofArguments parse arguments = .ok ⟨command, path, flag⟩)
    (hinput : input = (tree.readInput here standardInput (.ofPath path)).mapError
      (ReadError.message (.ofPath path))) :
    runIn parse tree here standardInput arguments =
      Invocation.outcome ⟨command, path, flag⟩ input := by
  rw [runIn, harguments]
  exact run_eq_outcome path input command flag _ hinput

/-- What the two commands leave behind for one path, when reading came to `input`. A run of
the program leaves the same when reading fails for one of the known causes, also when it reads
its arguments and the files of a tree by itself.

With the flag or without it, both exit with one code. It is 66 when there is no source, and
then nothing is listed and the message is all that is printed; otherwise it is 65 when the
scan reports something and 0 when it does not. Both print one line for each report. One lists
every token, faults or not; the other lists nothing, and approves when nothing is reported.

The flag changes nothing in the listing. It takes the lines about characters out of what is
printed, and makes success of a failure when every report was about one. -/
structure CommandsAgree (path : String) (input : Except String String) : Prop where
  run_eq : ∀ command flag (source : Except ReadError String),
    input = source.mapError (ReadError.message (.ofPath path)) →
    Invocation.run ⟨command, path, flag⟩ source = Invocation.outcome ⟨command, path, flag⟩ input
  runIn_eq : ∀ parse (tree : FileTree) here standardInput arguments command flag,
    Invocation.ofArguments parse arguments = .ok ⟨command, path, flag⟩ →
    input = (tree.readInput here standardInput (.ofPath path)).mapError
      (ReadError.message (.ofPath path)) →
    runIn parse tree here standardInput arguments =
      Invocation.outcome ⟨command, path, flag⟩ input
  code_eq : ∀ flag, (Invocation.outcome ⟨.check, path, flag⟩ input).code =
    (Invocation.outcome ⟨.tokens, path, flag⟩ input).code
  unread_iff : ∀ command flag, (Invocation.outcome ⟨command, path, flag⟩ input).code = 66 ↔
    ∃ message, input = .error message
  faulty_iff : ∀ command flag, (Invocation.outcome ⟨command, path, flag⟩ input).code = 65 ↔
    ∃ source, input = .ok source ∧ Invocation.reports ⟨command, path, flag⟩ source ≠ []
  clean_iff : ∀ command flag, (Invocation.outcome ⟨command, path, flag⟩ input).code = 0 ↔
    ∃ source, input = .ok source ∧ Invocation.reports ⟨command, path, flag⟩ source = []
  unread : ∀ command flag message, input = .error message →
    (Invocation.outcome ⟨command, path, flag⟩ input).stdout = "" ∧
      (Invocation.outcome ⟨command, path, flag⟩ input).stderr = message ++ "\n"
  listed : ∀ flag source, input = .ok source →
    (Invocation.outcome ⟨.tokens, path, flag⟩ input).stdout =
        String.join ((scan (Invocation.policy ⟨.tokens, path, flag⟩) source).1.map
          fun t => t.text ++ "\n") ∧
      (Invocation.outcome ⟨.tokens, path, flag⟩ input).stderr =
        String.join ((Invocation.reports ⟨.tokens, path, flag⟩ source).map fun d =>
          "[line " ++ toString d.line ++ "] Error: " ++ d.fault.text ++ "\n")
  checked : ∀ flag source, input = .ok source →
    (Invocation.outcome ⟨.check, path, flag⟩ input).stdout = "" ∧
      (Invocation.outcome ⟨.check, path, flag⟩ input).stderr =
        (Invocation.outcome ⟨.tokens, path, flag⟩ input).stderr ++
          if Invocation.reports ⟨.check, path, flag⟩ source = [] then "OK: " ++ path ++ "\n"
          else ""
  flag_stdout : (Invocation.outcome ⟨.tokens, path, true⟩ input).stdout =
    (Invocation.outcome ⟨.tokens, path, false⟩ input).stdout
  flag_stderr : ∀ source, input = .ok source →
    (Invocation.outcome ⟨.tokens, path, true⟩ input).stderr =
      withoutLines "Unexpected character."
        (Invocation.outcome ⟨.tokens, path, false⟩ input).stderr
  flag_code : ∀ command, (Invocation.outcome ⟨command, path, false⟩ input).code = 65 →
    ((Invocation.outcome ⟨command, path, true⟩ input).code = 0 ↔
      ∀ source, input = .ok source → ∀ d ∈ Invocation.reports ⟨command, path, false⟩ source,
        d.fault = .unexpectedCharacter)

theorem commands_agree (path : String) (input : Except String String) :
    CommandsAgree path input := by
  have hrun := run_eq_outcome path input
  have hrunIn := runIn_eq_outcome path input
  cases input with
  | error message =>
    have h : ∀ command flag, Invocation.outcome ⟨command, path, flag⟩ (.error message) =
        ⟨noInputCode, "", message ++ "\n"⟩ := fun _ _ => rfl
    refine ⟨hrun, hrunIn, ?_, ?_, ?_, ?_, ?_, ?_, ?_, ?_, ?_, ?_⟩ <;> simp [h, noInputCode]
  | ok source =>
    have hcode : ∀ command flag, (Invocation.outcome ⟨command, path, flag⟩ (.ok source)).code =
        codeOf (Invocation.reports ⟨command, path, flag⟩ source) := fun _ _ => code_outcome _ _
    have htokens : ∀ flag, Invocation.outcome ⟨.tokens, path, flag⟩ (.ok source) = _ :=
      fun _ => outcome_tokens rfl
    have hcheck : ∀ flag, Invocation.outcome ⟨.check, path, flag⟩ (.ok source) = _ :=
      fun _ => outcome_check rfl
    constructor
    case run_eq => exact hrun
    case runIn_eq => exact hrunIn
    case code_eq =>
      intro flag
      rw [hcode, hcode]
      rfl
    case unread_iff =>
      intro command flag
      rw [hcode]
      simpa using codeOf_ne_unread _
    case faulty_iff =>
      intro command flag
      rw [hcode]
      simpa using codeOf_faulty_iff _
    case clean_iff =>
      intro command flag
      rw [hcode]
      simpa using codeOf_clean_iff _
    case unread => simp
    case listed =>
      rintro flag _ ⟨⟩
      rw [htokens]
      exact ⟨rfl, rfl⟩
    case checked =>
      rintro flag _ ⟨⟩
      rw [htokens, hcheck]
      exact ⟨rfl, rfl⟩
    case flag_stdout => rw [htokens, htokens, tokens_scan, tokens_scan]
    case flag_stderr =>
      rintro _ ⟨⟩
      rw [htokens, htokens, reports_skipUnknown]
      exact (withoutLines_printed _).symm
    case flag_code =>
      intro command _
      rw [hcode]
      simpa using (codeOf_clean_iff _).trans (reports_skipUnknown_eq_nil_iff _ _ _)

end LoxTokens
