import LoxTokens.CommandLine.Invocation
import LoxTokens.Proofs.CommandLine.Reader

/-!
# What the command line accepts

The program leaves its arguments to a parser of which only the laws are known, and each
law speaks of one argument. What is accepted behind a command, and then in front of it,
follows by induction on the arguments, for any declaration that is in order.

`accepts_grammar` says what arguments of this program are accepted in the end, as a shape
of the whole list, and which invocation they spell.
-/

namespace LoxTokens

/-- The arguments between the word of a command and a separator are switches, each of them
once at most, and free arguments. -/
structure Between (switches words : List String) : Prop where
  form : ∀ a ∈ words, (∃ s ∈ switches, a = spelled s) ∨ IsFree a
  once : ∀ s ∈ switches, words.count (spelled s) ≤ 1

/-- What the arguments end with: nothing, or a separator and paths. -/
def EndsIn (rest paths : List String) : Prop :=
  rest = [] ∧ paths = [] ∨ rest = "--" :: paths

/-- The first argument is the separator, or one of those in front of it. -/
theorem EndsIn.cons_eq {a : String} {args words rest paths : List String}
    (h : EndsIn rest paths) (hargs : a :: args = words ++ rest) :
    (words = [] ∧ a = "--" ∧ paths = args) ∨
      ∃ later, words = a :: later ∧ args = later ++ rest := by
  rcases List.cons_eq_append_iff.mp hargs with ⟨rfl, rfl⟩ | hlater
  · rcases h with ⟨hnil, -⟩ | hcons
    · cases hnil
    · obtain ⟨rfl, rfl⟩ := List.cons.inj hcons
      exact Or.inl ⟨rfl, rfl, rfl⟩
  · exact Or.inr hlater

theorem IsFree.ne_separator {a : String} (h : IsFree a) : a ≠ "--" := by
  rintro rfl
  exact absurd h (by decide)

namespace Between

variable {switches words : List String} {a s : String}

theorem nil : Between switches [] := ⟨by simp, by simp⟩

theorem cons_free (ha : IsFree a) : Between switches (a :: words) ↔ Between switches words := by
  have hne : ∀ s, a ≠ spelled s := by
    rintro s rfl
    exact not_isFree_spelled s ha
  constructor
  · rintro ⟨hform, honce⟩
    refine ⟨(List.forall_mem_cons.mp hform).2, fun s hs => ?_⟩
    rw [← List.count_cons_of_ne (hne s)]
    exact honce s hs
  · rintro ⟨hform, honce⟩
    refine ⟨List.forall_mem_cons.mpr ⟨Or.inr ha, hform⟩, fun s hs => ?_⟩
    rw [List.count_cons_of_ne (hne s)]
    exact honce s hs

theorem cons_switch (hs : s ∈ switches) :
    Between switches (spelled s :: words) ↔ spelled s ∉ words ∧ Between switches words := by
  constructor
  · rintro ⟨hform, honce⟩
    have hcount := honce s hs
    rw [List.count_cons_self] at hcount
    refine ⟨List.count_eq_zero.mp (by omega), (List.forall_mem_cons.mp hform).2, fun t ht => ?_⟩
    exact (List.count_le_count_cons ..).trans (honce t ht)
  · rintro ⟨hnew, hform, honce⟩
    refine ⟨List.forall_mem_cons.mpr ⟨Or.inl ⟨s, hs, rfl⟩, hform⟩, fun t ht => ?_⟩
    rw [List.count_cons]
    by_cases hst : s = t
    · subst hst
      rw [List.count_eq_zero.mpr hnew]
      simp
    · have hne : spelled s ≠ spelled t := fun h => hst (spelled_injective h)
      simpa [hne] using honce t ht

end Between

/-- Which switches are set by these arguments. -/
def setBy (switches words : List String) (s : String) : Bool :=
  decide (s ∈ switches ∧ spelled s ∈ words)

theorem setBy_nil (switches : List String) : setBy switches [] = fun _ => false := by
  funext s
  simp [setBy]

theorem setBy_cons_free {switches : List String} {a : String} (ha : IsFree a)
    (words : List String) : setBy switches (a :: words) = setBy switches words := by
  have hne : ∀ s, spelled s ≠ a := by
    rintro s rfl
    exact not_isFree_spelled s ha
  funext s
  simp [setBy, hne]

theorem setBy_cons_switch {switches : List String} {s : String} (hs : s ∈ switches)
    (words : List String) : setBy switches (spelled s :: words) =
      fun t => t == s || setBy switches words t := by
  funext t
  by_cases hst : t = s
  · simp [setBy, hst, hs]
  · have hne : spelled t ≠ spelled s := fun h => hst (spelled_injective h)
    simp [setBy, hst, hne]

namespace Declaration

variable {d : Declaration} {words rest paths args : List String} {a s : String} {m : Matches}

/-- The arguments behind the word of a command are read as free ones and switches, and behind
a separator as free ones alone. -/
structure Reads (d : Declaration) (args words rest paths : List String) (m : Matches) : Prop where
  args_eq : args = words ++ rest
  between : Between d.switches words
  ends : EndsIn rest paths
  length_eq : (words.filter IsFree ++ paths).length = d.values.length
  found : m = ⟨setBy d.switches words, [], words.filter IsFree ++ paths⟩

/-- The words are the arguments of their level. -/
theorem level_append (hd : ∀ s ∈ d.switches, IsName s) (hcommands : d.commands = [])
    (hwords : Between d.switches words) (hrest : EndsIn rest paths) :
    d.level (words ++ rest) = words := by
  induction words with
  | nil =>
    rcases hrest with ⟨rfl, -⟩ | rfl
    · rfl
    · exact level_separator paths
  | cons a words ih =>
    rcases hwords.form a List.mem_cons_self with ⟨s, hs, rfl⟩ | hfree
    · have hlater := ((Between.cons_switch hs).mp hwords).2
      rw [List.cons_append, level_flag (not_isFree_spelled s) (hd s hs).spelled_ne, ih hlater]
    · have hlater := (Between.cons_free hfree).mp hwords
      rw [List.cons_append, level_free hfree hcommands, ih hlater]

/-- What is found in arguments that are read in this way. -/
def Finds (d : Declaration) (args : List String) (m : Matches) : Prop :=
  ∃ words rest paths, d.Reads args words rest paths m

theorem finds_nil : d.Finds [] m ↔ d.values = [] ∧ m = .nothing := by
  constructor
  · rintro ⟨words, rest, paths, hargs, -, hends, hlength, rfl⟩
    obtain ⟨rfl, rfl⟩ := List.append_eq_nil_iff.mp hargs.symm
    rcases hends with ⟨-, rfl⟩ | hrest
    · exact ⟨List.length_eq_zero_iff.mp hlength.symm, by rw [setBy_nil]; rfl⟩
    · cases hrest
  · rintro ⟨hvalues, rfl⟩
    refine ⟨[], [], [], rfl, .nil, Or.inl ⟨rfl, rfl⟩, ?_, ?_⟩
    · rw [hvalues]
      rfl
    · rw [setBy_nil]
      rfl

theorem finds_separator (hd : ∀ s ∈ d.switches, IsName s) : d.Finds ("--" :: args) m ↔
    args.length = d.values.length ∧ m = { Matches.nothing with values := args } := by
  constructor
  · rintro ⟨words, rest, paths, hargs, hbetween, hends, hlength, rfl⟩
    rcases hends.cons_eq hargs with ⟨rfl, -, rfl⟩ | ⟨later, rfl, -⟩
    · exact ⟨hlength, by rw [setBy_nil]; rfl⟩
    · rcases hbetween.form _ List.mem_cons_self with ⟨s, hs, heq⟩ | hfree
      · exact absurd heq.symm (hd s hs).spelled_ne
      · exact absurd hfree not_isFree_separator
  · rintro ⟨hlength, rfl⟩
    exact ⟨[], _, args, rfl, .nil, Or.inr rfl, hlength, by rw [setBy_nil]; rfl⟩

theorem finds_free (ha : IsFree a) : d.Finds (a :: args) m ↔
    ∃ name names, d.values = name :: names ∧
      ∃ found, { d with values := names }.Finds args found ∧ m = found.addValue a := by
  have hfilter : ∀ words, (a :: words).filter IsFree = a :: words.filter IsFree := fun words =>
    List.filter_cons_of_pos (by simpa using ha)
  constructor
  · rintro ⟨words, rest, paths, hargs, hbetween, hends, hlength, rfl⟩
    rcases hends.cons_eq hargs with ⟨-, rfl, -⟩ | ⟨later, rfl, rfl⟩
    · exact absurd ha not_isFree_separator
    · rw [hfilter, List.cons_append, List.length_cons] at hlength
      obtain ⟨name, names, hvalues⟩ := List.exists_cons_of_length_eq_add_one hlength.symm
      rw [hvalues, List.length_cons] at hlength
      refine ⟨name, names, hvalues, _, ⟨later, rest, paths, rfl,
        (Between.cons_free ha).mp hbetween, hends, Nat.succ.inj hlength, rfl⟩, ?_⟩
      rw [hfilter, setBy_cons_free ha]
      rfl
  · rintro ⟨name, names, hvalues, _, ⟨words, rest, paths, rfl, hbetween, hends, hlength, rfl⟩, rfl⟩
    refine ⟨a :: words, rest, paths, rfl, (Between.cons_free ha).mpr hbetween, hends, ?_, ?_⟩
    · rw [hfilter, hvalues, List.cons_append, List.length_cons, List.length_cons, hlength]
    · rw [hfilter, setBy_cons_free ha]
      rfl

theorem finds_switch (hd : ∀ s ∈ d.switches, IsName s) (hcommands : d.commands = [])
    (hs : s ∈ d.switches) : d.Finds (spelled s :: args) m ↔
      spelled s ∉ d.level args ∧ ∃ found, d.Finds args found ∧ m = found.set s := by
  have hfilter : ∀ words, (spelled s :: words).filter IsFree = words.filter IsFree := fun words =>
    List.filter_cons_of_neg (by simpa using not_isFree_spelled s)
  constructor
  · rintro ⟨words, rest, paths, hargs, hbetween, hends, hlength, rfl⟩
    rcases hends.cons_eq hargs with ⟨-, hseparator, -⟩ | ⟨later, rfl, rfl⟩
    · exact absurd hseparator (hd s hs).spelled_ne
    · obtain ⟨hnew, hlater⟩ := (Between.cons_switch hs).mp hbetween
      rw [hfilter] at hlength ⊢
      refine ⟨?_, _, ⟨later, rest, paths, rfl, hlater, hends, hlength, rfl⟩, ?_⟩
      · rwa [level_append hd hcommands hlater hends]
      · rw [setBy_cons_switch hs]
        rfl
  · rintro ⟨hnew, _, ⟨words, rest, paths, rfl, hbetween, hends, hlength, rfl⟩, rfl⟩
    rw [level_append hd hcommands hbetween hends] at hnew
    refine ⟨spelled s :: words, rest, paths, rfl,
      (Between.cons_switch hs).mpr ⟨hnew, hbetween⟩, hends, ?_, ?_⟩
    · rwa [hfilter]
    · rw [setBy_cons_switch hs, hfilter]
      rfl

theorem not_finds_unknown (ha : ¬IsFree a) (hne : a ≠ "--")
    (hswitch : ∀ s ∈ d.switches, a ≠ spelled s) : ¬d.Finds (a :: args) m := by
  rintro ⟨words, rest, paths, hargs, hbetween, hends, -, -⟩
  rcases hends.cons_eq hargs with ⟨-, hseparator, -⟩ | ⟨later, rfl, rfl⟩
  · exact hne hseparator
  · rcases hbetween.form a List.mem_cons_self with ⟨s, hs, heq⟩ | hfree
    · exact hswitch s hs heq
    · exact ha hfree

/-- Taking away the first value leaves a declaration in order. -/
theorem Valid.tail (hd : d.Valid) (hcommands : d.commands = []) (names : List String) :
    { d with values := names }.Valid := by
  obtain ⟨hswitches, hnames, hdistinct, hwords, -, hbelow⟩ := hd
  exact ⟨hswitches, hnames, hdistinct, hwords, fun h => absurd hcommands h, hbelow⟩

/-- In front of the word of a command the switches are the arguments of their level. -/
theorem Valid.level_front {c : Declaration} {front : List String} (hd : d.Valid)
    (hc : c ∈ d.commands) (hfront : ∀ a ∈ front, ∃ s ∈ d.switches, a = spelled s) :
    d.level (front ++ c.word :: rest) = front := by
  induction front with
  | nil => exact level_command (hd.isFree_word c hc) (List.ne_nil_of_mem hc) rest
  | cons a front ih =>
    obtain ⟨⟨s, hs, rfl⟩, hlater⟩ := List.forall_mem_cons.mp hfront
    rw [List.cons_append, level_flag (not_isFree_spelled s) (hd.isName s hs).spelled_ne,
      ih hlater]

end Declaration

namespace Parser.Lawful

variable {parse : Parser} {d : Declaration} {args : List String} {m : Matches}

/-- What a lawful parser finds where there are no commands. -/
theorem finds_iff (h : parse.Lawful) (hd : d.Valid) (hcommands : d.commands = []) :
    parse d args = .ok m ↔ d.Finds args m := by
  induction args generalizing d m with
  | nil =>
    rw [h.nil hd, Declaration.finds_nil]
    exact and_iff_right hcommands
  | cons a args ih =>
    rcases exists_form d.switches a with rfl | hfree | ⟨s, hs, rfl⟩ | ⟨hfree, hne, hswitch⟩
    · rw [h.separator hd hcommands, Declaration.finds_separator hd.isName]
    · have hrest : ∀ names found, parse { d with values := names } args = .ok found ↔
          { d with values := names }.Finds args found := fun names found =>
        ih (hd.tail hcommands names) hcommands
      rw [h.value hd hcommands hfree, Declaration.finds_free hfree]
      simp only [hrest]
    · rw [h.switch hd hs, Declaration.finds_switch hd.isName hcommands hs]
      simp only [ih hd hcommands]
    · exact iff_of_false (h.unknown hd hfree hne hswitch)
        (Declaration.not_finds_unknown hfree hne hswitch)

/-- In front of the word of a command nothing but switches is accepted. -/
theorem exists_command (h : parse.Lawful) (hd : d.Valid) (hcommands : d.commands ≠ []) {a : String}
    (hok : parse d (a :: args) = .ok m) :
    (∃ s ∈ d.switches, a = spelled s) ∨ ∃ c ∈ d.commands, a = c.word := by
  by_contra hnone
  rw [not_or, not_exists, not_exists] at hnone
  have hword : ∀ c ∈ d.commands, a ≠ c.word := fun c hc heq => hnone.2 c ⟨hc, heq⟩
  rcases exists_form d.switches a with hseparator | hfree | ⟨s, hs, rfl⟩ | ⟨hfree, hne, hswitch⟩
  · exact h.other hd hcommands (Or.inl hseparator) hword hok
  · exact h.other hd hcommands (Or.inr hfree) hword hok
  · exact hnone.1 s ⟨hs, rfl⟩
  · exact h.unknown hd hfree hne hswitch hok

/-- What a lawful parser finds where a command is required: switches in front of its word, and
behind it what the command finds. -/
theorem command_iff (h : parse.Lawful) (hd : d.Valid) (hcommands : d.commands ≠ []) :
    parse d args = .ok m ↔ ∃ front c rest found, args = front ++ c.word :: rest ∧
      c ∈ d.commands ∧ front.Nodup ∧ (∀ a ∈ front, ∃ s ∈ d.switches, a = spelled s) ∧
      parse (c.inherit d.switches) rest = .ok found ∧
      m = ⟨fun s => setBy d.switches front s || found.isSet s, c.word :: found.words,
        found.values⟩ := by
  induction args generalizing m with
  | nil =>
    refine iff_of_false (fun hok => hcommands ((h.nil hd).mp hok).1) ?_
    rintro ⟨front, c, rest, found, hargs, -⟩
    exact absurd hargs.symm (List.append_ne_nil_of_right_ne_nil _ (List.cons_ne_nil _ _))
  | cons a args ih =>
    constructor
    · intro hok
      rcases h.exists_command hd hcommands hok with ⟨s, hs, rfl⟩ | ⟨c, hc, rfl⟩
      · obtain ⟨hnew, found, hfound, rfl⟩ := (h.switch hd hs).mp hok
        obtain ⟨front, c, rest, behind, rfl, hc, hnodup, hfront, hrest, rfl⟩ := ih.mp hfound
        rw [hd.level_front hc hfront] at hnew
        refine ⟨spelled s :: front, c, rest, behind, rfl, hc, List.nodup_cons.mpr ⟨hnew, hnodup⟩,
          List.forall_mem_cons.mpr ⟨⟨s, hs, rfl⟩, hfront⟩, hrest, ?_⟩
        rw [setBy_cons_switch hs]
        simp [Matches.set, Bool.or_assoc]
      · obtain ⟨found, hfound, rfl⟩ := (h.command hd hc).mp hok
        refine ⟨[], c, args, found, rfl, hc, List.nodup_nil, by simp, hfound, ?_⟩
        rw [setBy_nil]
        simp [Matches.behind]
    · rintro ⟨front, c, rest, found, hargs, hc, hnodup, hfront, hfound, rfl⟩
      rcases List.cons_eq_append_iff.mp hargs with ⟨rfl, hcons⟩ | ⟨front, rfl, rfl⟩
      · obtain ⟨rfl, rfl⟩ := List.cons.inj hcons
        refine (h.command hd hc).mpr ⟨found, hfound, ?_⟩
        rw [setBy_nil]
        simp [Matches.behind]
      · obtain ⟨⟨s, hs, rfl⟩, hlater⟩ := List.forall_mem_cons.mp hfront
        obtain ⟨hnew, hnodup⟩ := List.nodup_cons.mp hnodup
        refine (h.switch hd hs).mpr ⟨?_, _,
          ih.mpr ⟨front, c, rest, found, rfl, hc, hnodup, hlater, hfound, rfl⟩, ?_⟩
        · rwa [hd.level_front hc hlater]
        · rw [setBy_cons_switch hs]
          simp [Matches.set, Bool.or_assoc]

end Parser.Lawful

theorem Command.ofWord?_eq_some_iff {word : String} {command : Command} :
    Command.ofWord? word = some command ↔ word = command.word := by
  constructor
  · intro h
    have hword := List.find?_some h
    exact (eq_of_beq hword).symm
  · rintro rfl
    cases command <;> rfl

theorem Declaration.mem_commands_program {c : Declaration} :
    c ∈ program.commands ↔ ∃ command : Command, c = command.declaration := by
  constructor
  · intro hc
    rcases List.mem_cons.mp hc with rfl | hc
    · exact ⟨.tokens, rfl⟩
    · exact ⟨.check, List.mem_singleton.mp hc⟩
  · rintro ⟨command, rfl⟩
    cases command
    · exact List.mem_cons_self
    · exact List.mem_cons_of_mem _ List.mem_cons_self

theorem isName_skipUnknown : IsName "skip-unknown" :=
  ⟨by decide, by decide, by decide, by decide, by decide⟩

theorem Declaration.valid_command (c : Command) :
    (c.declaration.inherit Declaration.program.switches).Valid := by
  refine ⟨fun s hs => ?_, List.nodup_singleton _, List.nodup_nil, nofun, fun h => absurd rfl h,
    nofun⟩
  rw [List.mem_singleton.mp hs]
  exact isName_skipUnknown

/-- What the program declares is in order. -/
theorem Declaration.valid_program : Declaration.program.Valid := by
  refine ⟨fun s hs => ?_, List.nodup_singleton _, by decide, fun c hc => ?_, fun _ => rfl,
    fun c hc => ?_⟩
  · rw [List.mem_singleton.mp hs]
    exact isName_skipUnknown
  · obtain ⟨command, rfl⟩ := mem_commands_program.mp hc
    cases command <;> decide
  · obtain ⟨command, rfl⟩ := mem_commands_program.mp hc
    exact valid_command command

/-- What a parser finds in arguments that spell an invocation. -/
def Invocation.found (i : Invocation) : Matches :=
  ⟨fun s => s == "skip-unknown" && i.skipUnknown, [i.command.word], [i.path]⟩

theorem Invocation.ofMatches_found (i : Invocation) : ofMatches i.found = .ok i := by
  have hword := Command.ofWord?_eq_some_iff.mpr (rfl : i.command.word = i.command.word)
  simp [ofMatches, found, hword]

theorem Invocation.ofArguments_of_ok {parse : Parser} {args : List String} {i : Invocation}
    (h : parse .program args = .ok i.found) : ofArguments parse args = .ok i := by
  rw [ofArguments, h]
  exact ofMatches_found i

/-- A switch that is the only one stands alone or not at all, when it may not be repeated. -/
theorem nodup_iff_of_forall_eq {front : List String} {a : String} :
    front.Nodup ∧ (∀ b ∈ front, b = a) ↔ front = [] ∨ front = [a] := by
  constructor
  · rintro ⟨hnodup, hfront⟩
    cases front with
    | nil => exact Or.inl rfl
    | cons b front =>
      obtain ⟨rfl, hlater⟩ := List.forall_mem_cons.mp hfront
      obtain ⟨hnew, -⟩ := List.nodup_cons.mp hnodup
      cases front with
      | nil => exact Or.inr rfl
      | cons c front =>
        obtain rfl := hlater c List.mem_cons_self
        exact absurd List.mem_cons_self hnew
  · rintro (rfl | rfl) <;> simp

/-- The arguments spell the invocation: the flag or nothing, the word of the command, what
stands `behind` it, and nothing more or a separator with paths. Behind the command stand free
arguments and, once at most, the flag. The free ones and the paths are one in all. -/
structure Spells (args front : List String) (word : String) (behind rest paths : List String)
    (i : Invocation) : Prop where
  args_eq : args = front ++ word :: (behind ++ rest)
  front_eq : front = [] ∨ front = ["--skip-unknown"]
  word_eq : word = "tokens" ∧ i.command = .tokens ∨ word = "check" ∧ i.command = .check
  separator : "--" ∉ behind
  form : ∀ a ∈ behind, a = "--skip-unknown" ∨ IsFree a
  once : behind.count "--skip-unknown" ≤ 1
  rest_eq : rest = [] ∧ paths = [] ∨ rest = "--" :: paths
  path : behind.filter IsFree ++ paths = [i.path]
  flag : i.skipUnknown = true ↔ "--skip-unknown" ∈ front ∨ "--skip-unknown" ∈ behind

theorem spelled_skipUnknown : spelled "skip-unknown" = "--skip-unknown" := by decide

theorem Between.skipUnknown_iff {behind : List String} : Between ["skip-unknown"] behind ↔
    (∀ a ∈ behind, a = "--skip-unknown" ∨ IsFree a) ∧ behind.count "--skip-unknown" ≤ 1 := by
  rw [← spelled_skipUnknown]
  constructor
  · rintro ⟨hform, honce⟩
    exact ⟨by simpa using hform, by simpa using honce⟩
  · rintro ⟨hform, honce⟩
    exact ⟨by simpa using hform, by simpa using honce⟩

/-- In front of a command the program knows one switch. -/
theorem front_iff {front : List String} : (front.Nodup ∧
    ∀ a ∈ front, ∃ s ∈ Declaration.program.switches, a = spelled s) ↔
      front = [] ∨ front = ["--skip-unknown"] := by
  rw [← nodup_iff_of_forall_eq, ← spelled_skipUnknown]
  simp [Declaration.program]

theorem setBy_skipUnknown (words : List String) (s : String) :
    setBy ["skip-unknown"] words s =
      (s == "skip-unknown" && decide ("--skip-unknown" ∈ words)) := by
  rw [← spelled_skipUnknown]
  by_cases hs : s = "skip-unknown" <;> simp [setBy, hs]

theorem Invocation.found_eq {i : Invocation} {front behind : List String}
    (hflag : i.skipUnknown = true ↔ "--skip-unknown" ∈ front ∨ "--skip-unknown" ∈ behind) :
    i.found = ⟨fun s => setBy ["skip-unknown"] front s || setBy ["skip-unknown"] behind s,
      [i.command.word], [i.path]⟩ := by
  have hset : i.skipUnknown =
      (decide ("--skip-unknown" ∈ front) || decide ("--skip-unknown" ∈ behind)) := by
    rw [Bool.eq_iff_iff, hflag]
    simp
  rw [found, hset]
  simp only [setBy_skipUnknown, Bool.and_or_distrib_left]

theorem Command.word_cases {word : String} {command : Command} :
    (word = "tokens" ∧ command = .tokens ∨ word = "check" ∧ command = .check) ↔
      word = command.word := by
  cases command <;> simp [Command.word]

/-- What a lawful parser finds for the program is what the arguments spell. -/
theorem Parser.Lawful.program_iff {parse : Parser} (h : parse.Lawful) {args : List String}
    {m : Matches} : parse .program args = .ok m ↔
      ∃ i : Invocation, m = i.found ∧
        ∃ front word behind rest paths, Spells args front word behind rest paths i := by
  rw [h.command_iff Declaration.valid_program (List.cons_ne_nil _ _)]
  constructor
  · rintro ⟨front, c, _, _, rfl, hc, hnodup, hfront, hfound, rfl⟩
    obtain ⟨command, rfl⟩ := Declaration.mem_commands_program.mp hc
    obtain ⟨behind, rest, paths, rfl, hbetween, hends, hlength, rfl⟩ :=
      (h.finds_iff (Declaration.valid_command command) rfl).mp hfound
    obtain ⟨hform, honce⟩ := Between.skipUnknown_iff.mp hbetween
    obtain ⟨path, hpath⟩ := List.length_eq_one_iff.mp hlength
    refine ⟨⟨command, path, decide ("--skip-unknown" ∈ front ∨ "--skip-unknown" ∈ behind)⟩,
      ?found, front, command.word, behind, rest, paths, rfl, front_iff.mp ⟨hnodup, hfront⟩,
        Command.word_cases.mpr rfl, ?separator, hform, honce, hends, hpath, by simp⟩
    case separator => exact fun hm => absurd (hform _ hm) (by decide)
    case found =>
      rw [hpath]
      exact (Invocation.found_eq (i := ⟨command, path, _⟩) decide_eq_true_iff).symm
  · rintro ⟨i, rfl, front, word, behind, rest, paths, hspells⟩
    obtain ⟨hnodup, hfront⟩ := front_iff.mpr hspells.front_eq
    have hbetween := Between.skipUnknown_iff.mpr ⟨hspells.form, hspells.once⟩
    have hlength : (behind.filter IsFree ++ paths).length = 1 := by rw [hspells.path]; rfl
    have hfound := (h.finds_iff (Declaration.valid_command i.command) rfl).mpr
      ⟨behind, rest, paths, rfl, hbetween, hspells.rest_eq, hlength, rfl⟩
    refine ⟨front, i.command.declaration, behind ++ rest, _, ?args,
      Declaration.mem_commands_program.mpr ⟨i.command, rfl⟩, hnodup, hfront, hfound, ?found⟩
    case args =>
      rw [hspells.args_eq, Command.word_cases.mp hspells.word_eq]
      rfl
    case found =>
      rw [hspells.path]
      exact Invocation.found_eq hspells.flag

theorem ofArguments_iff_spells {parse : Parser} (h : parse.Lawful) (args : List String)
    (i : Invocation) : Invocation.ofArguments parse args = .ok i ↔
      ∃ front word behind rest paths, Spells args front word behind rest paths i := by
  constructor
  · intro hi
    cases hparse : parse .program args with
    | error stop =>
      rw [Invocation.ofArguments, hparse] at hi
      cases hi
    | ok m =>
      obtain ⟨j, rfl, hspells⟩ := h.program_iff.mp hparse
      obtain rfl : j = i := Except.ok.inj ((Invocation.ofArguments_of_ok hparse).symm.trans hi)
      exact hspells
  · intro hspells
    exact Invocation.ofArguments_of_ok (h.program_iff.mpr ⟨i, rfl, hspells⟩)

/-- What the command line accepts, and as what, when a parser reads it. What the parser accepts
is an invocation. Arguments are accepted exactly when they spell one, and it is that one which
they lead to. So the flag may stand in front of the command, in front of the path or behind
it, and behind a separator anything is a path. -/
structure AcceptsGrammar (parse : Parser) : Prop where
  invocation : ∀ args m, parse .program args = .ok m →
    ∃ i, Invocation.ofArguments parse args = .ok i
  accepts_iff : ∀ args i, Invocation.ofArguments parse args = .ok i ↔
    ∃ front word behind rest paths, Spells args front word behind rest paths i
  flag_anywhere : ∀ (command : Command) path, IsFree path →
    ∀ front ∈ [[], ["--skip-unknown"]],
    ∀ behind ∈ [[path], ["--skip-unknown", path], [path, "--skip-unknown"]],
      Invocation.ofArguments parse (front ++ command.word :: behind) =
        .ok ⟨command, path, decide ("--skip-unknown" ∈ front ++ behind)⟩
  behind_separator : ∀ (command : Command) path, ∀ front ∈ [[], ["--skip-unknown"]],
    Invocation.ofArguments parse (front ++ [command.word, "--", path]) =
      .ok ⟨command, path, decide ("--skip-unknown" ∈ front)⟩

/-- The command line accepts its grammar, whichever lawful parser reads it. -/
theorem accepts_grammar (parse : Parser) (h : parse.Lawful) : AcceptsGrammar parse := by
  have hword : ∀ command : Command, command.word = "tokens" ∧ command = .tokens ∨
      command.word = "check" ∧ command = .check := fun _ => Command.word_cases.mpr rfl
  have hfront : ∀ front ∈ [[], ["--skip-unknown"]], front = [] ∨ front = ["--skip-unknown"] := by
    simp
  constructor
  case invocation =>
    intro args m hm
    obtain ⟨i, rfl, -⟩ := h.program_iff.mp hm
    exact ⟨i, Invocation.ofArguments_of_ok hm⟩
  case accepts_iff => exact ofArguments_iff_spells h
  case flag_anywhere =>
    intro command path hpath front hmem behind hbehind
    rw [ofArguments_iff_spells h]
    have hseparator := hpath.ne_separator.symm
    have hnot : ¬IsFree "--skip-unknown" := by decide
    have hflag : path ≠ "--skip-unknown" := fun heq => hnot (heq ▸ hpath)
    simp only [List.mem_cons, List.not_mem_nil, or_false] at hbehind
    refine ⟨front, command.word, behind, [], [], by simp, hfront front hmem, hword command,
      ?separator, ?form, ?once, Or.inl ⟨rfl, rfl⟩, ?path, by simp⟩
    case separator => rcases hbehind with rfl | rfl | rfl <;> simp [hseparator]
    case form => rcases hbehind with rfl | rfl | rfl <;> simp [hpath]
    case once => rcases hbehind with rfl | rfl | rfl <;> simp [hflag]
    case path => rcases hbehind with rfl | rfl | rfl <;> simp [hpath, hnot]
  case behind_separator =>
    intro command path front hmem
    rw [ofArguments_iff_spells h]
    exact ⟨front, command.word, [], ["--", path], [path], by simp, hfront front hmem,
      hword command, by simp, by simp, by simp, Or.inr rfl, rfl, by simp⟩

/-- The parser that reads in order is lawful. In front of the command and behind it the flag is
set; behind the separator what looks like a flag is the path. -/
theorem accepts_grammar_in_order : readInOrder.Lawful ∧ AcceptsGrammar readInOrder ∧
    Invocation.ofArguments readInOrder
      ["--skip-unknown", "check", "--skip-unknown", "--", "-h"] =
        .ok ⟨.check, "-h", true⟩ :=
  ⟨lawful_readInOrder, accepts_grammar readInOrder lawful_readInOrder, rfl⟩

end LoxTokens
