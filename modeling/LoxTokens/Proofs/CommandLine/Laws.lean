import Mathlib.Data.List.Basic
import LoxTokens.CommandLine.Declaration

/-!
# What is known of a parser

The parser of a command line is not this program's, and its text is not at hand. What is
relied on is what its users are told: a law for each form that the first argument can
have, for any declaration that is in order. No law speaks of a whole list of arguments.

`Parser.Lawful` collects the laws. They say when arguments are accepted and what is found
then, and nothing about the reasons for which others are refused.
-/

namespace LoxTokens

/-- A name for a switch. Help and the version are switches that every parser adds. -/
structure IsName (switch : String) : Prop where
  ne_empty : switch ≠ ""
  ne_help : switch ≠ "help"
  ne_version : switch ≠ "version"
  head_ne : switch.toList.head? ≠ some '-'
  equals_not_mem : '=' ∉ switch.toList

namespace Declaration

/-- A declaration in order: switches have different names and commands different words, which
are not mistaken for flags or for the command that explains the others; only what has no
commands has values; and the commands are in order with the switches that they inherit. -/
inductive Valid : Declaration → Prop
  | mk {d : Declaration} (switches : ∀ s ∈ d.switches, IsName s) (names : d.switches.Nodup)
      (distinct : (d.commands.map word).Nodup)
      (words : ∀ c ∈ d.commands, IsFree c.word ∧ c.word ≠ "help")
      (values : d.commands ≠ [] → d.values = [])
      (commands : ∀ c ∈ d.commands, (c.inherit d.switches).Valid) : d.Valid

theorem Valid.isName {d : Declaration} (hd : d.Valid) : ∀ s ∈ d.switches, IsName s := by
  obtain ⟨hswitches, -, -, -, -, -⟩ := hd
  exact hswitches

theorem Valid.isFree_word {d : Declaration} (hd : d.Valid) : ∀ c ∈ d.commands, IsFree c.word := by
  obtain ⟨-, -, -, hwords, -, -⟩ := hd
  exact fun c hc => (hwords c hc).1

theorem Valid.nodup_word {d : Declaration} (hd : d.Valid) : (d.commands.map word).Nodup := by
  obtain ⟨-, -, hdistinct, -, -, -⟩ := hd
  exact hdistinct

/-- The arguments that belong to the level of the declaration: those in front of a
separator, and of a command when it has any. -/
def level (d : Declaration) (arguments : List String) : List String :=
  arguments.takeWhile fun a => a ≠ "--" ∧ (d.commands.isEmpty ∨ ¬IsFree a)

end Declaration

/-- What a parser accepts, told by the first argument. -/
structure Parser.Lawful (parse : Parser) : Prop where
  /-- Commands and values are required. -/
  nil : ∀ {d m}, d.Valid → (parse d [] = .ok m ↔
    d.commands = [] ∧ d.values = [] ∧ m = .nothing)
  /-- A switch takes no value and may stand anywhere on its level, but only once. -/
  switch : ∀ {d s rest m}, d.Valid → s ∈ d.switches → (parse d (spelled s :: rest) = .ok m ↔
    spelled s ∉ d.level rest ∧ ∃ found, parse d rest = .ok found ∧ m = found.set s)
  /-- Nothing else that begins with a dash is accepted, the single dash and the separator
  apart. Where help or the version is asked for, no command is run. -/
  unknown : ∀ {d a rest m}, d.Valid → ¬IsFree a → a ≠ "--" →
    (∀ s ∈ d.switches, a ≠ spelled s) → parse d (a :: rest) ≠ .ok m
  /-- A free argument is the first of the values, when there are no commands. -/
  value : ∀ {d a rest m}, d.Valid → d.commands = [] → IsFree a → (parse d (a :: rest) = .ok m ↔
    ∃ name names, d.values = name :: names ∧
      ∃ found, parse { d with values := names } rest = .ok found ∧ m = found.addValue a)
  /-- Behind the separator everything is a value. -/
  separator : ∀ {d rest m}, d.Valid → d.commands = [] → (parse d ("--" :: rest) = .ok m ↔
    rest.length = d.values.length ∧ m = { Matches.nothing with values := rest })
  /-- The word of a command leaves the rest to the command, which knows the switches. -/
  command : ∀ {d c rest m}, d.Valid → c ∈ d.commands → (parse d (c.word :: rest) = .ok m ↔
    ∃ found, parse (c.inherit d.switches) rest = .ok found ∧ m = found.behind c.word)
  /-- Where a command is required, no other free argument is accepted, and no separator. -/
  other : ∀ {d a rest m}, d.Valid → d.commands ≠ [] → a = "--" ∨ IsFree a →
    (∀ c ∈ d.commands, a ≠ c.word) → parse d (a :: rest) ≠ .ok m

theorem toList_spelled (s : String) : (spelled s).toList = '-' :: '-' :: s.toList := by
  rw [spelled, String.toList_append]
  rfl

theorem not_isFree_spelled (s : String) : ¬IsFree (spelled s) := by
  rintro (h | h)
  · have hlist := congrArg String.toList h
    rw [toList_spelled] at hlist
    exact absurd hlist (by simp)
  · rw [toList_spelled] at h
    exact h rfl

theorem spelled_injective : Function.Injective spelled := by
  intro s t h
  have hlist := congrArg String.toList h
  rw [toList_spelled, toList_spelled] at hlist
  exact String.toList_injective (List.cons.inj (List.cons.inj hlist).2).2

theorem IsName.spelled_ne {s : String} (h : IsName s) : spelled s ≠ "--" := fun heq =>
  h.ne_empty (spelled_injective heq)

theorem not_isFree_separator : ¬IsFree "--" := by decide

namespace Declaration

variable {d : Declaration} {a : String}

theorem level_separator (rest : List String) : d.level ("--" :: rest) = [] := by
  simp [level]

theorem level_flag (ha : ¬IsFree a) (hne : a ≠ "--") (rest : List String) :
    d.level (a :: rest) = a :: d.level rest := by
  simp [level, ha, hne]

theorem level_free (ha : IsFree a) (hd : d.commands = []) (rest : List String) :
    d.level (a :: rest) = a :: d.level rest := by
  have hne : a ≠ "--" := fun h => not_isFree_separator (h ▸ ha)
  simp [level, hd, hne]

theorem level_command (ha : IsFree a) (hd : d.commands ≠ []) (rest : List String) :
    d.level (a :: rest) = [] := by
  simp [level, ha, hd]

end Declaration

end LoxTokens
