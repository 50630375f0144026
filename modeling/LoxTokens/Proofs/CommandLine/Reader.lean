import Mathlib.Data.List.Nodup
import Mathlib.Data.List.TakeWhile
import LoxTokens.CommandLine.Reader
import LoxTokens.Proofs.CommandLine.Laws

/-!
# The parser that reads in order

The parser of the executable keeps the laws. It carries the switches of the level along,
so that the second of two is found where it stands; `read_given` says that this comes to
looking ahead for it.
-/

namespace LoxTokens

namespace Argument

theorem ofString_eq_separator_iff {a : String} : ofString a = .separator ↔ a = "--" := by
  constructor
  · intro h
    apply String.toList_injective
    unfold ofString at h
    split at h
    next hlist => exact hlist
    all_goals cases h
  · rintro rfl
    rfl

theorem ofString_eq_free_iff {a text : String} :
    ofString a = .free text ↔ text = a ∧ IsFree a := by
  constructor
  · intro h
    unfold ofString at h
    split at h
    next => cases h
    next => cases h
    next => cases h
    next _ _ hshort =>
      obtain rfl : a = text := Argument.free.inj h
      refine ⟨rfl, ?_⟩
      cases hlist : a.toList with
      | nil => exact Or.inr (by simp [hlist])
      | cons c cs =>
        by_cases hc : c = '-'
        · subst hc
          cases cs with
          | nil => exact Or.inl (String.toList_injective hlist)
          | cons d ds => exact absurd hlist (hshort d ds)
        · exact Or.inr (by simp [hlist, hc])
  · rintro ⟨rfl, rfl | hhead⟩
    · rfl
    · unfold ofString
      split
      next hlist => simp [hlist] at hhead
      next hlist => simp [hlist] at hhead
      next hlist => simp [hlist] at hhead
      next => rfl

theorem eq_spelled_of_ofString {a name : String} (h : ofString a = .long name none) :
    a = spelled name := by
  apply String.toList_injective
  unfold ofString at h
  split at h
  next => cases h
  next cs _ hlist =>
    obtain ⟨hname, hvalue⟩ := Argument.long.inj h
    have hdrop : cs.dropWhile (· != '=') = [] := by
      split at hvalue
      next hnil => exact hnil
      next => cases hvalue
    have htake := List.takeWhile_append_dropWhile (p := (· != '=')) (l := cs)
    rw [hdrop, List.append_nil] at htake
    rw [toList_spelled, ← hname, htake, String.toList_ofList, hlist]
  next => cases h
  next => cases h

theorem ofString_spelled {s : String} (hs : IsName s) :
    ofString (spelled s) = .long s none := by
  have hne : s.toList ≠ [] := fun h => hs.ne_empty (String.toList_injective h)
  have hall : ∀ c ∈ s.toList, (c != '=') = true := by
    intro c hc
    rw [bne_iff_ne]
    rintro rfl
    exact hs.equals_not_mem hc
  unfold ofString
  rw [toList_spelled]
  split
  next h => exact absurd (List.cons.inj (List.cons.inj h).2).2 hne
  next cs _ h =>
    obtain rfl := (List.cons.inj (List.cons.inj h).2).2
    rw [List.takeWhile_eq_self_iff.mpr hall, List.dropWhile_eq_nil_iff.mpr hall,
      String.ofList_toList]
  next hlong h =>
    obtain ⟨rfl, rfl⟩ := List.cons.inj (List.cons.inj h).2
    exact (hlong rfl).elim
  next hlong => exact (hlong '-' s.toList rfl).elim

end Argument

theorem seq_eq_ok_iff {α : Type} {x : Except Stop Unit} {y : Except Stop α} {a : α} :
    (do x; y) = .ok a ↔ x = .ok () ∧ y = .ok a := by
  cases x with
  | error e => simp [bind, Except.bind]
  | ok u => simp [bind, Except.bind]

theorem map_eq_ok_iff {α β : Type} {x : Except Stop α} {f : α → β} {b : β} :
    (do return f (← x)) = .ok b ↔ ∃ a, x = .ok a ∧ b = f a := by
  cases x with
  | error e => simp [bind, Except.bind]
  | ok a => simp [bind, Except.bind, pure, Except.pure, eq_comm]

namespace Declaration

variable {d : Declaration} {given : List String} {a s : String} {rest : List String}
  {m : Matches}

theorem readValues_eq_ok_iff {arguments : List String} : d.readValues arguments = .ok m ↔
    arguments.length = d.values.length ∧ m = { Matches.nothing with values := arguments } := by
  unfold readValues
  split_ifs with hless hmore
  · exact iff_of_false nofun fun h => absurd h.1 hless.ne
  · exact iff_of_false nofun fun h => absurd h.1.symm hmore.ne
  · constructor
    · intro h
      exact ⟨by omega, (Except.ok.inj h).symm⟩
    · rintro ⟨-, rfl⟩
      rfl

/-- A long flag lets reading go on when it is a switch that is not given yet. -/
theorem readLong_eq_ok_iff {value : Option String} : d.readLong given s value = .ok () ↔
    s ∈ d.switches ∧ value = none ∧ s ∉ given := by
  unfold readLong longFlag?
  cases value <;> split_ifs <;> simp_all

theorem command?_word {c : Declaration} (hd : (d.commands.map word).Nodup)
    (hc : c ∈ d.commands) : d.command? c.word = some c := by
  cases hfind : d.command? c.word with
  | none =>
    have hnone := List.find?_eq_none.mp hfind c hc
    simp at hnone
  | some c' =>
    have hword : c'.word = c.word := by simpa using List.find?_some hfind
    rw [List.inj_on_of_nodup_map hd (List.mem_of_find?_eq_some hfind) hc hword]

theorem read_nil : d.read given [] = .ok m ↔
    d.commands = [] ∧ d.values = [] ∧ m = .nothing := by
  rw [read]
  cases hcommands : d.commands with
  | nil =>
    rw [List.isEmpty_nil, if_pos rfl, readValues_eq_ok_iff]
    simp [Matches.nothing, eq_comm]
  | cons c cs => simp

theorem read_separator : d.read given ("--" :: rest) = .ok m ↔
    d.commands = [] ∧ d.readValues rest = .ok m := by
  rw [read, Argument.ofString_eq_separator_iff.mpr rfl]
  cases hcommands : d.commands <;> simp

theorem read_value (hd : d.commands = []) (ha : IsFree a) : d.read given (a :: rest) = .ok m ↔
    ∃ name names, d.values = name :: names ∧
      ∃ found, read { d with values := names } given rest = .ok found ∧ m = found.addValue a := by
  rw [read, Argument.ofString_eq_free_iff.mpr ⟨rfl, ha⟩]
  cases hvalues : d.values with
  | nil => simp [hd]
  | cons name names =>
    simp only [hd, List.isEmpty_nil, if_true, map_eq_ok_iff]
    simp

theorem read_command (hd : d.commands ≠ []) (ha : IsFree a) :
    d.read given (a :: rest) = .ok m ↔ ∃ c, d.command? a = some c ∧
      ∃ found, (c.inherit d.switches).read [] rest = .ok found ∧ m = found.behind a := by
  rw [read, Argument.ofString_eq_free_iff.mpr ⟨rfl, ha⟩]
  cases hcommand : d.command? a with
  | none => simp [hd, hcommand]
  | some c =>
    simp only [List.isEmpty_iff, hd, if_false, hcommand, map_eq_ok_iff]
    simp

theorem read_switch (hs : IsName s) : d.read given (spelled s :: rest) = .ok m ↔
    s ∈ d.switches ∧ s ∉ given ∧
      ∃ found, d.read (s :: given) rest = .ok found ∧ m = found.set s := by
  rw [read, Argument.ofString_spelled hs]
  simp only [seq_eq_ok_iff, map_eq_ok_iff, readLong_eq_ok_iff, true_and, and_assoc]

theorem read_unknown (ha : ¬IsFree a) (hne : a ≠ "--")
    (hswitch : ∀ s ∈ d.switches, a ≠ spelled s) : d.read given (a :: rest) ≠ .ok m := by
  rw [read]
  cases hform : Argument.ofString a with
  | separator => exact absurd (Argument.ofString_eq_separator_iff.mp hform) hne
  | free text => exact absurd (Argument.ofString_eq_free_iff.mp hform).2 ha
  | short letter => exact nofun
  | long name value =>
    intro h
    obtain ⟨hname, rfl, -⟩ := readLong_eq_ok_iff.mp (seq_eq_ok_iff.mp h).1
    exact hswitch name hname (Argument.eq_spelled_of_ofString hform)

end Declaration

/-- An argument is the separator, or free, or a switch that is declared, or none of these. -/
theorem exists_form (switches : List String) (a : String) : a = "--" ∨ IsFree a ∨
    (∃ s ∈ switches, a = spelled s) ∨
      (¬IsFree a ∧ a ≠ "--" ∧ ∀ s ∈ switches, a ≠ spelled s) := by
  by_cases hseparator : a = "--"
  · exact Or.inl hseparator
  by_cases hfree : IsFree a
  · exact Or.inr (Or.inl hfree)
  by_cases hswitch : ∃ s ∈ switches, a = spelled s
  · exact Or.inr (Or.inr (Or.inl hswitch))
  · exact Or.inr (Or.inr (Or.inr ⟨hfree, hseparator, fun s hs h => hswitch ⟨s, hs, h⟩⟩))

namespace Declaration

variable {d : Declaration} {given : List String} {a s : String} {rest : List String}
  {m : Matches}

/-- To refuse a switch that was given is to look whether it stands on the level. -/
theorem read_given {given' : List String} (hd : ∀ s ∈ d.switches, IsName s)
    (hgiven : ∀ t, t ∈ given' ↔ t = s ∨ t ∈ given) : d.read given' rest = .ok m ↔
      spelled s ∉ d.level rest ∧ d.read given rest = .ok m := by
  induction rest generalizing d given given' m with
  | nil => simp [read_nil, level]
  | cons a rest ih =>
    rcases exists_form d.switches a with rfl | hfree | ⟨t, ht, rfl⟩ | ⟨hfree, hne, hswitch⟩
    · rw [read_separator, read_separator, level_separator]
      simp
    · by_cases hcommands : d.commands = []
      · have hne : spelled s ≠ a := by
          rintro rfl
          exact not_isFree_spelled s hfree
        have hrest : ∀ names found, read { d with values := names } given' rest = .ok found ↔
            spelled s ∉ d.level rest ∧
              read { d with values := names } given rest = .ok found := fun names found =>
          ih (d := { d with values := names }) hd hgiven
        simp only [read_value hcommands hfree, level_free hfree hcommands, hrest, List.mem_cons,
          not_or, hne, not_false_eq_true, true_and]
        constructor
        · rintro ⟨name, names, hvalues, found, ⟨hlevel, hread⟩, rfl⟩
          exact ⟨hlevel, name, names, hvalues, found, hread, rfl⟩
        · rintro ⟨hlevel, name, names, hvalues, found, hread, rfl⟩
          exact ⟨name, names, hvalues, found, ⟨hlevel, hread⟩, rfl⟩
      · rw [read_command hcommands hfree, read_command hcommands hfree,
          level_command hfree hcommands]
        simp
    · have hname := hd t ht
      have hgiven' : ∀ u, u ∈ t :: given' ↔ u = s ∨ u ∈ t :: given := by
        intro u
        rw [List.mem_cons, List.mem_cons, hgiven]
        tauto
      have hrest : ∀ found, d.read (t :: given') rest = .ok found ↔
          spelled s ∉ d.level rest ∧ d.read (t :: given) rest = .ok found := fun found =>
        ih hd hgiven'
      rw [level_flag (not_isFree_spelled t) hname.spelled_ne, List.mem_cons,
        spelled_injective.eq_iff, read_switch hname, read_switch hname, hgiven]
      simp only [hrest, not_or]
      constructor
      · rintro ⟨hmem, ⟨hne, hnew⟩, found, ⟨hlevel, hread⟩, rfl⟩
        exact ⟨⟨Ne.symm hne, hlevel⟩, hmem, hnew, found, hread, rfl⟩
      · rintro ⟨⟨hne, hlevel⟩, hmem, hnew, found, hread, rfl⟩
        exact ⟨hmem, ⟨Ne.symm hne, hnew⟩, found, ⟨hlevel, hread⟩, rfl⟩
    · exact iff_of_false (read_unknown hfree hne hswitch)
        fun h => read_unknown hfree hne hswitch h.2

end Declaration

/-- The parser that reads in order keeps all laws. -/
theorem lawful_readInOrder : readInOrder.Lawful where
  nil _ := Declaration.read_nil
  switch := by
    intro d s rest m hd hs
    have hlevel : ∀ found, d.read [s] rest = .ok found ↔
        spelled s ∉ d.level rest ∧ d.read [] rest = .ok found := fun found =>
      Declaration.read_given hd.isName (by simp)
    simp only [readInOrder, Declaration.read_switch (hd.isName s hs), hlevel]
    constructor
    · rintro ⟨-, -, found, ⟨hnew, hread⟩, rfl⟩
      exact ⟨hnew, found, hread, rfl⟩
    · rintro ⟨hnew, found, hread, rfl⟩
      exact ⟨hs, List.not_mem_nil, found, ⟨hnew, hread⟩, rfl⟩
  unknown _ := Declaration.read_unknown
  value _ := Declaration.read_value
  separator := by
    intro d rest m _ hcommands
    rw [readInOrder, Declaration.read_separator, Declaration.readValues_eq_ok_iff]
    exact and_iff_right hcommands
  command := by
    intro d c rest m hd hc
    have hcommands : d.commands ≠ [] := List.ne_nil_of_mem hc
    rw [readInOrder, Declaration.read_command hcommands (hd.isFree_word c hc),
      Declaration.command?_word hd.nodup_word hc]
    simp [readInOrder]
  other := by
    rintro d a rest m - hcommands (rfl | hfree) hwords h
    · exact hcommands (Declaration.read_separator.mp h).1
    · obtain ⟨c, hc, -⟩ := (Declaration.read_command hcommands hfree).mp h
      have hword : c.word = a := by simpa using List.find?_some hc
      exact hwords c (List.mem_of_find?_eq_some hc) hword.symm

end LoxTokens
