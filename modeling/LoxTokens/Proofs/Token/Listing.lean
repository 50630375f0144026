import LoxTokens.Proofs.Source.Cut
import LoxTokens.Token.Listing

/-!
# Reading a listing

A listing sets nothing apart from the text of the source that it shows. A string may hold
blanks, newlines and whole lines that look as if they were tokens. The tokens of a scan can
be told from their listing all the same: the name of a kind goes up to the first blank,
behind it stands a lexeme, which ends where reading it as source ends, and the value is
told by the lexeme.

`listing_eq_iff` says so for two scans of any two sources. For tokens that no scan has made
it would be false.
-/

namespace LoxTokens

universe u v

variable {σ : Type u} {τ : Type v}

/-- What a listing shows of a token, which is all but its place. -/
structure Token.Shown where
  kind : Kind
  lexeme : String
  literal : Option Literal

def Token.shown (t : Token) : Token.Shown := ⟨t.kind, t.lexeme, t.literal⟩

theorem Kind.ofName?_name (k : Kind) : ofName? k.name = some k := by
  cases k with
  | symbol s => cases s <;> decide
  | keyword w => cases w <;> decide
  | _ => decide

theorem Kind.name_injective : Function.Injective Kind.name := by
  intro j k h
  have hname := congrArg ofName? h
  rw [ofName?_name, ofName?_name] at hname
  exact Option.some.inj hname

theorem Kind.blank_not_mem_name (k : Kind) : ' ' ∉ k.name.toList := by
  cases k with
  | symbol s => cases s <;> decide
  | keyword w => cases w <;> decide
  | _ => decide

/-- What has no blank in it is told by the blank behind it. -/
theorem append_blank_inj {a b xs ys : List Char} (ha : ' ' ∉ a) (hb : ' ' ∉ b)
    (h : a ++ ' ' :: xs = b ++ ' ' :: ys) : a = b ∧ xs = ys := by
  have hends : ∀ rest, RunEnds (· != ' ') (' ' :: rest) := fun rest =>
    RunEnds.cons_iff.mpr (by decide)
  have htake := congrArg (List.takeWhile (· != ' ')) h
  have hdrop := congrArg (List.dropWhile (· != ' ')) h
  rw [(hends xs).takeWhile_append (ne_of_not_mem ha),
    (hends ys).takeWhile_append (ne_of_not_mem hb)] at htake
  rw [(hends xs).dropWhile_append (ne_of_not_mem ha),
    (hends ys).dropWhile_append (ne_of_not_mem hb)] at hdrop
  exact ⟨htake, (List.cons.inj hdrop).2⟩

/-- A lexeme is told by a blank behind it, even when there are blanks in it: no lexeme
goes on with a blank, so reading stops there. -/
theorem Lexeme.append_blank_inj {l m : Lexeme} (hl : l.WellFormed) (hm : m.WellFormed)
    {xs ys : List Char} (h : l.text ++ ' ' :: xs = m.text ++ ' ' :: ys) : l = m ∧ xs = ys := by
  obtain ⟨c, cs, hcs⟩ : ∃ c cs, m.text ++ ' ' :: ys = c :: cs :=
    List.exists_cons_of_ne_nil (List.append_ne_nil_of_right_ne_nil _ (List.cons_ne_nil ' ' ys))
  have hreadl := Piece.first_lexeme hl (l.endsBefore_blank (by decide) xs) (h.trans hcs)
  have hreadm := Piece.first_lexeme hm (m.endsBefore_blank (by decide) ys) hcs
  have hread := hreadl.symm.trans hreadm
  exact ⟨Piece.lexeme.inj (congrArg Prod.fst hread),
    (List.cons.inj (congrArg Prod.snd hread)).2⟩

namespace Token

def valueText (t : Token) : String := (t.literal.map Literal.text).getD "null"

theorem toList_text (t : Token) : t.text.toList =
    t.kind.name.toList ++ ' ' :: (t.lexeme.toList ++ ' ' :: t.valueText.toList) := by
  rw [text]
  simp [String.toList_append, valueText]

/-- A token that a lexeme makes somewhere. -/
def IsRead (t : Token) : Prop := ∃ (l : Lexeme) (p : Position), l.WellFormed ∧ t = l.tokenAt p

/-- The written form of a token that was read tells the token, and where it ends. -/
theorem text_append_inj {t s : Token} (ht : t.IsRead) (hs : s.IsRead) {xs ys : List Char}
    (h : t.text.toList ++ '\n' :: xs = s.text.toList ++ '\n' :: ys) :
    t.shown = s.shown ∧ xs = ys := by
  obtain ⟨l, p, hl, rfl⟩ := ht
  obtain ⟨m, q, hm, rfl⟩ := hs
  simp only [toList_text, List.append_assoc, List.cons_append, Lexeme.tokenAt,
    String.toList_ofList] at h
  obtain ⟨-, h⟩ := LoxTokens.append_blank_inj l.kind.blank_not_mem_name
    m.kind.blank_not_mem_name h
  obtain ⟨rfl, h⟩ := Lexeme.append_blank_inj hl hm h
  exact ⟨rfl, (List.cons.inj (List.append_cancel_left h)).2⟩

/-- No token that was read is written like the mark at the end. -/
theorem text_endAt_ne {t : Token} (ht : t.IsRead) (p : Position) {xs ys : List Char} :
    t.text.toList ++ '\n' :: xs ≠ (endAt p).text.toList ++ '\n' :: ys := by
  obtain ⟨l, q, -, rfl⟩ := ht
  intro h
  simp only [toList_text, List.append_assoc, List.cons_append] at h
  obtain ⟨hname, -⟩ := LoxTokens.append_blank_inj (Kind.blank_not_mem_name _)
    (Kind.blank_not_mem_name _) h
  have hkind := Kind.name_injective (String.toList_injective hname)
  exact l.kind_ne_endOfSource hkind

theorem toList_listing_cons (t : Token) (ts : List Token) :
    (listing (t :: ts)).toList = t.text.toList ++ '\n' :: (listing ts).toList := by
  rw [listing, List.map_cons, String.join_cons, String.toList_append, String.toList_append,
    List.append_assoc, listing]
  rfl

/-- The written form never looks at the place of a token. -/
theorem text_congr {t u : Token} (h : t.shown = u.shown) : t.text = u.text := by
  obtain ⟨hkind, hlexeme, hliteral⟩ := Shown.mk.inj h
  rw [text, text, hkind, hlexeme, hliteral]

theorem listing_congr {ts us : List Token} (h : ts.map shown = us.map shown) :
    listing ts = listing us := by
  induction ts generalizing us with
  | nil => rw [List.map_eq_nil_iff.mp h.symm]
  | cons t ts ih =>
    obtain ⟨u, us, rfl, hu, hus⟩ := List.map_eq_cons_iff.mp h.symm
    apply String.toList_injective
    rw [toList_listing_cons, toList_listing_cons, text_congr hu, ih hus.symm]

/-- Tokens that were read, with the mark behind them, are told by their listing. -/
theorem shown_eq_of_listing_eq {ts us : List Token} (hts : ∀ t ∈ ts, t.IsRead)
    (hus : ∀ t ∈ us, t.IsRead) {p q : Position}
    (h : listing (ts ++ [endAt p]) = listing (us ++ [endAt q])) :
    ts.map shown = us.map shown := by
  replace h := congrArg String.toList h
  induction ts generalizing us with
  | nil =>
    cases us with
    | nil => rfl
    | cons u us =>
      obtain ⟨hu, -⟩ := List.forall_mem_cons.mp hus
      rw [List.cons_append, List.nil_append, toList_listing_cons, toList_listing_cons] at h
      exact absurd h.symm (text_endAt_ne hu p)
  | cons t ts ih =>
    obtain ⟨ht, hts⟩ := List.forall_mem_cons.mp hts
    cases us with
    | nil =>
      rw [List.cons_append, List.nil_append, toList_listing_cons, toList_listing_cons] at h
      exact absurd h (text_endAt_ne ht q)
    | cons u us =>
      obtain ⟨hu, hus⟩ := List.forall_mem_cons.mp hus
      rw [List.cons_append, List.cons_append, toList_listing_cons, toList_listing_cons] at h
      obtain ⟨hshown, hrest⟩ := text_append_inj ht hu h
      rw [List.map_cons, List.map_cons, hshown, ih hts hus hrest]

end Token

theorem isRead_of_mem_tokensAt {p : Position} {source : List Char} {t : Token}
    (ht : t ∈ tokensAt p (pieces source)) : t.IsRead := by
  obtain ⟨xs, l, ys, hps, rfl⟩ := exists_lexeme_of_mem ht
  have hmem : Piece.lexeme l ∈ pieces source := by
    rw [hps]
    exact List.mem_append_right xs List.mem_cons_self
  cases (legible_pieces source).wellFormed _ hmem with
  | lexeme hl => exact ⟨l, _, hl, rfl⟩

/-- Two scans give the same listing exactly when they give as many tokens, with the same
kinds, lexemes and values in the same order. -/
theorem listing_eq_iff (policy policy' : Policy) (report : σ → Diagnostic → σ)
    (report' : τ → Diagnostic → τ) (sink : σ) (sink' : τ) (source source' : String) :
    Token.listing (scanInto policy report sink source).1 =
        Token.listing (scanInto policy' report' sink' source').1 ↔
      (scanInto policy report sink source).1.map Token.shown =
        (scanInto policy' report' sink' source').1.map Token.shown := by
  rw [scanInto_eq, scanInto_eq]
  constructor
  · intro h
    have hshown := Token.shown_eq_of_listing_eq (fun _ => isRead_of_mem_tokensAt)
      (fun _ => isRead_of_mem_tokensAt) h
    rw [List.map_append, List.map_append, hshown]
    rfl
  · exact Token.listing_congr

end LoxTokens
