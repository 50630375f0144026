import LoxTokens.Proofs.Number.Numeral
import LoxTokens.Proofs.Token.Listing

/-!
# Equality of tokens

Tokens are compared part by part, and numbers among their values as numbers. So equality
is not that of the parts themselves: a value that is no number differs from itself, and
the two zeros are equal but written differently.

Neither happens to the tokens of a scan. The value of such a token is told by its text, and
when it is a double it is a number without a sign. So `equality_scanned` says that nothing
but kind, text and place is left to compare. Tokens put together by hand have no such law.
-/

namespace LoxTokens

universe u v

variable {σ : Type u} {τ : Type v}

theorem Binary64.beq_self_iff (x : Binary64) : (x == x) = true ↔ x.isNaN = false := by
  have hbeq : (x == x) = (!x.isNaN && !x.isNaN &&
      (x.bits == x.bits || (x.magnitude.bits == 0 && x.magnitude.bits == 0))) := rfl
  rw [hbeq]
  simp

/-- The value of a lexeme is equal to itself: the value of a number never fails to be one. -/
theorem Lexeme.literal_beq_self (l : Lexeme) : (l.literal == l.literal) = true := by
  cases l with
  | symbol s => rfl
  | word letters => rfl
  | string content => exact beq_self_eq_true (String.ofList content)
  | number whole fraction =>
    exact (Binary64.beq_self_iff _).mpr (Decimal.roundsTo_toBinary64 _).number

/-- A lexeme is told by its text alone. -/
theorem Lexeme.eq_of_text {l m : Lexeme} (hl : l.WellFormed) (hm : m.WellFormed)
    (h : l.text = m.text) : l = m := by
  have hblank : l.text ++ ' ' :: [] = m.text ++ ' ' :: [] := by rw [h]
  exact (append_blank_inj hl hm hblank).1

namespace Token

theorem beq_iff (t u : Token) : (t == u) = true ↔ t.kind = u.kind ∧ t.lexeme = u.lexeme ∧
    (t.literal == u.literal) = true ∧ t.line = u.line ∧ t.span = u.span := by
  have hbeq : (t == u) = (t.kind == u.kind && t.lexeme == u.lexeme &&
      t.literal == u.literal && t.line == u.line && t.span == u.span) := rfl
  rw [hbeq]
  simp only [Bool.and_eq_true, beq_iff_eq, and_assoc]

/-- What a scan makes: tokens that were read, and the mark at the end. -/
def IsScanned (t : Token) : Prop := t.IsRead ∨ ∃ p, t = endAt p

theorem IsScanned.literal_beq_self {t : Token} (h : t.IsScanned) :
    (t.literal == t.literal) = true := by
  rcases h with ⟨l, p, -, rfl⟩ | ⟨p, rfl⟩
  · exact l.literal_beq_self
  · rfl

/-- The value of a token is told by its kind and its text. -/
theorem IsScanned.literal_eq {t u : Token} (ht : t.IsScanned) (hu : u.IsScanned)
    (hkind : t.kind = u.kind) (hlexeme : t.lexeme = u.lexeme) : t.literal = u.literal := by
  rcases ht with ⟨l, p, hl, rfl⟩ | ⟨p, rfl⟩
  · rcases hu with ⟨m, q, hm, rfl⟩ | ⟨q, rfl⟩
    · obtain rfl : l = m := Lexeme.eq_of_text hl hm (String.ofList_injective hlexeme)
      rfl
    · exact absurd hkind l.kind_ne_endOfSource
  · rcases hu with ⟨m, q, hm, rfl⟩ | ⟨q, rfl⟩
    · exact absurd hkind.symm m.kind_ne_endOfSource
    · rfl

theorem IsScanned.beq_iff {t u : Token} (ht : t.IsScanned) (hu : u.IsScanned) :
    (t == u) = true ↔
      t.kind = u.kind ∧ t.lexeme = u.lexeme ∧ t.line = u.line ∧ t.span = u.span := by
  rw [Token.beq_iff]
  constructor
  · rintro ⟨hkind, hlexeme, -, hplace⟩
    exact ⟨hkind, hlexeme, hplace⟩
  · rintro ⟨hkind, hlexeme, hplace⟩
    refine ⟨hkind, hlexeme, ?_, hplace⟩
    rw [← ht.literal_eq hu hkind hlexeme]
    exact ht.literal_beq_self

/-- The token with a number for its value, as it can be put together by hand. -/
def withNumber (t : Token) (x : Binary64) : Token := { t with literal := some (.number x) }

theorem withNumber_beq_iff (t : Token) (x y : Binary64) :
    (t.withNumber x == t.withNumber y) = true ↔ (x == y) = true := by
  rw [Token.beq_iff]
  constructor
  · rintro ⟨-, -, h, -⟩
    exact h
  · intro h
    exact ⟨rfl, rfl, h, rfl, rfl⟩

theorem withNumber_text_ne (t : Token) {x y : Binary64} (h : x.text ≠ y.text) :
    (t.withNumber x).text ≠ (t.withNumber y).text := by
  intro htext
  have hlist := congrArg String.toList htext
  rw [toList_text, toList_text] at hlist
  have hvalue := (List.cons.inj (List.append_cancel_left
    (List.cons.inj (List.append_cancel_left hlist)).2)).2
  exact h (String.toList_injective hvalue)

end Token

theorem isScanned_of_mem {policy : Policy} {report : σ → Diagnostic → σ} {sink : σ}
    {source : String} {t : Token} (ht : t ∈ (scanInto policy report sink source).1) :
    t.IsScanned := by
  rw [scanInto_eq, List.mem_append, List.mem_singleton] at ht
  exact ht.imp isRead_of_mem_tokensAt fun h => ⟨_, h⟩

/-- Every token is equal to itself, and those of the two lists are equal exactly when
kind, text and place are. Their values are then the same to the last bit, and they are
written the same. -/
structure ToldByText (ts us : List Token) : Prop where
  refl : ∀ t ∈ ts, (t == t) = true
  beq_iff : ∀ t ∈ ts, ∀ u ∈ us, (t == u) = true ↔
    t.kind = u.kind ∧ t.lexeme = u.lexeme ∧ t.line = u.line ∧ t.span = u.span
  literal : ∀ t ∈ ts, ∀ u ∈ us, (t == u) = true → t.literal = u.literal
  text : ∀ t ∈ ts, ∀ u ∈ us, (t == u) = true → t.text = u.text

/-- What equality does not do for tokens put together by hand: with a value that is no
number they differ from themselves, and with the two zeros they are equal although value
and written form are not. -/
structure ComparedByValue (t : Token) : Prop where
  refl_iff : ∀ x, (t.withNumber x == t.withNumber x) = true ↔ x.isNaN = false
  zeros : (t.withNumber ⟨0⟩ == t.withNumber ⟨0x8000000000000000⟩) = true
  literal_ne : (t.withNumber ⟨0⟩).literal ≠ (t.withNumber ⟨0x8000000000000000⟩).literal
  text_ne : (t.withNumber ⟨0⟩).text ≠ (t.withNumber ⟨0x8000000000000000⟩).text

/-- Equality is sound for the tokens of any two scans. What it tells of them it does not tell
of every token. -/
theorem equality_scanned (policy policy' : Policy) (report : σ → Diagnostic → σ)
    (report' : τ → Diagnostic → τ) (sink : σ) (sink' : τ) (source source' : String) :
    ToldByText (scanInto policy report sink source).1
        (scanInto policy' report' sink' source').1 ∧
      ∀ t : Token, ComparedByValue t := by
  constructor
  · have hshown : ∀ t ∈ (scanInto policy report sink source).1,
        ∀ u ∈ (scanInto policy' report' sink' source').1, (t == u) = true →
          t.shown = u.shown := by
      intro t ht u hu h
      obtain ⟨hkind, hlexeme, -⟩ := (Token.beq_iff t u).mp h
      have hvalue := (isScanned_of_mem ht).literal_eq (isScanned_of_mem hu) hkind hlexeme
      rw [Token.shown, Token.shown, hkind, hlexeme, hvalue]
    constructor
    · intro t ht
      have hscanned := isScanned_of_mem ht
      exact (hscanned.beq_iff hscanned).mpr ⟨rfl, rfl, rfl, rfl⟩
    · intro t ht u hu
      exact (isScanned_of_mem ht).beq_iff (isScanned_of_mem hu)
    · intro t ht u hu h
      exact congrArg Token.Shown.literal (hshown t ht u hu h)
    · intro t ht u hu h
      exact Token.text_congr (hshown t ht u hu h)
  · intro t
    have hzero : Binary64.text ⟨0⟩ = "0.0" := by decide +kernel
    have hnegative : Binary64.text ⟨0x8000000000000000⟩ = "-0.0" := by decide +kernel
    constructor
    · intro x
      rw [Token.withNumber_beq_iff, Binary64.beq_self_iff]
    · rw [Token.withNumber_beq_iff]
      decide
    · simp [Token.withNumber]
    · apply Token.withNumber_text_ne
      rw [hzero, hnegative]
      decide

end LoxTokens
