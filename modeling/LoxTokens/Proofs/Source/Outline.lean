import LoxTokens.Source.Scan

/-!
# What a scan makes of the pieces of a source

The result of a scan is put together from what each piece yields at its position, and
the position is told by the text in front of the piece. `scanInto_eq` says so for any
sink. Moving a list of pieces moves what it yields, and changes nothing else.
-/

namespace LoxTokens

universe u

variable {σ : Type u} {α : Type}

namespace Position

/-- The position that many bytes and lines further on. -/
def shift (bytes lines : Nat) (p : Position) : Position :=
  ⟨p.offset + bytes, p.line + lines⟩

theorem after_eq_shift (p : Position) (cs : List Char) :
    p.after cs = p.shift (String.ofList cs).utf8ByteSize (cs.count '\n') := by
  induction cs generalizing p with
  | nil => simp [shift]
  | cons c cs ih =>
    rw [after_cons, ih, String.ofList_cons, String.utf8ByteSize_append,
      String.utf8ByteSize_singleton, List.count_cons]
    by_cases hc : c = '\n'
    · simp only [shift, next, hc, if_true, beq_self_eq_true, mk.injEq]
      omega
    · simp only [shift, next, hc, if_false, beq_iff_eq, mk.injEq]
      omega

theorem after_offset (p : Position) (cs : List Char) :
    (p.after cs).offset = p.offset + (String.ofList cs).utf8ByteSize := by
  rw [after_eq_shift]
  rfl

theorem after_line (p : Position) (cs : List Char) :
    (p.after cs).line = p.line + cs.count '\n' := by
  rw [after_eq_shift]
  rfl

theorem lt_after {xs : List Char} (h : xs ≠ []) (p : Position) :
    p.offset < (p.after xs).offset := by
  have hpos : (String.ofList xs).utf8ByteSize ≠ 0 := by
    rwa [Ne, String.utf8ByteSize_eq_zero_iff, String.ofList_eq_empty_iff]
  rw [after_offset]
  omega

theorem le_after (p : Position) (xs : List Char) : p.offset ≤ (p.after xs).offset := by
  rw [after_offset]
  omega

theorem shift_after (bytes lines : Nat) (p : Position) (cs : List Char) :
    (p.shift bytes lines).after cs = (p.after cs).shift bytes lines := by
  simp only [after_eq_shift, shift, mk.injEq]
  omega

end Position

def Token.shift (bytes lines : Nat) (t : Token) : Token :=
  ⟨t.kind, t.lexeme, t.literal, t.line + lines, ⟨t.span.start + bytes, t.span.stop + bytes⟩⟩

def Diagnostic.shift (lines : Nat) (d : Diagnostic) : Diagnostic := ⟨d.fault, d.line + lines⟩

theorem Lexeme.tokenAt_shift (bytes lines : Nat) (p : Position) (l : Lexeme) :
    l.tokenAt (p.shift bytes lines) = (l.tokenAt p).shift bytes lines := by
  rw [tokenAt, Position.shift_after]
  rfl

theorem Piece.token?_shift (bytes lines : Nat) (p : Position) (x : Piece) :
    x.token? (p.shift bytes lines) = (x.token? p).map (Token.shift bytes lines) := by
  cases x <;> simp [token?, Lexeme.tokenAt_shift]

theorem Piece.diagnostic?_shift (policy : Policy) (bytes lines : Nat) (p : Position)
    (x : Piece) : x.diagnostic? policy (p.shift bytes lines) =
      (x.diagnostic? policy p).map (Diagnostic.shift lines) := by
  cases x with
  | unknown c => cases policy <;> rfl
  | openString body =>
    simp only [diagnostic?, Position.shift_after, Option.map_some]
    rfl
  | _ => rfl

/-- What pieces yield, each at its position, when the first stands at `p`. -/
def gather (f : Position → Piece → Option α) (p : Position) : List Piece → List α
  | [] => []
  | x :: xs => (f p x).toList ++ gather f (p.after x.text) xs

def tokensAt (p : Position) (ps : List Piece) : List Token :=
  gather (fun q x => x.token? q) p ps

def diagnosticsAt (policy : Policy) (p : Position) (ps : List Piece) : List Diagnostic :=
  gather (Piece.diagnostic? policy) p ps

theorem gather_append (f : Position → Piece → Option α) (p : Position) (xs ys : List Piece) :
    gather f p (xs ++ ys) = gather f p xs ++ gather f (p.after (xs.flatMap Piece.text)) ys := by
  induction xs generalizing p with
  | nil => rfl
  | cons x xs ih =>
    simp only [List.cons_append, gather, ih, List.flatMap_cons, Position.after_append,
      List.append_assoc]

theorem tokensAt_append (p : Position) (xs ys : List Piece) : tokensAt p (xs ++ ys) =
    tokensAt p xs ++ tokensAt (p.after (xs.flatMap Piece.text)) ys :=
  gather_append _ p xs ys

theorem diagnosticsAt_append (policy : Policy) (p : Position) (xs ys : List Piece) :
    diagnosticsAt policy p (xs ++ ys) = diagnosticsAt policy p xs ++
      diagnosticsAt policy (p.after (xs.flatMap Piece.text)) ys :=
  gather_append _ p xs ys

theorem gather_shift {f : Position → Piece → Option α} {g : α → α} {bytes lines : Nat}
    (hf : ∀ p x, f (p.shift bytes lines) x = (f p x).map g) (p : Position)
    (xs : List Piece) : gather f (p.shift bytes lines) xs = (gather f p xs).map g := by
  induction xs generalizing p with
  | nil => rfl
  | cons x xs ih =>
    rw [gather, gather, hf, Position.shift_after, ih, List.map_append]
    cases f p x <;> rfl

theorem gather_blank_map {f : Position → Piece → Option α} (hblank : ∀ p c, f p (.blank c) = none)
    (space : List Char) (p : Position) : gather f p (space.map .blank) = [] := by
  induction space generalizing p with
  | nil => rfl
  | cons c space ih => rw [List.map_cons, gather, hblank, ih]; rfl

theorem flatMap_text_blank (space : List Char) :
    (space.map Piece.blank).flatMap Piece.text = space := by
  rw [List.flatMap_map]
  exact List.flatMap_singleton' space

/-- Pieces may be replaced by lists of pieces that yield as much and are as long. -/
theorem gather_flatMap {f g : Position → Piece → Option α} {k : Piece → List Piece}
    {ps : List Piece} (hyield : ∀ x ∈ ps, ∀ q, gather f q (k x) = (g q x).toList)
    (hafter : ∀ x ∈ ps, ∀ q : Position, q.after ((k x).flatMap Piece.text) = q.after x.text)
    (p : Position) : gather f p (ps.flatMap k) = gather g p ps := by
  induction ps generalizing p with
  | nil => rfl
  | cons x xs ih =>
    have hrest := ih (fun y hy => hyield y (List.mem_cons_of_mem x hy))
      (fun y hy => hafter y (List.mem_cons_of_mem x hy)) (p.after x.text)
    rw [List.flatMap_cons, gather_append, hyield x List.mem_cons_self,
      hafter x List.mem_cons_self, hrest, gather]

theorem tokensAt_shift (bytes lines : Nat) (p : Position) (ps : List Piece) :
    tokensAt (p.shift bytes lines) ps = (tokensAt p ps).map (Token.shift bytes lines) :=
  gather_shift (Piece.token?_shift bytes lines) p ps

theorem diagnosticsAt_shift (policy : Policy) (bytes lines : Nat) (p : Position)
    (ps : List Piece) : diagnosticsAt policy (p.shift bytes lines) ps =
      (diagnosticsAt policy p ps).map (Diagnostic.shift lines) :=
  gather_shift (Piece.diagnostic?_shift policy bytes lines) p ps

/-- No token begins in front of the pieces it comes from. -/
theorem le_start_of_mem_tokensAt {p : Position} {ps : List Piece} {t : Token}
    (ht : t ∈ tokensAt p ps) : p.offset ≤ t.span.start := by
  induction ps generalizing p with
  | nil => cases ht
  | cons x xs ih =>
    rcases List.mem_append.mp ht with hx | hxs
    · cases x with
      | lexeme l =>
        obtain rfl : t = l.tokenAt p := by simpa [Piece.token?] using hx
        exact Nat.le_refl _
      | _ => cases hx
    · exact Nat.le_trans (p.le_after x.text) (ih hxs)

/-- Taking up pieces one after another leaves what they yield behind what there was. -/
theorem foldl_step (policy : Policy) (report : σ → Diagnostic → σ) (s : Progress σ)
    (ps : List Piece) : ps.foldl (Progress.step policy report) s =
      ⟨s.position.after (ps.flatMap Piece.text),
        s.tokens ++ (tokensAt s.position ps).toArray,
        (diagnosticsAt policy s.position ps).foldl report s.sink⟩ := by
  induction ps generalizing s with
  | nil => simp [tokensAt, diagnosticsAt, gather]
  | cons x xs ih =>
    rw [List.foldl_cons, ih]
    simp only [Progress.step, tokensAt, diagnosticsAt, gather, List.flatMap_cons,
      Position.after_append, List.foldl_append]
    congr 1
    · cases x.token? s.position <;> simp
    · cases x.diagnostic? policy s.position <;> simp

/-- The tokens of a scan are those of the pieces, and the sink has taken their
diagnostics in order. -/
theorem scanInto_eq (policy : Policy) (report : σ → Diagnostic → σ) (sink : σ)
    (source : String) : scanInto policy report sink source =
      (tokensAt .start (pieces source.toList) ++ [.endAt (Position.start.after source.toList)],
        (diagnosticsAt policy .start (pieces source.toList)).foldl report sink) := by
  simp [scanInto, foldl_step, Progress.start, flatMap_text_pieces]

theorem Log.toList_foldl_report (log : Log) (ds : List Diagnostic) :
    (ds.foldl Log.report log).toList = log.toList ++ ds := by
  induction ds generalizing log with
  | nil => simp
  | cons d ds ih =>
    rw [List.foldl_cons, ih, Log.toList_report, List.append_assoc, List.singleton_append]

theorem tokens_scan (policy : Policy) (source : String) : (scan policy source).1 =
    tokensAt .start (pieces source.toList) ++ [.endAt (Position.start.after source.toList)] := by
  rw [scan, Log.scan, scanInto_eq]

theorem toList_scan (policy : Policy) (source : String) :
    (scan policy source).2.toList = diagnosticsAt policy .start (pieces source.toList) := by
  rw [scan, Log.scan, scanInto_eq, Log.toList_foldl_report, Log.toList_empty, List.nil_append]

theorem Position.start_after_toList (source : String) : Position.start.after source.toList =
    Position.start.shift source.utf8ByteSize (source.toList.count '\n') := by
  rw [after_eq_shift, String.ofList_toList]

/-- Where two sources stay apart when put together, the second scan follows the first,
moved by its bytes and lines. -/
theorem scan_append (policy : Policy) {a b : String}
    (h : pieces (a ++ b).toList = pieces a.toList ++ pieces b.toList) :
    (scan policy (a ++ b)).1 = (scan policy a).1.dropLast ++
        (scan policy b).1.map (Token.shift a.utf8ByteSize (a.toList.count '\n')) ∧
      (scan policy (a ++ b)).2.toList = (scan policy a).2.toList ++
        (scan policy b).2.toList.map (Diagnostic.shift (a.toList.count '\n')) := by
  have hfront := Position.start_after_toList a
  have hend : Position.start.after (a ++ b).toList = (Position.start.after b.toList).shift
      a.utf8ByteSize (a.toList.count '\n') := by
    rw [String.toList_append, Position.after_append, hfront, Position.shift_after]
  have htokens : tokensAt .start (pieces (a ++ b).toList) =
      tokensAt .start (pieces a.toList) ++ (tokensAt .start (pieces b.toList)).map
        (Token.shift a.utf8ByteSize (a.toList.count '\n')) := by
    rw [h, tokensAt_append, flatMap_text_pieces, hfront, tokensAt_shift]
  have hdiagnostics : diagnosticsAt policy .start (pieces (a ++ b).toList) =
      diagnosticsAt policy .start (pieces a.toList) ++
        (diagnosticsAt policy .start (pieces b.toList)).map
          (Diagnostic.shift (a.toList.count '\n')) := by
    rw [h, diagnosticsAt_append, flatMap_text_pieces, hfront, diagnosticsAt_shift]
  constructor
  · rw [tokens_scan, tokens_scan, tokens_scan, List.dropLast_concat, htokens, hend,
      List.map_append, List.append_assoc]
    rfl
  · rw [toList_scan, toList_scan, toList_scan, hdiagnostics]

end LoxTokens
