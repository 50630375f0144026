import LoxTokens.Proofs.Source.Outline

/-!
# Places and stretches of a source

The offsets of positions and spans count bytes. Not every number of bytes is a place of
the source, because a character may take several. Here positions and spans are tied to
the places and the stretches of the source that they stand for.
-/

namespace LoxTokens

/-- The position is one of the source: no character is cut at its offset, and its line
counts the newlines in front of it. -/
def Position.LiesIn (p : Position) (source : String) : Prop :=
  ∃ (place : source.Pos) (front back : String), place.Splits front back ∧
    place.offset.byteIdx = p.offset ∧ p.line = 1 + front.toList.count '\n'

/-- Both ends of the span are places of the source, and between them stands `text`. -/
def Span.Holds (s : Span) (source text : String) : Prop :=
  ∃ first last : source.Pos, first.offset.byteIdx = s.start ∧ last.offset.byteIdx = s.stop ∧
    source.extract first last = text

theorem exists_splits {source front back : String} (h : source = front ++ back) :
    ∃ place : source.Pos, place.Splits front back := by
  have hvalid : front.rawEndPos.IsValid source :=
    String.Pos.Raw.isValid_iff_exists_append.mpr ⟨front, back, h, rfl⟩
  exact ⟨⟨front.rawEndPos, hvalid⟩, h, rfl⟩

/-- A place is told by its bytes, so a source falls into two texts in one way only when the
size of the first is given. -/
theorem eq_of_append_eq {source front back front' back' : String} (h : source = front ++ back)
    (h' : source = front' ++ back') (hsize : front.utf8ByteSize = front'.utf8ByteSize) :
    front = front' ∧ back = back' := by
  obtain ⟨place, hplace⟩ := exists_splits h
  obtain ⟨place', hplace'⟩ := exists_splits h'
  have heq : place = place' := by
    apply String.Pos.ext
    rw [hplace.offset_eq_rawEndPos, hplace'.offset_eq_rawEndPos, String.rawEndPos,
      String.rawEndPos, hsize]
  subst heq
  exact hplace.eq hplace'

theorem extract_of_splits {source front text back : String} {first last : source.Pos}
    (hfirst : first.Splits front (text ++ back)) (hlast : last.Splits (front ++ text) back) :
    source.extract first last = text := by
  obtain ⟨rfl, hfirst⟩ := hfirst
  have hsize : (front ++ text).utf8ByteSize = front.toByteArray.size + text.toByteArray.size :=
    String.utf8ByteSize_append
  apply String.toByteArray_inj.mp
  rw [String.toByteArray_extract, hfirst, hlast.offset_eq_rawEndPos, String.byteIdx_rawEndPos,
    String.byteIdx_rawEndPos, hsize, String.toByteArray_append, String.toByteArray_append]
  exact (ByteArray.extract_append_size_add (i := 0)).trans (ByteArray.extract_append_eq_left rfl)

/-- A position told by the text in front of it lies in every source that begins so. -/
theorem Position.liesIn_start_after {source : String} {front back : List Char}
    (h : source.toList = front ++ back) : (start.after front).LiesIn source := by
  have hsource : source = String.ofList front ++ String.ofList back := by
    rw [← String.ofList_append, ← h, String.ofList_toList]
  obtain ⟨place, hplace⟩ := exists_splits hsource
  refine ⟨place, _, _, hplace, ?_, ?_⟩
  · rw [hplace.offset_eq_rawEndPos, String.byteIdx_rawEndPos, after_offset, start, Nat.zero_add]
  · rw [after_line, String.toList_ofList, start]

/-- What stands between the bytes of `front` and those of `front` and `text` is `text`. -/
theorem Span.holds_of_append {source front text back : String}
    (h : source = front ++ (text ++ back)) :
    Span.Holds ⟨front.utf8ByteSize, front.utf8ByteSize + text.utf8ByteSize⟩ source text := by
  obtain ⟨first, hfirst⟩ := exists_splits h
  obtain ⟨last, hlast⟩ := exists_splits (h.trans String.append_assoc.symm)
  refine ⟨first, last, ?_, ?_, extract_of_splits hfirst hlast⟩
  · rw [hfirst.offset_eq_rawEndPos, String.byteIdx_rawEndPos]
  · rw [hlast.offset_eq_rawEndPos, String.byteIdx_rawEndPos, String.utf8ByteSize_append]

end LoxTokens
