import Mathlib
import PhpLowering.Diagnostic

/-!
# Lines and columns

A diagnostic names the line and the column that its span begins at, and shows the line with carets below it.
`LineInfo.Locates` says what a line and a column mean: the line is one of the pieces that the newlines cut the
source into, and the offset is what stands before the line, a newline for each piece, and then the column.  So an
offset can be told from its line and column.

`Span.lineInfo?_exact` says that every span in the source is located so, and what the line of carets below looks
like.
-/

namespace PhpLowering

open Span (newline lastLine)

/-- The offset that a line begins at: the lines before it, each with its newline. -/
def LineInfo.lineStart (info : LineInfo) (source : List UInt8) : Nat :=
  (((source.splitOn newline).take (info.line - 1)).map fun piece => piece.length + 1).sum

/-- Line and column lead to an offset. -/
structure LineInfo.Locates (info : LineInfo) (source : List UInt8) (offset : Nat) : Prop where
  line_pos : 0 < info.line
  column_pos : 0 < info.column
  text_eq : (source.splitOn newline)[info.line - 1]? = some info.text
  column_le : info.column - 1 ≤ info.text.length
  offset_eq : info.lineStart source + (info.column - 1) = offset

/-- The number of bytes of a span that lie on a line, its newline not included. -/
def LineInfo.bytesOf (info : LineInfo) (s : Span) (source : List UInt8) : Nat :=
  (Finset.Ico s.start s.stop ∩
    Finset.Ico (info.lineStart source) (info.lineStart source + info.text.length)).card

namespace Span

variable {before after source : List UInt8}

theorem lastLine_concat (b : UInt8) :
    lastLine (before ++ [b]) = if b = newline then [] else lastLine before ++ [b] := by
  by_cases hb : b = newline <;> simp [lastLine, hb]

/-- What comes first is what stands before the first newline. -/
theorem splitOn_eq_cons (after : List UInt8) :
    ∃ rest, after.splitOn newline = after.takeWhile (· != newline) :: rest := by
  induction after with
  | nil => exact ⟨[], List.splitOn_nil _⟩
  | cons b after ih =>
    obtain ⟨rest, ih⟩ := ih
    rw [List.splitOn_cons_eq_if_modifyHead, ih]
    by_cases hb : b = newline <;> simp [hb]

/-- **The lines of a source that is cut in two.**  The lines that end in the first part do not depend on the second
one, and the first line of the second part continues the last one of the first. -/
theorem splitOn_append (before : List UInt8) :
    ∃ front : List (List UInt8), front.length = before.count newline ∧
      (front.map fun piece => piece.length + 1).sum + (lastLine before).length = before.length ∧
      ∀ after, (before ++ after).splitOn newline =
        front ++ (after.splitOn newline).modifyHead (lastLine before ++ ·) := by
  induction before using List.reverseRecOn with
  | nil =>
    refine ⟨[], rfl, rfl, fun after => ?_⟩
    obtain ⟨rest, hafter⟩ := splitOn_eq_cons after
    rw [List.nil_append, hafter]
    rfl
  | append_singleton before b ih =>
    obtain ⟨front, hlength, hsum, hsplit⟩ := ih
    by_cases hb : b = newline
    · refine ⟨front ++ [lastLine before], ?_, ?_, fun after => ?_⟩
      · simp [hlength, hb]
      · rw [lastLine_concat, if_pos hb, List.map_append, List.sum_append, List.length_append, ← hsum]
        simp
        omega
      · obtain ⟨rest, hafter⟩ := splitOn_eq_cons after
        rw [List.append_assoc, hsplit, List.singleton_append, List.splitOn_cons_eq_if_modifyHead, hafter,
          lastLine_concat, if_pos hb]
        simp [hb]
    · refine ⟨front, ?_, ?_, fun after => ?_⟩
      · simp [hlength, hb]
      · rw [lastLine_concat, if_neg hb, List.length_append, List.length_append, ← hsum, Nat.add_assoc]
      · obtain ⟨rest, hafter⟩ := splitOn_eq_cons after
        rw [List.append_assoc, hsplit, List.singleton_append, List.splitOn_cons_eq_if_modifyHead, hafter,
          lastLine_concat, if_neg hb]
        simp [hb]

variable {s : Span} {info : LineInfo}

theorem isSome_lineInfo? : (s.lineInfo? source).isSome = true ↔ s.start ≤ s.stop ∧ s.stop ≤ source.length := by
  rw [lineInfo?]
  split
  · rename_i h
    simpa [fits] using h
  · rename_i h
    simpa [fits] using h

/-- A span that lies in the source is located. -/
theorem locates_lineInfo? (h : s.lineInfo? source = some info) : info.Locates source s.start := by
  have hin := isSome_lineInfo?.mp (Option.isSome_of_eq_some h)
  rw [lineInfo?] at h
  split at h
  · obtain rfl := Option.some.inj h
    obtain ⟨front, hlength, hsum, hsplit⟩ := splitOn_append (source.take s.start)
    obtain ⟨rest, hafter⟩ := splitOn_eq_cons (source.drop s.start)
    have hsource : source.splitOn newline = front ++
        (lastLine (source.take s.start) ++ (source.drop s.start).takeWhile (· != newline)) :: rest := by
      rw [← List.modifyHead_cons, ← hafter, ← hsplit, List.take_append_drop]
    refine ⟨Nat.succ_pos _, Nat.succ_pos _, ?_, ?_, ?_⟩
    · rw [hsource, Nat.add_sub_cancel, ← hlength]
      simp
    · simp
    · rw [LineInfo.lineStart, hsource, Nat.add_sub_cancel, ← hlength, List.take_left, Nat.add_sub_cancel, hsum,
        List.length_take]
      omega
  · exact nomatch h

end Span

namespace LineInfo.Locates

variable {info info' : LineInfo} {source : List UInt8} {offset offset' : Nat}

/-- An offset can be told from its line and column. -/
theorem offset_unique (h : info.Locates source offset) (h' : info'.Locates source offset')
    (hline : info'.line = info.line) (hcolumn : info'.column = info.column) : offset' = offset := by
  rw [← h.offset_eq, ← h'.offset_eq, lineStart, lineStart, hline, hcolumn]

/-- The bytes of a span that lie on its line are those up to the end of the span or of the line. -/
theorem bytesOf_eq {s : Span} (h : info.Locates source s.start) :
    info.bytesOf s source = min s.length (info.text.length - (info.column - 1)) := by
  have hoffset := h.offset_eq
  have hcolumn := h.column_le
  rw [bytesOf, Finset.Ico_inter_Ico, Nat.card_Ico, Span.length]
  omega

end LineInfo.Locates

namespace Diagnostic

/-- The line below the source line: a gutter as wide as the number of the line, blanks up to the column, and a caret
for every byte of the span on the line, but at least one. -/
def caretLine (info : LineInfo) (s : Span) (source : List UInt8) : List Char :=
  List.replicate ((toString info.line).length + 1) ' ' ++ ['|', ' '] ++
    List.replicate (info.column - 1) ' ' ++ List.replicate (max 1 (info.bytesOf s source)) '^'

variable {d : Diagnostic} {s : Span} {source : List UInt8} {info : LineInfo}

theorem newline_notMem_caretLine : '\n' ∉ caretLine info s source := by
  simp [caretLine, List.mem_replicate]

theorem toList_marker (h : info.Locates source s.start) :
    (marker info s).toList = List.replicate (info.column - 1) ' ' ++
      List.replicate (max 1 (info.bytesOf s source)) '^' := by
  rw [marker, String.toList_ofList, h.bytesOf_eq, Nat.min_eq_right h.column_le]

/-- **What is rendered last is the line of carets.** -/
theorem getLast?_render (h : d.span.lineInfo? source = some info) (path : Option String) :
    ((d.render source path).toList.splitOn '\n').getLast? = some (caretLine info d.span source) := by
  have hlast : ∀ top gutter carets : String, (top ++ "\n" ++ gutter ++ "| " ++ carets).toList =
      top.toList ++ '\n' :: (gutter.toList ++ ['|', ' '] ++ carets.toList) := by
    simp [String.toList_append]
  simp only [render, h, hlast, String.toList_ofList, toList_marker (Span.locates_lineInfo? h)]
  rw [← List.append_assoc (_ ++ ['|', ' ']), ← caretLine, List.splitOn_append_cons_self,
    List.splitOn_eq_singleton newline_notMem_caretLine, List.getLast?_concat]

end Diagnostic

namespace Span

/-- **Places in the source are exact.**  A span has a place exactly if it lies in the source.  Then its line and
column lead to where it starts, so spans with the same line and column start together; and the last line of a
rendered diagnostic has a blank for each column before, and a caret for each byte of the span on the line. -/
theorem lineInfo?_exact (source : List UInt8) (s : Span) :
    ((s.lineInfo? source).isSome = true ↔ s.start ≤ s.stop ∧ s.stop ≤ source.length) ∧
    ∀ info, s.lineInfo? source = some info →
      info.Locates source s.start ∧
      (∀ (s' : Span) (info' : LineInfo), s'.lineInfo? source = some info' → info'.line = info.line → info'.column = info.column →
        s'.start = s.start) ∧
      ∀ problem path, ((Diagnostic.render ⟨problem, s⟩ source path).toList.splitOn '\n').getLast? =
        some (Diagnostic.caretLine info s source) :=
  ⟨isSome_lineInfo?, fun _ h =>
    ⟨locates_lineInfo? h,
      fun _ _ h' hline hcolumn => (locates_lineInfo? h).offset_unique (locates_lineInfo? h') hline hcolumn,
      fun problem path => Diagnostic.getLast?_render (d := ⟨problem, s⟩) h path⟩⟩

/-- A span that begins inside the second line and goes on to the third. -/
theorem lineInfo?_exact_twoLines :
    (⟨3, 7⟩ : Span).lineInfo? [0x61, 0x0A, 0x62, 0x63, 0x64, 0x0A, 0x65] = some ⟨2, 2, [0x62, 0x63, 0x64]⟩ ∧
      ((Diagnostic.render ⟨.unreachableCode, ⟨3, 7⟩⟩ [0x61, 0x0A, 0x62, 0x63, 0x64, 0x0A, 0x65]
        none).toList.splitOn '\n').getLast? = some "  |  ^^".toList := by
  have hinfo : (⟨3, 7⟩ : Span).lineInfo? [0x61, 0x0A, 0x62, 0x63, 0x64, 0x0A, 0x65] =
      some ⟨2, 2, [0x62, 0x63, 0x64]⟩ := by decide
  have hcarets : Diagnostic.caretLine ⟨2, 2, [0x62, 0x63, 0x64]⟩ ⟨3, 7⟩
      [0x61, 0x0A, 0x62, 0x63, 0x64, 0x0A, 0x65] = "  |  ^^".toList := by decide
  exact ⟨hinfo, hcarets ▸ ((lineInfo?_exact _ _).2 _ hinfo).2.2 .unreachableCode none⟩

end Span

end PhpLowering
