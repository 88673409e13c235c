import Mathlib.Data.List.DropRight
import Cpl.Diagnostic.Report
import Cpl.Proofs.Lines

/-!
# What a report shows

A report ends with an excerpt of the source in three lines: a bar, the line of the place behind its number, and
the caret. Of the line, spaces and tabs at its start and blanks at its end are left out.

* `Text.IsBared`: what is left of a line, said by its parts;
* `Diagnostic.lines_report`: the lines of a report, if the position is inside the text or at its end;
* `Diagnostic.Shows`: the report shows the line of a place, and by `Diagnostic.exists_shows` that of its
  position.
-/

namespace Cpl

/-! ## What is shown of a line -/

namespace Text

/-- What is left of a line without the spaces and tabs that it starts with and the blanks that it ends
with. -/
structure IsBared (line shown : List Char) : Prop where
  parts : ∃ indent blanks, line = indent ++ shown ++ blanks ∧
    (∀ c ∈ indent, c = ' ' ∨ c = '\t') ∧ ∀ c ∈ blanks, isBlank c = true
  start : ∀ c ∈ shown.head?, c ≠ ' ' ∧ c ≠ '\t'
  stop : ∀ c ∈ shown.getLast?, isBlank c = false

/-- What a report shows of a line. -/
def bared (line : List Char) : List Char :=
  trimRight (line.dropWhile isIndent)

theorem isIndent_iff {c : Char} : isIndent c = true ↔ c = ' ' ∨ c = '\t' := by
  rw [isIndent, Bool.or_eq_true, beq_iff_eq, beq_iff_eq]

theorem isBared_bared (line : List Char) : IsBared line (bared line) := by
  have hparts : bared line ++ (line.dropWhile isIndent).rtakeWhile isBlank = line.dropWhile isIndent :=
    List.rdropWhile_append_rtakeWhile
  refine ⟨⟨line.takeWhile isIndent, (line.dropWhile isIndent).rtakeWhile isBlank, ?_, ?_, ?_⟩, ?_, ?_⟩
  · rw [List.append_assoc, hparts, List.takeWhile_append_dropWhile]
  · exact fun c hc => isIndent_iff.mp (List.mem_takeWhile_imp hc)
  · exact fun c hc => List.mem_rtakeWhile_imp hc
  · intro c hc
    -- the first character shown is the first one behind the indentation
    have hfirst : (line.dropWhile isIndent).head? = some c := by
      rw [← hparts, List.head?_append, Option.mem_def.mp hc, Option.some_or]
    have hindent : isIndent c = false := by
      have := List.head?_dropWhile_not isIndent line
      rwa [hfirst] at this
    rw [← not_or, ← isIndent_iff, hindent]
    exact Bool.false_ne_true
  · intro c hc
    obtain ⟨hne, rfl⟩ := List.mem_getLast?_eq_getLast hc
    exact Bool.not_eq_true _ ▸ List.rdropWhile_last_not isBlank (line.dropWhile isIndent) hne

/-- The line feed of a line is a blank at its end, and not shown. -/
theorem IsBared.feed_notMem {line shown : List Char} (h : IsBared line shown)
    (hline : Ended line ∨ '\n' ∉ line) : '\n' ∉ shown := by
  intro hmem
  obtain ⟨indent, blanks, hparts, -, -⟩ := h.parts
  rcases hline with ⟨body, hbody, hfeed⟩ | hline
  · rw [hbody] at hparts
    rcases List.eq_nil_or_concat blanks with rfl | ⟨init, last, rfl⟩
    · -- nothing is left out at the end, so the line feed itself would be shown last
      have hne := List.ne_nil_of_mem hmem
      have hlast := congrArg List.getLast? hparts
      rw [List.append_nil, List.getLast?_concat, List.getLast?_append,
        List.getLast?_eq_some_getLast hne, Option.some_or] at hlast
      have hblank := h.stop _ (List.getLast?_eq_some_getLast hne)
      rw [← Option.some.inj hlast] at hblank
      cases hblank
    · rw [List.concat_eq_append, ← List.append_assoc] at hparts
      have hinit := (List.append_inj' hparts rfl).1
      exact hfeed (hinit ▸ List.mem_append_left init (List.mem_append_right indent hmem))
  · exact hline (hparts ▸ List.mem_append_left blanks (List.mem_append_right indent hmem))

end Text

/-! ## Reports -/

namespace Diagnostic

open Text

/-- What stands before a source line of the given number. -/
def gutter (number : Nat) : List Char :=
  (toString number).toList ++ [' ', '|', ' ']

/-- What stands before the caret, below a source line of the given number. -/
def dashes (number width : Nat) : List Char :=
  margin (toString number) ++ ' ' :: List.replicate width '-'

theorem feed_notMem_margin (number : String) : '\n' ∉ margin number := by
  simp [margin]

theorem feed_notMem_gutter (number : Nat) : '\n' ∉ gutter number := by
  rw [gutter, List.mem_append, not_or]
  exact ⟨feed_notMem_toString number, by decide⟩

theorem feed_notMem_dashes (number width : Nat) : '\n' ∉ dashes number width := by
  simp [dashes, feed_notMem_margin]

theorem toList_excerpt (place : Place) :
    (excerpt place).toList = margin (toString place.number) ++ '\n' ::
      (gutter place.number ++ bared place.line ++ '\n' ::
        (dashes place.number (place.column - (place.line.takeWhile isIndent).length) ++ ['^'] ++
          ['\n'])) := by
  simp only [excerpt, bared, gutter, dashes, String.toList_ofList, List.append_assoc, List.cons_append,
    List.nil_append]

/-- The lines of a report: its head, and the excerpt. -/
theorem lines_report (d : Diagnostic) (file : String) {source : String} {place : Place}
    (h : lineAt? source d.position.offset.toNat = some place) :
    lines (d.report file source).toList =
      lines (d.headline ++ "-> " ++ file ++ "\n").toList ++
        [margin (toString place.number) ++ ['\n'], gutter place.number ++ bared place.line ++ ['\n'],
          dashes place.number (place.column - (place.line.takeWhile isIndent).length) ++ ['^', '\n']] := by
  have hle : d.position.offset.toNat ≤ byteSize source.toList := by
    refine Nat.le_of_not_lt fun hlt => ?_
    rw [lineAt?_eq_none_iff.mpr hlt] at h
    cases h
  obtain ⟨place', hplace, -, hline⟩ := exists_locates hle
  obtain rfl : place' = place := Option.some.inj (hplace.symm.trans h)
  have hhead : (d.headline ++ "-> " ++ file ++ "\n").toList = [] ∨
      ∃ body, (d.headline ++ "-> " ++ file ++ "\n").toList = body ++ ['\n'] :=
    .inr ⟨(d.headline ++ "-> " ++ file).toList, String.toList_append⟩
  have hshown : '\n' ∉ gutter place'.number ++ bared place'.line := by
    rw [List.mem_append, not_or]
    exact ⟨feed_notMem_gutter _, (isBared_bared place'.line).feed_notMem hline⟩
  have hcaret : '\n' ∉ dashes place'.number
      (place'.column - (place'.line.takeWhile isIndent).length) ++ ['^'] := by
    simp [feed_notMem_dashes]
  rw [report, h, String.toList_append, lines_append hhead, toList_excerpt,
    lines_append_feed (feed_notMem_margin _), lines_append_feed hshown, lines_append_feed hcaret,
    List.append_assoc (dashes _ _)]
  rfl

/-- Below its head the report shows the line of the place, behind its number, and a caret. -/
def Shows (d : Diagnostic) (file source : String) (place : Place) : Prop :=
  ∃ shown width, IsBared place.line shown ∧
    lines (d.report file source).toList =
      lines (d.headline ++ "-> " ++ file ++ "\n").toList ++
        [margin (toString place.number) ++ ['\n'], gutter place.number ++ shown ++ ['\n'],
          dashes place.number width ++ ['^', '\n']]

/-- A position inside a text or at its end is on some line, which the report then shows. -/
theorem exists_shows (d : Diagnostic) {source : String}
    (h : d.position.offset.toNat ≤ byteSize source.toList) :
    ∃ place, lineAt? source d.position.offset.toNat = some place ∧
      place.Locates source d.position.offset.toNat ∧ ∀ file, d.Shows file source place := by
  obtain ⟨place, hplace, hlocates, -⟩ := exists_locates h
  exact ⟨place, hplace, hlocates, fun file => ⟨_, _, isBared_bared place.line, d.lines_report file hplace⟩⟩

end Diagnostic

end Cpl
