import Cpl.Compile
import Cpl.Proofs.Reports

/-!
# Where the caret stands

A report shows the source line with a caret below it. Of the line, spaces and tabs at the start and blanks
at the end are left out. What is shown of it before a character is `Text.lead`, and `Text.Shown` says that the
character itself is shown.

The caret stands as many columns to the right as there are bytes in front of the character, not as many as
there are characters. So it stands below the character exactly if all that is shown before it on the line is
ASCII (`Diagnostic.caret_below_iff`); `accented_caret_off` is a program for which it does not.
-/

namespace Cpl

/-! ## What is shown of a line -/

namespace Text

/-- The characters since the last line feed. -/
def sinceFeed (cs : List Char) : List Char :=
  cs.rtakeWhile (· != '\n')

/-- The characters up to the next line feed. -/
def untilFeed (cs : List Char) : List Char :=
  cs.takeWhile (· != '\n')

/-- What is shown of a line before a character, `before` being the text before it. -/
def lead (before : List Char) : List Char :=
  (sinceFeed before).dropWhile isIndent

/-- A character of a text is shown: it is neither in the indentation of its line nor in the blanks at its
end. -/
structure Shown (before : List Char) (c : Char) (after : List Char) : Prop where
  notIndent : ∃ x ∈ sinceFeed before ++ [c], isIndent x = false
  notTrailing : ∃ x ∈ untilFeed (c :: after), isBlank x = false

variable {before after : List Char} {c : Char}

theorem Shown.ne_feed (h : Shown before c after) : c ≠ '\n' := by
  rintro rfl
  obtain ⟨x, hx, -⟩ := h.notTrailing
  cases hx

theorem feed_notMem_sinceFeed (cs : List Char) : '\n' ∉ sinceFeed cs := by
  intro h
  simpa using List.mem_rtakeWhile_imp h

theorem feed_notMem_untilFeed (cs : List Char) : '\n' ∉ untilFeed cs := by
  intro h
  simpa using List.mem_takeWhile_imp h

theorem untilFeed_cons (h : c ≠ '\n') (cs : List Char) : untilFeed (c :: cs) = c :: untilFeed cs :=
  List.takeWhile_cons_of_pos (bne_iff_ne.mpr h)

/-- A text up to its last line feed, and the rest. -/
theorem exists_append_sinceFeed (cs : List Char) :
    ∃ earlier, cs = earlier ++ sinceFeed cs ∧ (earlier = [] ∨ ∃ body, earlier = body ++ ['\n']) := by
  refine ⟨cs.rdropWhile (· != '\n'), List.rdropWhile_append_rtakeWhile.symm, ?_⟩
  by_cases hne : cs.rdropWhile (· != '\n') = []
  · exact .inl hne
  · have hlast := List.rdropWhile_last_not (· != '\n') cs hne
    rw [Bool.not_eq_true, bne_eq_false_iff_eq] at hlast
    exact .inr ⟨_, (hlast ▸ List.dropLast_append_getLast hne).symm⟩

/-- A text up to its first line feed, and the rest. -/
theorem exists_untilFeed_append (cs : List Char) :
    ∃ later, cs = untilFeed cs ++ later ∧ (later = [] ∨ ∃ rest, later = '\n' :: rest) := by
  induction cs with
  | nil => exact ⟨[], rfl, .inl rfl⟩
  | cons c cs ih =>
    by_cases hc : c = '\n'
    · subst hc
      exact ⟨_, rfl, .inr ⟨cs, rfl⟩⟩
    · obtain ⟨later, hcs, hlater⟩ := ih
      refine ⟨later, ?_, hlater⟩
      rw [untilFeed_cons hc, List.cons_append, ← hcs]

/-- The indentation is before the character, so what is shown starts there or before. -/
theorem Shown.dropWhile_isIndent (h : Shown before c after) (rest : List Char) :
    (sinceFeed before ++ c :: rest).dropWhile isIndent = lead before ++ c :: rest := by
  have hlead : lead before = (sinceFeed before).dropWhile isIndent := rfl
  rw [hlead, List.dropWhile_append]
  split
  · rename_i hempty
    rw [List.isEmpty_iff] at hempty
    obtain ⟨x, hx, hindent⟩ := h.notIndent
    have hc : isIndent c = false := by
      rcases List.mem_append.mp hx with hx | hx
      · rw [List.dropWhile_eq_nil_iff.mp hempty x hx] at hindent
        cases hindent
      · rwa [← List.mem_singleton.mp hx]
    rw [hempty, List.nil_append, List.dropWhile_cons_of_neg (Bool.not_eq_true _ ▸ hc)]
  · rfl

theorem Shown.takeWhile_isIndent (h : Shown before c after) (rest : List Char) :
    (sinceFeed before ++ c :: rest).takeWhile isIndent = (sinceFeed before).takeWhile isIndent := by
  have hwhole : (sinceFeed before ++ c :: rest).takeWhile isIndent ++ (lead before ++ c :: rest) =
      sinceFeed before ++ c :: rest := by
    rw [← h.dropWhile_isIndent, List.takeWhile_append_dropWhile]
  have hpart : (sinceFeed before).takeWhile isIndent ++ lead before = sinceFeed before :=
    List.takeWhile_append_dropWhile
  nth_rewrite 2 [← hpart] at hwhole
  rw [List.append_assoc] at hwhole
  exact List.append_cancel_right hwhole

theorem trimRight_append {cs cs' : List Char} (h : ∃ x ∈ cs', isBlank x = false) :
    trimRight (cs ++ cs') = cs ++ trimRight cs' := by
  obtain ⟨x, hx, hblank⟩ := h
  have hne : cs'.reverse.dropWhile isBlank ≠ [] := by
    intro hnil
    rw [List.dropWhile_eq_nil_iff.mp hnil x (List.mem_reverse.mpr hx)] at hblank
    cases hblank
  rw [trimRight, trimRight, List.reverse_append, List.dropWhile_append,
    if_neg (by simpa using hne), List.reverse_append, List.reverse_reverse]

/-- The character is shown, and after it a part of what follows on its line. -/
theorem Shown.trimRight (h : Shown before c after) :
    ∃ trail, trimRight (c :: untilFeed after) = c :: trail ∧ trail <+: untilFeed after := by
  obtain ⟨x, hx, hblank⟩ := h.notTrailing
  rw [untilFeed_cons h.ne_feed] at hx
  obtain ⟨blanks, hblanks⟩ : Text.trimRight (c :: untilFeed after) <+: c :: untilFeed after :=
    ⟨_, List.rdropWhile_append_rtakeWhile⟩
  cases htrim : Text.trimRight (c :: untilFeed after) with
  | nil =>
    rw [List.rdropWhile_eq_nil_iff.mp htrim x hx] at hblank
    cases hblank
  | cons d trail =>
    rw [htrim, List.cons_append] at hblanks
    obtain ⟨rfl, htrail⟩ := List.cons.inj hblanks
    exact ⟨trail, rfl, blanks, htrail⟩

theorem length_le_byteSize (cs : List Char) : cs.length ≤ byteSize cs := by
  induction cs with
  | nil => exact Nat.le_refl 0
  | cons c cs ih =>
    have hpos := c.utf8Size_pos
    rw [List.length_cons, byteSize_cons]
    omega

/-- Each character has a byte, and only ASCII characters have no more. -/
theorem byteSize_eq_length_iff {cs : List Char} :
    byteSize cs = cs.length ↔ ∀ c ∈ cs, c.utf8Size = 1 := by
  induction cs with
  | nil => simp
  | cons c cs ih =>
    have hpos := c.utf8Size_pos
    have hle := length_le_byteSize cs
    rw [List.forall_mem_cons, ← ih, List.length_cons, byteSize_cons]
    omega

theorem byteSize_takeWhile_isIndent (cs : List Char) :
    byteSize (cs.takeWhile isIndent) = (cs.takeWhile isIndent).length := by
  rw [byteSize_eq_length_iff]
  intro c hc
  rcases isIndent_iff.mp (List.mem_takeWhile_imp hc) with rfl | rfl <;> rfl

/-- The line of a character that is no line feed, and the column of the character on it. -/
theorem lineAt?_of_toList {source : String} (hsource : source.toList = before ++ c :: after)
    (hc : c ≠ '\n') :
    ∃ feed, (feed = [] ∨ feed = ['\n']) ∧ lineAt? source (byteSize before) =
      some ⟨before.count '\n' + 1, sinceFeed before ++ c :: (untilFeed after ++ feed),
        byteSize (sinceFeed before)⟩ := by
  obtain ⟨earlier, hbefore, hearlier⟩ := exists_append_sinceFeed before
  obtain ⟨later, hafter, hlater⟩ := exists_untilFeed_append after
  have hnotMem : '\n' ∉ sinceFeed before ++ c :: untilFeed after := by
    simp [feed_notMem_sinceFeed, feed_notMem_untilFeed, Ne.symm hc]
  have hsplit : source.toList = earlier ++ (sinceFeed before ++ c :: untilFeed after ++ later) := by
    rw [hsource, List.append_assoc, List.cons_append, ← hafter, ← List.append_assoc, ← hbefore]
  obtain ⟨feed, ls, hfeed, hlines⟩ : ∃ feed ls, (feed = [] ∨ feed = ['\n']) ∧ lines source.toList =
      lines earlier ++ (sinceFeed before ++ c :: (untilFeed after ++ feed)) :: ls := by
    rw [hsplit, lines_append hearlier]
    rcases hlater with rfl | ⟨rest, rfl⟩
    · refine ⟨[], [], .inl rfl, ?_⟩
      rw [List.append_nil, List.append_nil, lines_of_feed_notMem (by simp) hnotMem]
    · refine ⟨['\n'], lines rest, .inr rfl, ?_⟩
      rw [lines_append_feed hnotMem, List.append_assoc, List.cons_append]
  have hnumber : (lines earlier).length = before.count '\n' := by
    have hhere := List.count_eq_zero.mpr (feed_notMem_sinceFeed before)
    have hcount := congrArg (List.count '\n') hbefore
    rw [List.count_append, hhere, Nat.add_zero] at hcount
    rw [← count_feed_flatten (lined_iff.mpr hlines.symm).ended.1, lines_flatten, hcount]
  have hsize : byteSize before = byteSize (lines earlier).flatten + byteSize (sinceFeed before) := by
    rw [lines_flatten, ← byteSize_append, ← hbefore]
  have hle : ¬ byteSize source.toList < byteSize before := by
    rw [hsource, byteSize_append]
    exact Nat.not_lt.mpr (Nat.le_add_right _ _)
  have hcolumn : byteSize (sinceFeed before) <
      byteSize (sinceFeed before ++ c :: (untilFeed after ++ feed)) := by
    have hpos := c.utf8Size_pos
    rw [byteSize_append, byteSize_cons]
    omega
  refine ⟨feed, hfeed, ?_⟩
  rw [lineAt?, if_neg hle, hlines, hsize, placeIn_append (.inl hcolumn), hnumber, Nat.add_comm 1]

end Text

/-! ## Reports -/

namespace Diagnostic

open Text

theorem length_dashes (number width : Nat) :
    (dashes number width).length = (gutter number).length + width := by
  simp only [dashes, gutter, margin, List.length_append, List.length_cons, List.length_replicate,
    List.length_nil, String.length_toList]
  omega

/-- The report ends with the line on which the character is shown, in the place that it has on its line, and
a line on which the caret stands after so many characters. -/
def CaretAfter (d : Diagnostic) (file source : String) (before : List Char) (c : Char) (after : List Char)
    (column : Nat) : Prop :=
  ∃ earlier trail margin,
    lines (d.report file source).toList = earlier ++
      [gutter (before.count '\n' + 1) ++ lead before ++ c :: trail ++ ['\n'], margin ++ ['^', '\n']] ∧
    trail <+: untilFeed after ∧ '^' ∉ margin ∧ margin.length = column

variable {before after : List Char} {c : Char}

/-- What is shown of the line, up to its end. -/
theorem bared_of_shown (h : Shown before c after) {feed : List Char}
    (hfeed : feed = [] ∨ feed = ['\n']) :
    ∃ trail, trail <+: untilFeed after ∧
      bared (sinceFeed before ++ c :: (untilFeed after ++ feed)) = lead before ++ c :: trail := by
  obtain ⟨trail, htrim, htrail⟩ := h.trimRight
  refine ⟨trail, htrail, ?_⟩
  have hfeed : trimRight (c :: (untilFeed after ++ feed)) = trimRight (c :: untilFeed after) := by
    rcases hfeed with rfl | rfl
    · rw [List.append_nil]
    · exact List.rdropWhile_concat_pos isBlank (c :: untilFeed after) '\n' rfl
  have hvisible : ∃ x ∈ c :: (untilFeed after ++ feed), isBlank x = false := by
    obtain ⟨x, hx, hblank⟩ := h.notTrailing
    rw [untilFeed_cons h.ne_feed] at hx
    exact ⟨x, List.mem_append_left feed hx, hblank⟩
  rw [bared, h.dropWhile_isIndent, trimRight_append hvisible, hfeed, htrim]

/-- The indentation has as many bytes as characters, so the bytes of the rest are left. -/
theorem byteSize_sub_indent (h : Shown before c after) (rest : List Char) :
    byteSize (sinceFeed before) - ((sinceFeed before ++ c :: rest).takeWhile isIndent).length =
      byteSize (lead before) := by
  have hparts : byteSize (sinceFeed before) =
      byteSize ((sinceFeed before).takeWhile isIndent) + byteSize (lead before) := by
    rw [← byteSize_append, lead, List.takeWhile_append_dropWhile]
  rw [h.takeWhile_isIndent, hparts, byteSize_takeWhile_isIndent, Nat.add_sub_cancel_left]

section

variable {d : Diagnostic} {file source : String}

/-- The caret stands after as many characters as there are bytes in what is shown before the character. -/
theorem caretAfter_byteSize (d : Diagnostic) (file : String)
    (hsource : source.toList = before ++ c :: after)
    (hposition : d.position.offset.toNat = byteSize before) (h : Shown before c after) :
    d.CaretAfter file source before c after
      ((gutter (before.count '\n' + 1)).length + byteSize (lead before)) := by
  obtain ⟨feed, hfeed, hplace⟩ := lineAt?_of_toList hsource h.ne_feed
  obtain ⟨trail, htrail, hshown⟩ := bared_of_shown h hfeed
  rw [← hposition] at hplace
  have hlines := d.lines_report file hplace
  rw [hshown, byteSize_sub_indent h, ← List.append_assoc (gutter _), List.append_cons] at hlines
  exact ⟨_, trail, _, hlines, htrail, by simp [dashes, margin], length_dashes _ _⟩

/-- There is only one caret on the last line. -/
theorem CaretAfter.unique {column column' : Nat} (h : d.CaretAfter file source before c after column)
    (h' : d.CaretAfter file source before c after column') : column = column' := by
  obtain ⟨earlier, trail, margin, hlines, -, -, rfl⟩ := h
  obtain ⟨earlier', trail', margin', hlines', -, -, rfl⟩ := h'
  have hlast := congrArg List.getLast? (hlines.symm.trans hlines')
  simp only [List.getLast?_append, List.getLast?_cons_cons, List.getLast?_singleton, Option.some_or,
    Option.some.injEq, List.append_cancel_right_eq] at hlast
  rw [hlast]

end

/-- The caret stands after as many characters as there are bytes in what is shown before the character at the
position. So it stands below this character exactly if all that is shown before it on the line is ASCII. -/
theorem caret_below_iff (d : Diagnostic) (file : String) {source : String} {before after : List Char}
    {c : Char} (hsource : source.toList = before ++ c :: after)
    (hposition : d.position.offset.toNat = byteSize before) (h : Shown before c after) :
    d.CaretAfter file source before c after
        ((gutter (before.count '\n' + 1)).length + byteSize (lead before)) ∧
      (d.CaretAfter file source before c after (gutter (before.count '\n' + 1) ++ lead before).length ↔
        ∀ x ∈ lead before, x.utf8Size = 1) := by
  have hcaret := caretAfter_byteSize d file hsource hposition h
  refine ⟨hcaret, ?_⟩
  rw [List.length_append, ← byteSize_eq_length_iff]
  constructor
  · intro hbelow
    have := hcaret.unique hbelow
    omega
  · intro hascii
    rwa [← hascii]

/-- The variable `b` is not declared. -/
def undeclared : String :=
  "a: int;\n\x7b\n    a = b;\n\x7d\n"

/-- The caret stands below the variable. -/
theorem undeclared_caret_below :
    let d : Diagnostic := ⟨.unknownVariable "b", ⟨18, "prog.ou"⟩⟩
    let before := "a: int;\n\x7b\n    a = ".toList
    let after := ";\n\x7d\n".toList
    compileSource undeclared "prog.ou" = .error d ∧ undeclared.toList = before ++ 'b' :: after ∧
      d.position.offset.toNat = byteSize before ∧ Shown before 'b' after ∧
      d.CaretAfter "prog.ou" undeclared before 'b' after (gutter 3 ++ lead before).length := by
  intro d before after
  have hsource : undeclared.toList = before ++ 'b' :: after := by decide +kernel
  have hposition : d.position.offset.toNat = byteSize before := by decide +kernel
  have hshown : Shown before 'b' after :=
    ⟨⟨'b', List.mem_append_right _ List.mem_cons_self, rfl⟩, ⟨'b', List.mem_cons_self, rfl⟩⟩
  refine ⟨by decide +kernel, hsource, hposition, hshown, ?_⟩
  exact (caret_below_iff d "prog.ou" hsource hposition hshown).2.mpr
    (byteSize_eq_length_iff.mp (by decide +kernel))

/-- The variable `x` is not declared, and before it is a comment with a character of two bytes. -/
def accented : String :=
  "\x7b\n  /*é*/ x = 1;\n\x7d"

/-- The caret stands one column to the right of the variable. -/
theorem accented_caret_off :
    let d : Diagnostic := ⟨.unknownVariable "x", ⟨11, "prog.ou"⟩⟩
    let before := "\x7b\n  /*é*/ ".toList
    let after := " = 1;\n\x7d".toList
    compileSource accented "prog.ou" = .error d ∧ accented.toList = before ++ 'x' :: after ∧
      d.position.offset.toNat = byteSize before ∧ Shown before 'x' after ∧
      d.CaretAfter "prog.ou" accented before 'x' after ((gutter 2 ++ lead before).length + 1) ∧
      ¬ d.CaretAfter "prog.ou" accented before 'x' after (gutter 2 ++ lead before).length := by
  intro d before after
  have hsource : accented.toList = before ++ 'x' :: after := by decide +kernel
  have hposition : d.position.offset.toNat = byteSize before := by decide +kernel
  have hshown : Shown before 'x' after :=
    ⟨⟨'x', List.mem_append_right _ List.mem_cons_self, rfl⟩, ⟨'x', List.mem_cons_self, rfl⟩⟩
  have hcolumn : (gutter (before.count '\n' + 1)).length + byteSize (lead before) =
      (gutter 2 ++ lead before).length + 1 := by decide +kernel
  have hcaret := caretAfter_byteSize d "prog.ou" hsource hposition hshown
  rw [hcolumn] at hcaret
  exact ⟨by decide +kernel, hsource, hposition, hshown, hcaret,
    fun hbelow => absurd (hcaret.unique hbelow) (Nat.succ_ne_self _)⟩

end Diagnostic

end Cpl
