import Cpl.Text.Line

/-!
# Lines and offsets

A text falls into lines in one way only (`Text.Lined`, `Text.lined_iff`), and each of its offsets is on one of
them. Offsets count bytes, which are those of the UTF-8 form (`Text.bytes`): the byte of a line feed is part
of no other character (`Text.feed_notMem_bytes`), so that lines can be counted in the bytes before an offset,
also before one inside a character.

The main statement is `Text.offset_located`.
-/

namespace Cpl

theorem isDigit_of_mem_toString {n : Nat} {c : Char} (h : c ∈ (toString n).toList) :
    c.isDigit = true := by
  rw [Nat.toString_eq_repr, Nat.toList_repr] at h
  exact Nat.isDigit_of_mem_toDigits (by decide) (by decide) h

namespace Text

/-! ## Bytes -/

/-- The UTF-8 form. -/
def bytes (cs : List Char) : List UInt8 :=
  cs.flatMap String.utf8EncodeChar

theorem bytes_append (cs cs' : List Char) : bytes (cs ++ cs') = bytes cs ++ bytes cs' :=
  List.flatMap_append

theorem length_bytes (cs : List Char) : (bytes cs).length = byteSize cs := by
  induction cs with
  | nil => rfl
  | cons c cs ih =>
    rw [byteSize_cons, ← ih, ← String.length_utf8EncodeChar c, ← List.length_append]
    rfl

/-- The bytes of a string are those of its characters. -/
theorem data_toByteArray (source : String) : source.toByteArray.data.toList = bytes source.toList := by
  rw [← String.utf8Encode_toList]
  exact List.toList_data_toByteArray

theorem utf8ByteSize_eq (source : String) : source.utf8ByteSize = byteSize source.toList := by
  rw [← length_bytes, ← data_toByteArray]
  rfl

theorem feed_notMem_utf8EncodeChar {c : Char} (h : c ≠ '\n') : 10 ∉ String.utf8EncodeChar c := by
  have hval : c.val.toNat ≠ 10 := fun heq => h (Char.ext (UInt32.toNat_inj.mp heq))
  have hbyte {n : Nat} (hn : n < 256) (hne : n ≠ 10) : (10 : UInt8) ≠ UInt8.ofNat n := by
    intro heq
    have := congrArg UInt8.toNat heq
    rw [UInt8.toNat_ofNat_of_lt' hn] at this
    exact hne this.symm
  unfold String.utf8EncodeChar
  dsimp only
  -- all bytes of a longer form are at least 128
  repeat' split
  · simpa using hbyte (by omega) hval
  all_goals
    simp only [List.mem_cons, List.not_mem_nil, or_false, not_or]
    repeat' constructor
  all_goals exact hbyte (by omega) (by omega)

/-- The byte of a line feed is in no other character. -/
theorem feed_notMem_bytes {cs : List Char} (h : '\n' ∉ cs) : 10 ∉ bytes cs := by
  intro hmem
  obtain ⟨c, hc, hbyte⟩ := List.mem_flatMap.mp hmem
  exact feed_notMem_utf8EncodeChar (fun heq => h (heq ▸ hc)) hbyte

theorem count_bytes (cs : List Char) : (bytes cs).count 10 = cs.count '\n' := by
  induction cs with
  | nil => rfl
  | cons c cs ih =>
    rw [show bytes (c :: cs) = String.utf8EncodeChar c ++ bytes cs from rfl, List.count_append, ih]
    by_cases hc : c = '\n'
    · subst hc
      rw [List.count_cons_self, Nat.add_comm]
      rfl
    · rw [List.count_cons_of_ne hc, List.count_eq_zero.mpr (feed_notMem_utf8EncodeChar hc), Nat.zero_add]

/-! ## Lines -/

/-- A number is written without line feeds. -/
theorem feed_notMem_toString (n : Nat) : '\n' ∉ (toString n).toList := by
  intro h
  cases isDigit_of_mem_toString h

theorem lines_ne_nil {cs : List Char} (h : cs ≠ []) : lines cs ≠ [] :=
  fun hnil => h (by rw [← lines_flatten cs, hnil, List.flatten_nil])

/-- The lines of a text up to a line feed are not changed by what comes after. -/
theorem lines_append {cs : List Char} (h : cs = [] ∨ ∃ body, cs = body ++ ['\n'])
    (rest : List Char) : lines (cs ++ rest) = lines cs ++ lines rest := by
  rcases h with rfl | ⟨body, rfl⟩
  · rfl
  · rw [List.append_assoc, List.singleton_append]
    induction body with
    | nil => rfl
    | cons c body ih =>
      simp only [List.cons_append, lines, ih]
      split
      · rfl
      · cases hls : lines (body ++ ['\n']) with
        | nil => exact absurd hls (lines_ne_nil (List.append_ne_nil_of_right_ne_nil body (List.cons_ne_nil _ _)))
        | cons line ls => rfl

/-- Up to its first line feed a text is one line. -/
theorem lines_append_feed {line : List Char} (h : '\n' ∉ line) (rest : List Char) :
    lines (line ++ '\n' :: rest) = (line ++ ['\n']) :: lines rest := by
  induction line with
  | nil => rfl
  | cons c line ih =>
    rw [List.mem_cons, not_or] at h
    rw [List.cons_append, lines, if_neg (Ne.symm h.1), ih h.2]
    rfl

/-- A text without line feeds is one line. -/
theorem lines_of_feed_notMem {line : List Char} (hne : line ≠ []) (h : '\n' ∉ line) :
    lines line = [line] := by
  induction line with
  | nil => exact absurd rfl hne
  | cons c line ih =>
    rw [List.mem_cons, not_or] at h
    rw [lines, if_neg (Ne.symm h.1)]
    cases line with
    | nil => rfl
    | cons d line => rw [ih (List.cons_ne_nil d line) h.2]

/-- The text consists of the lines. Each ends with the first line feed after its start, the last one
possibly with the text. -/
inductive Lined : List Char → List (List Char) → Prop
  | nil : Lined [] []
  | last {line : List Char} : line ≠ [] → '\n' ∉ line → Lined line [line]
  | feed {line rest : List Char} {ls : List (List Char)} : '\n' ∉ line → Lined rest ls →
      Lined (line ++ '\n' :: rest) ((line ++ ['\n']) :: ls)

theorem Lined.cons {c : Char} {cs line : List Char} {ls : List (List Char)} (hc : c ≠ '\n')
    (h : Lined cs (line :: ls)) : Lined (c :: cs) ((c :: line) :: ls) := by
  cases h with
  | last hne hline => exact .last (List.cons_ne_nil _ _) (List.not_mem_cons_of_ne_of_not_mem hc.symm hline)
  | feed hline hrest => exact .feed (List.not_mem_cons_of_ne_of_not_mem hc.symm hline) hrest

theorem lined_lines (cs : List Char) : Lined cs (lines cs) := by
  induction cs with
  | nil => exact .nil
  | cons c cs ih =>
    by_cases hc : c = '\n'
    · subst hc
      exact .feed List.not_mem_nil ih
    · rw [lines, if_neg hc]
      cases hls : lines cs with
      | nil =>
        rw [hls] at ih
        cases ih
        exact .last (List.cons_ne_nil c []) (List.not_mem_cons_of_ne_of_not_mem (Ne.symm hc) List.not_mem_nil)
      | cons line ls =>
        rw [hls] at ih
        exact ih.cons hc

/-- A text falls into lines in one way only. -/
theorem lined_iff {cs : List Char} {ls : List (List Char)} : Lined cs ls ↔ ls = lines cs := by
  constructor
  · intro h
    induction h with
    | nil => rfl
    | last hne hline => rw [lines_of_feed_notMem hne hline]
    | feed hline hrest ih => rw [lines_append_feed hline, ih]
  · rintro rfl
    exact lined_lines cs

/-- Ends with its only line feed. -/
def Ended (line : List Char) : Prop :=
  ∃ body, line = body ++ ['\n'] ∧ '\n' ∉ body

/-- Only the last line may be without a line feed. -/
theorem Lined.ended {cs line : List Char} {before after : List (List Char)}
    (h : Lined cs (before ++ line :: after)) :
    (∀ l ∈ before, Ended l) ∧ (Ended line ∨ '\n' ∉ line ∧ after = []) := by
  induction before generalizing cs with
  | nil =>
    refine ⟨fun l hl => absurd hl List.not_mem_nil, ?_⟩
    cases h with
    | last hne hline => exact .inr ⟨hline, rfl⟩
    | feed hline hrest => exact .inl ⟨_, rfl, hline⟩
  | cons first before ih =>
    generalize hls : before ++ line :: after = ls at h
    rw [List.cons_append, hls] at h
    cases h with
    | last hne hfirst => simp at hls
    | feed hfirst hrest =>
      subst hls
      obtain ⟨hbefore, hline⟩ := ih hrest
      exact ⟨List.forall_mem_cons.mpr ⟨⟨_, rfl, hfirst⟩, hbefore⟩, hline⟩

/-- As many line feeds as lines. -/
theorem count_feed_flatten {before : List (List Char)} (h : ∀ l ∈ before, Ended l) :
    before.flatten.count '\n' = before.length := by
  induction before with
  | nil => rfl
  | cons line before ih =>
    rw [List.forall_mem_cons] at h
    obtain ⟨⟨body, rfl, hbody⟩, hbefore⟩ := h
    rw [List.flatten_cons, List.count_append, List.count_append, List.count_eq_zero.mpr hbody,
      List.count_singleton_self, ih hbefore, List.length_cons, Nat.zero_add, Nat.add_comm]

/-- There is no line feed before the last byte of a line. -/
theorem feed_notMem_take {line : List Char} {column : Nat} (h : Ended line ∨ '\n' ∉ line)
    (hcolumn : column < byteSize line) : 10 ∉ (bytes line).take column := by
  rcases h with ⟨body, rfl, hbody⟩ | hline
  · have hle : column ≤ (bytes body).length := by
      rw [byteSize_append] at hcolumn
      rw [length_bytes]
      exact Nat.le_of_lt_succ hcolumn
    rw [bytes_append, List.take_append_of_le_length hle]
    exact fun hmem => feed_notMem_bytes hbody (List.mem_of_mem_take hmem)
  · exact fun hmem => feed_notMem_bytes hline (List.mem_of_mem_take hmem)

/-! ## Places -/

/-- An offset inside the lines or at their end is inside one of them, or at the end of the last. -/
theorem exists_line {ls : List (List Char)} (hne : ls ≠ []) {offset : Nat}
    (h : offset ≤ byteSize ls.flatten) :
    ∃ before line after column, ls = before ++ line :: after ∧
      offset = byteSize before.flatten + column ∧
      (column < byteSize line ∨ column = byteSize line ∧ after = []) := by
  induction ls generalizing offset with
  | nil => exact absurd rfl hne
  | cons line ls ih =>
    rw [List.flatten_cons, byteSize_append] at h
    by_cases hlt : offset < byteSize line
    · exact ⟨[], line, ls, offset, rfl, (Nat.zero_add offset).symm, .inl hlt⟩
    · cases ls with
      | nil =>
        exact ⟨[], line, [], offset, rfl, (Nat.zero_add offset).symm,
          .inr ⟨Nat.le_antisymm h (Nat.le_of_not_lt hlt), rfl⟩⟩
      | cons next rest =>
        obtain ⟨before, l, after, column, hls, hoffset, hend⟩ :=
          ih (List.cons_ne_nil next rest) (Nat.sub_le_iff_le_add'.mpr h)
        refine ⟨line :: before, l, after, column, by rw [hls, List.cons_append], ?_, hend⟩
        rw [List.flatten_cons, byteSize_append]
        omega

theorem placeIn_append {before : List (List Char)} {line : List Char} {after : List (List Char)}
    {column : Nat} (hend : column < byteSize line ∨ after = []) (number : Nat) :
    placeIn number (before ++ line :: after) (byteSize before.flatten + column) =
      ⟨number + before.length, line, column⟩ := by
  induction before generalizing number with
  | nil =>
    rw [List.flatten_nil, byteSize_nil, Nat.zero_add]
    cases after with
    | nil => rfl
    | cons next after => exact if_pos (hend.resolve_right (List.cons_ne_nil next after))
  | cons first before ih =>
    have hrest : before ++ line :: after ≠ [] := List.append_ne_nil_of_right_ne_nil _ (List.cons_ne_nil _ _)
    obtain ⟨next, rest, hnext⟩ := List.exists_cons_of_ne_nil hrest
    rw [List.cons_append, List.flatten_cons, byteSize_append, hnext, placeIn,
      if_neg (Nat.not_lt.mpr (Nat.le_trans (Nat.le_add_right _ _) (Nat.le_add_right _ _))), ← hnext,
      Nat.add_assoc, Nat.add_sub_cancel_left, ih, List.length_cons, Nat.add_assoc, Nat.add_comm 1]

/-- The line feeds before an offset inside a line are those of the lines before it. -/
theorem count_feed_take {cs line : List Char} {before after : List (List Char)} {column : Nat}
    (h : Lined cs (before ++ line :: after)) (hcolumn : column < byteSize line) :
    ((bytes cs).take (byteSize before.flatten + column)).count 10 = before.length := by
  obtain ⟨hbefore, hline⟩ := h.ended
  have hcs : cs = before.flatten ++ (line ++ after.flatten) := by
    rw [← lines_flatten cs, ← lined_iff.mp h, List.flatten_append, List.flatten_cons]
  have hle : column ≤ (bytes line).length := length_bytes line ▸ Nat.le_of_lt hcolumn
  rw [hcs, bytes_append, bytes_append, ← length_bytes before.flatten, List.take_length_add_append,
    List.take_append_of_le_length hle, List.count_append, count_bytes, count_feed_flatten hbefore,
    List.count_eq_zero.mpr (feed_notMem_take (hline.imp_right And.left) hcolumn), Nat.add_zero]

/-- What the place of an offset says of it. -/
structure Place.Locates (place : Place) (source : String) (offset : Nat) : Prop where
  /-- The line has that number. The empty text has no lines, and counts as one. -/
  line : source = "" ∧ place.number = 1 ∧ place.line = [] ∨
    1 ≤ place.number ∧ (lines source.toList)[place.number - 1]? = some place.line
  /-- The lines before and the column make up the offset. -/
  column : byteSize ((lines source.toList).take (place.number - 1)).flatten + place.column = offset
  inside : offset < source.utf8ByteSize →
    place.number = (source.toByteArray.data.toList.take offset).count 10 + 1 ∧
      place.column < byteSize place.line
  atEnd : offset = source.utf8ByteSize →
    (lines source.toList).drop place.number = [] ∧ place.column = byteSize place.line

theorem locates_empty : Place.Locates ⟨1, [], 0⟩ "" 0 :=
  ⟨.inl ⟨rfl, rfl, rfl⟩, rfl, fun h => absurd h (Nat.lt_irrefl 0), fun _ => ⟨rfl, rfl⟩⟩

theorem locates_of_lined {source : String} {line : List Char} {before after : List (List Char)}
    {column : Nat} (h : Lined source.toList (before ++ line :: after))
    (hend : column < byteSize line ∨ column = byteSize line ∧ after = []) :
    Place.Locates ⟨1 + before.length, line, column⟩ source (byteSize before.flatten + column) := by
  have hlines := lined_iff.mp h
  have hsize : source.utf8ByteSize =
      byteSize before.flatten + (byteSize line + byteSize after.flatten) := by
    rw [utf8ByteSize_eq, ← lines_flatten source.toList, ← hlines, List.flatten_append,
      List.flatten_cons, byteSize_append, byteSize_append]
  have hnumber : 1 + before.length - 1 = before.length := Nat.add_sub_cancel_left 1 before.length
  refine ⟨.inr ⟨Nat.le_add_right 1 _, ?_⟩, ?_, fun hlt => ?_, fun heq => ?_⟩
  · simp only [hnumber, ← hlines, List.getElem?_append_right (Nat.le_refl _), Nat.sub_self,
      List.getElem?_cons_zero]
  · simp only [hnumber, ← hlines, List.take_left']
  · -- at the end of the last line the offset would be that of the end
    have hcolumn : column < byteSize line := by
      rcases hend with hcolumn | ⟨rfl, rfl⟩
      · exact hcolumn
      · rw [hsize, List.flatten_nil, byteSize_nil] at hlt
        exact absurd hlt (Nat.lt_irrefl _)
    rw [data_toByteArray, count_feed_take h hcolumn]
    exact ⟨Nat.add_comm 1 _, hcolumn⟩
  · rcases hend with hcolumn | ⟨rfl, rfl⟩
    · omega
    · refine ⟨List.drop_eq_nil_of_le (Nat.le_of_eq ?_), rfl⟩
      rw [← hlines, List.length_append, List.length_singleton, Nat.add_comm]

theorem lineAt?_eq_none_iff {source : String} {offset : Nat} :
    lineAt? source offset = none ↔ byteSize source.toList < offset := by
  rw [lineAt?]
  split <;> simp [*]

/-- Every other offset has a place, on a line with one line feed at most, at its end. -/
theorem exists_locates {source : String} {offset : Nat} (h : offset ≤ byteSize source.toList) :
    ∃ place, lineAt? source offset = some place ∧ place.Locates source offset ∧
      (Ended place.line ∨ '\n' ∉ place.line) := by
  have hplace : lineAt? source offset = some (placeIn 1 (lines source.toList) offset) :=
    if_neg (Nat.not_lt.mpr h)
  by_cases hne : lines source.toList = []
  · have hnil : source.toList = [] := Classical.byContradiction fun h => lines_ne_nil h hne
    obtain rfl : source = "" := String.toList_eq_nil_iff.mp hnil
    obtain rfl : offset = 0 := Nat.le_zero.mp h
    exact ⟨_, hplace, locates_empty, .inr List.not_mem_nil⟩
  · rw [← lines_flatten source.toList] at h
    obtain ⟨before, line, after, column, hls, rfl, hend⟩ := exists_line hne h
    have hlined := lined_iff.mpr hls.symm
    rw [hls, placeIn_append (hend.imp_right And.right)] at hplace
    exact ⟨_, hplace, locates_of_lined hlined hend, hlined.ended.2.imp_right And.left⟩

/-- A text falls into lines in one way. An offset has no place exactly if it is beyond the end of the text, and
every other one is located: on the line with the number given, as many bytes from its start as the column
says. -/
theorem offset_located (source : String) (offset : Nat) :
    (∀ ls, Lined source.toList ls ↔ ls = lines source.toList) ∧
    (lineAt? source offset = none ↔ source.utf8ByteSize < offset) ∧
    (offset ≤ source.utf8ByteSize →
      ∃ place, lineAt? source offset = some place ∧ place.Locates source offset) := by
  rw [utf8ByteSize_eq]
  refine ⟨fun ls => lined_iff, lineAt?_eq_none_iff, fun hle => ?_⟩
  obtain ⟨place, hplace, hlocates, -⟩ := exists_locates hle
  exact ⟨place, hplace, hlocates⟩

/-- Inside the two bytes of a character, on the second line. -/
theorem accented_offset_located :
    lineAt? "a\nbé\n" 4 = some ⟨2, ['b', 'é', '\n'], 2⟩ ∧
      ∃ place, lineAt? "a\nbé\n" 4 = some place ∧ place.Locates "a\nbé\n" 4 :=
  ⟨by decide, (offset_located "a\nbé\n" 4).2.2 (by decide)⟩

end Text

end Cpl
