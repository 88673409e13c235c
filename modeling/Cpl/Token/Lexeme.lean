import Cpl.Token
import Cpl.Text.Blank

/-!
# Lexemes

A lexeme is the piece that is cut off the front of a program text: the text of a token, or a gap
between tokens (blanks or a comment). The rules are tried in a fixed order and the first that
applies decides: a cast, a word, a number, blanks, a comment, an operator or punctuation mark.

Main statements:

* `Lexeme.append_of_next?`: the piece and the rest make up the text;
* `Lexeme.text_ne_nil_of_next?`: the piece is never empty;
* `Lexeme.length_rest_lt`: the rest is shorter than the text.
-/

namespace Cpl

/-- A piece cut off the front of a text. -/
structure Lexeme where
  /-- The kind of the token, or `none` for a gap. -/
  kind : Option Kind
  text : List Char
  rest : List Char
deriving DecidableEq, Repr

namespace Lexeme

/-! ## The rules -/

/-- The text after a spelling that it starts with. -/
def after? : List Char → List Char → Option (List Char)
  | [], cs => some cs
  | _ :: _, [] => none
  | s :: spelling, c :: cs => if s = c then after? spelling cs else none

/-- The first of the given spellings that the text starts with. -/
def spelled? (spellings : List (List Char × Kind)) (cs : List Char) : Option Lexeme :=
  spellings.findSome? fun (spelling, kind) =>
    (after? spelling cs).map fun rest => ⟨some kind, spelling, rest⟩

/-- The spellings of a cast. -/
def casts : List (List Char × Kind) :=
  [("static_cast<int>".toList, .cast), ("static_cast<float>".toList, .cast)]

/-- A letter and the letters and digits after it, all of them ASCII: a reserved word or an
identifier. -/
def word? : List Char → Option Lexeme
  | [] => none
  | c :: cs =>
    if c.isAlpha then
      let text := c :: cs.takeWhile Char.isAlphanum
      let kind := (Kind.ofReserved? (String.ofList text)).getD .identifier
      some ⟨some kind, text, cs.dropWhile Char.isAlphanum⟩
    else none

/-- ASCII digits, with a point and further digits if a point follows. -/
def number? (cs : List Char) : Option Lexeme :=
  match cs.takeWhile Char.isDigit, cs.dropWhile Char.isDigit with
  | [], _ => none
  | digits, '.' :: rest =>
    some ⟨some .number, digits ++ '.' :: rest.takeWhile Char.isDigit, rest.dropWhile Char.isDigit⟩
  | digits, rest => some ⟨some .number, digits, rest⟩

def blanks? (cs : List Char) : Option Lexeme :=
  match cs.takeWhile Text.isBlank with
  | [] => none
  | blanks => some ⟨none, blanks, cs.dropWhile Text.isBlank⟩

/-- Cuts after the first end of a comment. -/
def closeComment? : List Char → Option (List Char × List Char)
  | [] => none
  | '*' :: '/' :: cs => some (['*', '/'], cs)
  | c :: cs => (closeComment? cs).map fun (body, rest) => (c :: body, rest)

/-- A comment that is closed. -/
def comment? : List Char → Option Lexeme
  | '/' :: '*' :: cs =>
    (closeComment? cs).map fun (body, rest) => ⟨none, '/' :: '*' :: body, rest⟩
  | _ => none

/-- The rules, in the order in which they are tried. Each stands for a pattern that is matched at the start of
the text:

* `spelled? casts` for `static_cast<(int|float)>`;
* `word?` for `[a-zA-Z][a-zA-Z0-9]*`;
* `number?` for `[0-9]+(\.[0-9]*)?`;
* `blanks?` for `\s+`, where `Text.isBlank` is `\s`;
* `comment?` for `/\*(?s:.*?)\*/`;
* `spelled? Kind.spellings` for the operators and punctuation marks, one pattern for each.

That a pattern takes the same text as its rule rests on leftmost-first matching, which is assumed: repetitions
take all they can, but the lazy one in a comment as little as it can. -/
def rules : List (List Char → Option Lexeme) :=
  [spelled? casts, word?, number?, blanks?, comment?, spelled? Kind.spellings]

/-- The piece that a text starts with, by the first rule that applies. -/
def next? (cs : List Char) : Option Lexeme :=
  rules.findSome? fun rule => rule cs

/-! ## What is cut off -/

/-- The lexeme is a piece of the text, and not an empty one. -/
def Cuts (l : Lexeme) (cs : List Char) : Prop :=
  l.text ≠ [] ∧ l.text ++ l.rest = cs

theorem after?_eq_some_iff {spelling cs rest : List Char} :
    after? spelling cs = some rest ↔ cs = spelling ++ rest := by
  fun_induction after? spelling cs with
  | case1 cs => simp
  | case2 => simp
  | case3 s spelling cs ih => simp [ih]
  | case4 s spelling c cs hne => simp [Ne.symm hne]

theorem cuts_of_spelled? {spellings : List (List Char × Kind)} {cs : List Char} {l : Lexeme}
    (hne : ∀ p ∈ spellings, p.1 ≠ []) (h : spelled? spellings cs = some l) : l.Cuts cs := by
  obtain ⟨⟨spelling, kind⟩, hmem, h⟩ := List.exists_of_findSome?_eq_some h
  obtain ⟨rest, hrest, rfl⟩ := Option.map_eq_some_iff.1 h
  exact ⟨hne _ hmem, (after?_eq_some_iff.1 hrest).symm⟩

theorem cuts_of_word? {cs : List Char} {l : Lexeme} (h : word? cs = some l) : l.Cuts cs := by
  cases cs with
  | nil => simp [word?] at h
  | cons c cs =>
    simp only [word?] at h
    split at h
    · cases h
      exact ⟨by simp, by simp [List.takeWhile_append_dropWhile]⟩
    · cases h

theorem cuts_of_number? {cs : List Char} {l : Lexeme} (h : number? cs = some l) : l.Cuts cs := by
  have hcs : cs.takeWhile Char.isDigit ++ cs.dropWhile Char.isDigit = cs :=
    List.takeWhile_append_dropWhile
  simp only [number?] at h
  split at h
  · cases h
  · rename_i hrest _
    cases h
    refine ⟨by simp, ?_⟩
    rw [hrest] at hcs
    simpa [List.takeWhile_append_dropWhile] using hcs
  · rename_i hne _
    cases h
    exact ⟨fun hnil => hne hnil, hcs⟩

theorem cuts_of_blanks? {cs : List Char} {l : Lexeme} (h : blanks? cs = some l) : l.Cuts cs := by
  simp only [blanks?] at h
  split at h
  · cases h
  · rename_i hne
    cases h
    exact ⟨fun hnil => hne hnil, List.takeWhile_append_dropWhile⟩

theorem append_of_closeComment? {cs body rest : List Char}
    (h : closeComment? cs = some (body, rest)) : body ++ rest = cs := by
  fun_induction closeComment? cs generalizing body rest with
  | case1 => simp at h
  | case2 cs => cases h; rfl
  | case3 c cs _ ih =>
    obtain ⟨⟨body', rest'⟩, h', heq⟩ := Option.map_eq_some_iff.1 h
    cases heq
    simp [ih h']

theorem cuts_of_comment? {cs : List Char} {l : Lexeme} (h : comment? cs = some l) : l.Cuts cs := by
  unfold comment? at h
  split at h
  · obtain ⟨⟨body, rest⟩, h', rfl⟩ := Option.map_eq_some_iff.1 h
    exact ⟨by simp, by simp [append_of_closeComment? h']⟩
  · cases h

theorem cuts_of_next? {cs : List Char} {l : Lexeme} (h : next? cs = some l) : l.Cuts cs := by
  obtain ⟨rule, hmem, h⟩ := List.exists_of_findSome?_eq_some h
  simp only [rules, List.mem_cons, List.not_mem_nil, or_false] at hmem
  rcases hmem with rfl | rfl | rfl | rfl | rfl | rfl
  · exact cuts_of_spelled? (by decide) h
  · exact cuts_of_word? h
  · exact cuts_of_number? h
  · exact cuts_of_blanks? h
  · exact cuts_of_comment? h
  · exact cuts_of_spelled? (by decide) h

theorem text_ne_nil_of_next? {cs : List Char} {l : Lexeme} (h : next? cs = some l) :
    l.text ≠ [] :=
  (cuts_of_next? h).1

theorem append_of_next? {cs : List Char} {l : Lexeme} (h : next? cs = some l) :
    l.text ++ l.rest = cs :=
  (cuts_of_next? h).2

theorem length_rest_lt {cs : List Char} {l : Lexeme} (h : next? cs = some l) :
    l.rest.length < cs.length := by
  rw [← append_of_next? h, List.length_append]
  have := List.length_pos_iff.2 (text_ne_nil_of_next? h)
  omega

end Lexeme

end Cpl
