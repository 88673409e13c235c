import Cpl.Proofs.Cutting
import Cpl.Proofs.Grammar.Written
import Cpl.Token.Scan

/-!
# Words in any layout

A text in which words stand with gaps between them is scanned into these words, whatever the gaps.

* `Word.Lexical`: the words that can stand in a text;
* `Gap`: blanks and comments, in any order; a comment is over at its first end mark;
* `Layout ws text`: the text is made of the words, each with a gap after it that only the last may lack;
* `Lexeme.whole_of_lexical`: a word is whole if a gap or nothing comes after it, and every whole piece that is no
  gap is a word (`Lexeme.Whole.lexical`);
* `tokenize_layout`: the tokens of such a text are its words and the end.
-/

namespace Cpl

/-! ## Texts -/

/-- A word that can stand in a text: an identifier, a number, a cast, or a reserved word, operator or
punctuation mark. -/
inductive Word.Lexical : Word → Prop
  | identifier {c : Char} {cs : List Char} : c.isAlpha = true → (∀ d ∈ cs, d.isAlphanum = true) →
      Kind.ofReserved? (String.ofList (c :: cs)) = none →
      Lexical ⟨.identifier, String.ofList (c :: cs)⟩
  | integer {digits : List Char} : digits ≠ [] → (∀ d ∈ digits, d.isDigit = true) →
      Lexical ⟨.number, String.ofList digits⟩
  | decimal {digits fraction : List Char} : digits ≠ [] → (∀ d ∈ digits, d.isDigit = true) →
      (∀ d ∈ fraction, d.isDigit = true) →
      Lexical ⟨.number, String.ofList (digits ++ '.' :: fraction)⟩
  | cast (type : NumType) : Lexical type.castWord
  | fixed {kind : Kind} : kind.isOpen = false → kind ≠ .eof → Lexical kind.word

theorem Word.Lexical.ne_eof {w : Word} (h : w.Lexical) : w.kind ≠ .eof := by
  cases h with
  | identifier _ _ _ => exact Kind.noConfusion
  | integer _ _ => exact Kind.noConfusion
  | decimal _ _ _ => exact Kind.noConfusion
  | cast type => cases type <;> exact Kind.noConfusion
  | fixed _ hne => exact hne

/-- Blanks and comments. The body of a comment does not hold its end mark. -/
inductive Gap : List Char → Prop
  | nil : Gap []
  | blank {c : Char} {rest : List Char} : Text.isBlank c = true → Gap rest → Gap (c :: rest)
  | comment {body rest : List Char} : ¬ ['*', '/'] <:+: body → Gap rest →
      Gap ('/' :: '*' :: (body ++ ['*', '/'] ++ rest))

/-- The text is made of the words, each with a gap after it, which is not empty if another word
follows. -/
inductive Layout : List Word → List Char → Prop
  | nil : Layout [] []
  | cons {w : Word} {gap : List Char} {ws : List Word} {text : List Char} : w.Lexical → Gap gap →
      (ws ≠ [] → gap ≠ []) → Layout ws text → Layout (w :: ws) (w.value.toList ++ (gap ++ text))

/-! ## Boundaries -/

/-- A gap may start with the character. -/
def opensGap (c : Char) : Bool :=
  Text.isBlank c || c == '/'

/-- The text is empty or starts as a gap does. -/
def Apart (rest : List Char) : Prop :=
  ∀ c, rest.head? = some c → opensGap c = true

theorem Gap.apart {gap : List Char} (h : Gap gap) : Apart gap := by
  intro c hc
  cases h with
  | nil => cases hc
  | blank hb _ =>
    cases hc
    rw [opensGap, hb, Bool.true_or]
  | comment _ _ =>
    cases hc
    rfl

section

variable {rest : List Char}

theorem Apart.isAlphanum (h : Apart rest) {c : Char} (hc : rest.head? = some c) :
    c.isAlphanum = false := by
  rcases Bool.or_eq_true_iff.mp (h c hc) with hb | hs
  · exact Text.isAlphanum_of_isBlank hb
  · rw [beq_iff_eq.mp hs]
    rfl

theorem Apart.isDigit (h : Apart rest) {c : Char} (hc : rest.head? = some c) :
    c.isDigit = false := by
  have := h.isAlphanum hc
  rw [Char.isAlphanum, Bool.or_eq_false_iff] at this
  exact this.2

/-- A text that is set apart does not go on with any other character. -/
theorem Apart.ne_cons (h : Apart rest) {c : Char} (hc : opensGap c = false) (cs : List Char) :
    rest ≠ c :: cs := by
  rintro rfl
  have hopens := h c rfl
  rw [hc] at hopens
  cases hopens

/-- What the text starts with either ends within the first part, or goes on with a character with which a
gap may start. -/
theorem Apart.front_cases (h : Apart rest) {text front : List Char} (hfront : front <+: text ++ rest) :
    front <+: text ∨ ∃ c more, opensGap c = true ∧ front = text ++ c :: more := by
  obtain ⟨last, he⟩ := hfront
  rcases List.append_eq_append_iff.mp he with ⟨more, htext, -⟩ | ⟨more, hlong, hrest⟩
  · exact .inl ⟨more, htext.symm⟩
  · cases more with
    | nil =>
      rw [hlong, List.append_nil]
      exact .inl List.prefix_rfl
    | cons c more => exact .inr ⟨c, more, h c (by rw [hrest]; rfl), hlong⟩

end

/-! ## Single words -/

/-- A word that is reserved is spelled as its kind is. -/
theorem Kind.spelling_of_ofReserved? {s : String} {k : Kind} (h : Kind.ofReserved? s = some k) :
    k ≠ .eof ∧ s = k.spelling := by
  unfold Kind.ofReserved? at h
  split at h <;> cases h <;> exact ⟨Kind.noConfusion, rfl⟩

/-- A kind that a reserved word has, has no other word. -/
theorem Kind.isOpen_of_ofReserved? {name : String} {kind : Kind} (h : ofReserved? name = some kind) :
    kind.isOpen = false := by
  unfold ofReserved? at h
  split at h <;> cases h <;> rfl

namespace Lexeme

open Text

variable {rest : List Char}

/-- What starts with letters and digits is no cast, since it does not go on with an underscore. -/
theorem not_cast_of_letters {letters : List Char} (h : ∀ d ∈ letters, d.isAlphanum = true)
    (hrest : Apart rest) : ∀ p ∈ casts, ¬ p.1 <+: letters ++ rest := by
  have hcasts : ∀ p ∈ casts, ("static".toList ++ ['_']) <+: p.1 := by decide
  have hdrop := (takeWhile_append_outside h fun _ hc => hrest.isAlphanum hc).2
  intro p hp hfront
  obtain ⟨after, he⟩ := (hcasts p hp).trans hfront
  rw [← he, List.append_assoc, List.dropWhile_append_of_pos (List.all_eq_true.mp rfl)] at hdrop
  exact hrest.ne_cons rfl after hdrop.symm

/-- A letter with letters and digits after it is a word. -/
theorem whole_of_letters {c : Char} {cs : List Char} (hc : c.isAlpha = true)
    (hcs : ∀ d ∈ cs, d.isAlphanum = true) (hrest : Apart rest) :
    Whole ⟨some ((Kind.ofReserved? (String.ofList (c :: cs))).getD .identifier), c :: cs, rest⟩ := by
  have hall : ∀ d ∈ c :: cs, d.isAlphanum = true :=
    List.forall_mem_cons.mpr ⟨by rw [Char.isAlphanum, hc, Bool.true_or], hcs⟩
  exact .word hc hcs (fun _ h => hrest.isAlphanum h) (not_cast_of_letters hall hrest)

/-- What is set apart makes no mark longer: a gap does not start with a character that stands inside
one. -/
theorem whole_of_mark {mark : List Char} {kind : Kind} (h : (mark, kind) ∈ Kind.spellings)
    (hrest : Apart rest) : Whole ⟨some kind, mark, rest⟩ := by
  have htail : ∀ p ∈ Kind.spellings, p.1 ≠ [] ∧ p.1.tail.any opensGap = false := by decide
  have hslash : ∀ p ∈ Kind.spellings, p.1.head? = some '/' → p.1 = ['/'] := by decide
  obtain ⟨hne, -⟩ := htail _ h
  refine .mark h (fun p hp hfront => ?_) ?_
  · rcases hrest.front_cases hfront with hshort | ⟨c, more, hc, hlong⟩
    · exact hshort
    · have hno := List.any_eq_false.mp (htail p hp).2 c
        (by rw [hlong, List.tail_append_of_ne_nil hne]; simp)
      exact absurd hc hno
  · rintro comment ⟨body, -, rfl⟩ hfront
    have hhead : mark.head? = some '/' := by
      obtain ⟨c, cs, rfl⟩ := List.exists_cons_of_ne_nil hne
      obtain ⟨last, hlast⟩ := hfront
      exact congrArg List.head? hlast.symm
    obtain rfl : mark = ['/'] := hslash _ h hhead
    rcases hrest.front_cases hfront with hshort | ⟨c, more, hc, hlong⟩
    · have := hshort.length_le
      simp at this
    · cases hlong
      cases hc

/-- A kind with one spelling is that of a mark or of a reserved word. -/
theorem mark_or_reserved : ∀ k ∈ Kind.all, k.isOpen = false → k ≠ .eof →
    (k.spelling.toList, k) ∈ Kind.spellings ∨
      Kind.ofReserved? k.spelling = some k ∧ k.spelling.toList.head?.any Char.isAlpha = true ∧
        k.spelling.toList.tail.all Char.isAlphanum = true := by
  decide

theorem whole_of_fixed {kind : Kind} (ho : kind.isOpen = false) (hk : kind ≠ .eof)
    (hrest : Apart rest) : Whole ⟨some kind, kind.spelling.toList, rest⟩ := by
  rcases mark_or_reserved kind kind.mem_all ho hk with hmark | ⟨hreserved, hhead, htail⟩
  · exact whole_of_mark hmark hrest
  · cases hs : kind.spelling.toList with
    | nil =>
      rw [hs] at hhead
      cases hhead
    | cons c cs =>
      have hspelling : String.ofList (c :: cs) = kind.spelling := by rw [← hs, String.ofList_toList]
      rw [hs] at hhead
      rw [hs, List.tail_cons] at htail
      have hwhole := whole_of_letters hhead (List.all_eq_true.mp htail) hrest
      rwa [hspelling, hreserved, Option.getD_some] at hwhole

/-- A word is whole if what comes after it is set apart from it. -/
theorem whole_of_lexical {w : Word} (h : w.Lexical) (hrest : Apart rest) :
    Whole ⟨some w.kind, w.value.toList, rest⟩ := by
  cases h with
  | identifier hc hcs hr =>
    have hwhole := whole_of_letters hc hcs hrest
    rw [hr, Option.getD_none] at hwhole
    rw [String.toList_ofList]
    exact hwhole
  | integer hne hd =>
    rw [String.toList_ofList]
    refine .integer hne hd fun c hc => ?_
    show (c.isDigit || c == '.') = false
    rw [hrest.isDigit hc, Bool.false_or, beq_eq_false_iff_ne]
    rintro rfl
    exact absurd (hrest _ hc) (by decide)
  | decimal hne hd hf =>
    rw [String.toList_ofList]
    exact .decimal hne hd hf fun c hc => hrest.isDigit hc
  | cast type => cases type <;> exact .cast (by decide)
  | fixed ho hk => exact whole_of_fixed ho hk hrest

/-! ## Gaps -/

/-- Blanks are cut off together. -/
theorem next?_of_isBlank {c : Char} (hc : Text.isBlank c = true) (cs : List Char) :
    next? (c :: cs) = some ⟨none, c :: cs.takeWhile Text.isBlank, cs.dropWhile Text.isBlank⟩ := by
  have hwhole : Whole ⟨none, c :: cs.takeWhile Text.isBlank, cs.dropWhile Text.isBlank⟩ :=
    .blanks (List.cons_ne_nil _ _)
      (List.forall_mem_cons.mpr ⟨hc, fun d hd => List.mem_takeWhile_imp hd⟩)
      (startsOutside_dropWhile _ cs)
  have hnext := next?_of_whole hwhole
  rwa [List.cons_append, List.takeWhile_append_dropWhile] at hnext

theorem next?_of_comment {body : List Char} (h : ¬ ['*', '/'] <:+: body) (rest : List Char) :
    next? ('/' :: '*' :: (body ++ ['*', '/'] ++ rest)) =
      some ⟨none, '/' :: '*' :: (body ++ ['*', '/']), rest⟩ :=
  next?_of_whole (.comment ⟨body, h, rfl⟩)

/-- A whole piece that is no gap is a word of the language. -/
theorem Whole.lexical {kind : Kind} {text rest : List Char} (h : Whole ⟨some kind, text, rest⟩) :
    Word.Lexical ⟨kind, String.ofList text⟩ := by
  generalize hl : (⟨some kind, text, rest⟩ : Lexeme) = l at h
  cases h with
  | cast hmem =>
    cases hl
    rw [casts, List.mem_cons, List.mem_singleton] at hmem
    rcases hmem with heq | heq <;> cases heq
    · exact .cast .int
    · exact .cast .float
  | @word c cs _ hc hcs _ _ =>
    cases hl
    cases hr : Kind.ofReserved? (String.ofList (c :: cs)) with
    | none => exact .identifier hc hcs hr
    | some reserved =>
      obtain ⟨hne, hs⟩ := Kind.spelling_of_ofReserved? hr
      rw [Option.getD_some, hs]
      exact .fixed (Kind.isOpen_of_ofReserved? hr) hne
  | integer hne hd _ =>
    cases hl
    exact .integer hne hd
  | decimal hne hd hf _ =>
    cases hl
    exact .decimal hne hd hf
  | blanks _ _ _ => cases hl
  | comment _ => cases hl
  | mark hmem _ _ =>
    cases hl
    have hfixed : ∀ p ∈ Kind.spellings,
        p.2.isOpen = false ∧ p.2 ≠ .eof ∧ String.ofList p.1 = p.2.spelling := by decide
    obtain ⟨ho, hne, hs⟩ := hfixed _ hmem
    rw [hs]
    exact .fixed ho hne

end Lexeme

/-! ## Scans -/

namespace Scan

variable {cs : List Char} {ws : List Word}

theorem ofChars_of_none (file : String) (offset : Nat) (h : Lexeme.next? cs = none) :
    ofChars file offset cs = ⟨[], offset, cs.head?⟩ := by
  rw [ofChars]
  split
  · rfl
  · rename_i heq
    rw [h] at heq
    cases heq

theorem ofChars_of_some (file : String) (offset : Nat) {l : Lexeme} (h : Lexeme.next? cs = some l) :
    ofChars file offset cs =
      match l.kind with
      | none => ofChars file (offset + Text.byteSize l.text) l.rest
      | some kind => (ofChars file (offset + Text.byteSize l.text) l.rest).cons
          (token file offset kind l.text) := by
  rw [ofChars]
  split
  · rename_i heq
    rw [h] at heq
    cases heq
  · rename_i heq
    rw [h] at heq
    cases heq
    rfl

/-- Which words are read, and what stops the scan, depends neither on the file nor on the offset. -/
theorem words_ofChars (file file' : String) (offset offset' : Nat) (cs : List Char) :
    (ofChars file offset cs).tokens.map Token.word =
        (ofChars file' offset' cs).tokens.map Token.word ∧
      (ofChars file offset cs).obstacle = (ofChars file' offset' cs).obstacle := by
  fun_induction ofChars file offset cs generalizing offset' with
  | case1 offset cs h =>
    rw [ofChars_of_none file' offset' h]
    exact ⟨rfl, rfl⟩
  | case2 offset cs l hl _ rest hk ih =>
    rw [ofChars_of_some file' offset' hl, hk]
    exact ih _
  | case3 offset cs l hl _ rest kind hk ih =>
    rw [ofChars_of_some file' offset' hl, hk]
    obtain ⟨hwords, hstop⟩ := ih (offset' + Text.byteSize l.text)
    exact ⟨congrArg (List.cons (⟨kind, String.ofList l.text⟩ : Word)) hwords, hstop⟩

/-- The characters are read to their end, as the given words. -/
structure Reads (cs : List Char) (ws : List Word) : Prop where
  words : (ofChars "" 0 cs).tokens.map Token.word = ws
  obstacle : (ofChars "" 0 cs).obstacle = none

theorem reads_nil : Reads [] [] := by
  have h : ofChars "" 0 [] = ⟨[], 0, none⟩ := ofChars_of_none "" 0 rfl
  exact ⟨by rw [h]; rfl, by rw [h]⟩

/-- A gap at the front is passed over. -/
theorem reads_of_gap {text rest : List Char} (h : Lexeme.next? cs = some ⟨none, text, rest⟩) :
    Reads cs ws ↔ Reads rest ws := by
  obtain ⟨hwords, hstop⟩ := words_ofChars "" "" (0 + Text.byteSize text) 0 rest
  have hcs : ofChars "" 0 cs = ofChars "" (0 + Text.byteSize text) rest := ofChars_of_some "" 0 h
  constructor
  · rintro ⟨hw, ho⟩
    rw [hcs] at hw ho
    exact ⟨hwords ▸ hw, hstop ▸ ho⟩
  · rintro ⟨hw, ho⟩
    exact ⟨by rw [hcs, hwords, hw], by rw [hcs, hstop, ho]⟩

/-- A token at the front is the first word. -/
theorem Reads.cons {kind : Kind} {text rest : List Char}
    (h : Lexeme.next? cs = some ⟨some kind, text, rest⟩) (hr : Reads rest ws) :
    Reads cs (⟨kind, String.ofList text⟩ :: ws) := by
  obtain ⟨hwords, hstop⟩ := words_ofChars "" "" (0 + Text.byteSize text) 0 rest
  have hcs : ofChars "" 0 cs = (ofChars "" (0 + Text.byteSize text) rest).cons
      (token "" 0 kind text) := ofChars_of_some "" 0 h
  refine ⟨?_, ?_⟩
  · rw [hcs, ← hr.words, ← hwords]
    rfl
  · rw [hcs, ← hr.obstacle, ← hstop]
    rfl

/-- Blanks at the front do not matter. -/
theorem reads_dropWhile : Reads (cs.dropWhile Text.isBlank) ws ↔ Reads cs ws := by
  cases cs with
  | nil => exact Iff.rfl
  | cons c cs =>
    cases hc : Text.isBlank c with
    | false => rw [List.dropWhile_cons_of_neg (by simp [hc])]
    | true =>
      rw [List.dropWhile_cons_of_pos hc]
      exact (reads_of_gap (Lexeme.next?_of_isBlank hc cs)).symm

/-- A gap before what is read does not change what is read. -/
theorem Reads.gap {gap : List Char} (hg : Gap gap) (h : Reads cs ws) : Reads (gap ++ cs) ws := by
  induction hg with
  | nil => exact h
  | @blank c rest hc _ ih =>
    exact (reads_of_gap (Lexeme.next?_of_isBlank hc (rest ++ cs))).mpr (reads_dropWhile.mpr ih)
  | @comment body rest hb _ ih =>
    have hnext := Lexeme.next?_of_comment hb (rest ++ cs)
    rw [← List.append_assoc] at hnext
    exact (reads_of_gap hnext).mpr ih

/-- A layout is read as its words: each is cut off whole, as the gap after it sets it apart from the
next one. -/
theorem reads_layout {text : List Char} (h : Layout ws text) : Reads text ws := by
  induction h with
  | nil => exact reads_nil
  | @cons w gap ws text hw hg hne hl ih =>
    have hrest : Apart (gap ++ text) := by
      cases gap with
      | cons c gap => exact hg.apart
      | nil =>
        cases hl with
        | nil => exact Gap.nil.apart
        | cons => exact absurd rfl (hne (List.cons_ne_nil _ _))
    have hreads := Reads.cons (Lexeme.next?_of_whole (Lexeme.whole_of_lexical hw hrest)) (ih.gap hg)
    rwa [String.ofList_toList] at hreads

/-- All tokens of a scan are words of the language. -/
theorem lexical_ofChars (file : String) (offset : Nat) (cs : List Char) :
    ∀ t ∈ (Scan.ofChars file offset cs).tokens, t.word.Lexical := by
  fun_induction Scan.ofChars file offset cs with
  | case1 => exact List.forall_mem_nil _
  | case2 offset cs l hl _ rest hk ih => exact ih
  | case3 offset cs l hl _ rest kind hk ih =>
    have hwhole := Lexeme.whole_of_next? hl
    rw [show l = ⟨some kind, l.text, l.rest⟩ by rw [← hk]] at hwhole
    exact List.forall_mem_cons.mpr ⟨hwhole.lexical, ih⟩

end Scan

/-- The tokens of words in any layout, with a gap before them or not, are these words and the end. -/
theorem tokenize_layout {lead text : List Char} {ws : List Word} (hl : Gap lead)
    (h : Layout ws text) (file : String) :
    ∃ ts, tokenize (String.ofList (lead ++ text)) file = .ok ts ∧
      ts.map Token.word = ws ++ [Kind.eof.word] := by
  have hreads := (Scan.reads_layout h).gap hl
  obtain ⟨hwords, hstop⟩ := Scan.words_ofChars file "" 0 0 (lead ++ text)
  rw [hreads.words] at hwords
  rw [hreads.obstacle] at hstop
  have hscan : (Reader.start (String.ofList (lead ++ text)) file).scan =
      Scan.ofChars file 0 (lead ++ text) := by
    rw [Reader.scan, Reader.ahead, Reader.start, String.toList_ofList, Text.dropBytes]
  refine ⟨_, by rw [tokenize, hscan, Scan.result, hstop], ?_⟩
  rw [List.map_append, hwords]
  rfl

/-- A comment right after a slash, one that ends in two stars, and a blank that is not ASCII. -/
theorem tokenize_quotient :
    ∃ lead text, Gap lead ∧
      Layout [⟨.identifier, "EOF"⟩, Kind.slash.word, ⟨.number, "2."⟩] text ∧
      String.ofList (lead ++ text) = "/***/EOF\u3000//*/*/2." ∧
      ∃ ts, tokenize (String.ofList (lead ++ text)) "quotient.ou" = .ok ts ∧
        ts.map Token.word =
          [⟨.identifier, "EOF"⟩, Kind.slash.word, ⟨.number, "2."⟩] ++ [Kind.eof.word] := by
  have hname : Word.Lexical ⟨.identifier, "EOF"⟩ :=
    @Word.Lexical.identifier 'E' ['O', 'F'] rfl (List.all_eq_true.mp rfl) (by decide)
  have hnumber : Word.Lexical ⟨.number, "2."⟩ :=
    @Word.Lexical.decimal ['2'] [] (by decide) (List.all_eq_true.mp rfl) (List.all_eq_true.mp rfl)
  have hlead : Gap ['/', '*', '*', '*', '/'] := @Gap.comment ['*'] [] (by decide) .nil
  have hblank : Gap ['\u3000'] := .blank (by decide) .nil
  have hcomment : Gap ['/', '*', '/', '*', '/'] := @Gap.comment ['/'] [] (by decide) .nil
  have hlayout := Layout.cons hname hblank (by simp)
    (.cons (.fixed rfl (by decide) : Kind.slash.word.Lexical) hcomment (by simp)
      (.cons hnumber .nil (by simp) .nil))
  exact ⟨_, _, hlead, hlayout, by decide +kernel, tokenize_layout hlead hlayout "quotient.ou"⟩

end Cpl
