import Mathlib.Data.List.TakeWhile
import Cpl.Token.Lexeme

/-!
# What is cut off

Which piece a text starts with, said without the rules that look for it. A piece is whole
(`Lexeme.Whole`) if it is a cast, a word, a number, a run of blanks, a comment or a mark, and nothing
that comes after it belongs to it.

* `Lexeme.next?_eq_some_iff`: the piece that is cut off a text is the whole piece that the text starts
  with;
* `Lexeme.next?_eq_none_iff`: nothing is cut off if no piece starts with the first character;
* `Lexeme.next?_of_split`: what comes after a piece can be left out without changing the piece.
-/

namespace Cpl

/-! ## Classes of characters -/

namespace Text

/-- The text does not start with a character of the class. -/
def StartsOutside (p : Char → Bool) (cs : List Char) : Prop :=
  ∀ c, cs.head? = some c → p c = false

section

variable {p : Char → Bool} {c : Char} {cs rest more : List Char}

theorem startsOutside_nil : StartsOutside p [] :=
  fun _ h => nomatch h

theorem startsOutside_cons : StartsOutside p (c :: cs) ↔ p c = false :=
  ⟨fun h => h c rfl, fun h d hd => by cases hd; exact h⟩

theorem StartsOutside.of_append (h : StartsOutside p (rest ++ more)) : StartsOutside p rest := by
  intro c hc
  exact h c (by rw [List.head?_append, hc, Option.some_or])

theorem startsOutside_dropWhile (p : Char → Bool) (cs : List Char) :
    StartsOutside p (cs.dropWhile p) := by
  intro c hc
  have h := List.head?_dropWhile_not p cs
  rw [hc] at h
  simpa using h

theorem takeWhile_eq_nil_iff : cs.takeWhile p = [] ↔ StartsOutside p cs := by
  cases cs with
  | nil => exact iff_of_true rfl startsOutside_nil
  | cons c cs => rw [startsOutside_cons]; cases h : p c <;> simp [h]

/-- The characters of a class are cut off up to the first one that is not of the class. -/
theorem takeWhile_append_outside (hcs : ∀ c ∈ cs, p c = true) (hrest : StartsOutside p rest) :
    (cs ++ rest).takeWhile p = cs ∧ (cs ++ rest).dropWhile p = rest := by
  rw [List.takeWhile_append_of_pos hcs, List.dropWhile_append_of_pos hcs]
  cases rest with
  | nil => simp
  | cons c rest => simp [startsOutside_cons.mp hrest]

end

theorem isAlphanum_of_isBlank {c : Char} (h : isBlank c = true) : c.isAlphanum = false := by
  simp only [isBlank, Bool.or_eq_true, Bool.and_eq_true, decide_eq_true_eq, beq_iff_eq,
    Char.toNat] at h
  delta Char.isAlphanum Char.isAlpha Char.isUpper Char.isLower Char.isDigit
  simp only [Bool.or_eq_false_iff, Bool.and_eq_false_iff, decide_eq_false_iff_not,
    UInt32.le_iff_toNat_le, ge_iff_le, Char.reduceVal, UInt32.reduceToNat]
  omega

theorem isAlpha_of_isDigit {c : Char} (h : c.isDigit = true) : c.isAlpha = false := by
  delta Char.isDigit at h
  delta Char.isAlpha Char.isUpper Char.isLower
  simp only [Bool.and_eq_true, decide_eq_true_eq, UInt32.le_iff_toNat_le, ge_iff_le,
    Char.reduceVal, UInt32.reduceToNat] at h
  simp only [Bool.or_eq_false_iff, Bool.and_eq_false_iff, decide_eq_false_iff_not,
    UInt32.le_iff_toNat_le, ge_iff_le, Char.reduceVal, UInt32.reduceToNat]
  omega

end Text

/-! ## Whole pieces -/

open Text

/-- A comment. Its body does not hold the end mark. -/
def IsComment (text : List Char) : Prop :=
  ∃ body, ¬ ['*', '/'] <:+: body ∧ text = '/' :: '*' :: (body ++ ['*', '/'])

namespace Lexeme

/-- A piece to which nothing belongs of what comes after it. -/
inductive Whole : Lexeme → Prop
  | cast {text rest : List Char} : (text, .cast) ∈ casts → Whole ⟨some .cast, text, rest⟩
  | word {c : Char} {cs rest : List Char} : c.isAlpha = true → (∀ d ∈ cs, d.isAlphanum = true) →
      StartsOutside Char.isAlphanum rest → (∀ p ∈ casts, ¬ p.1 <+: c :: cs ++ rest) →
      Whole ⟨some ((Kind.ofReserved? (String.ofList (c :: cs))).getD .identifier), c :: cs, rest⟩
  | integer {digits rest : List Char} : digits ≠ [] → (∀ d ∈ digits, d.isDigit = true) →
      StartsOutside (fun c => c.isDigit || c == '.') rest → Whole ⟨some .number, digits, rest⟩
  | decimal {digits fraction rest : List Char} : digits ≠ [] → (∀ d ∈ digits, d.isDigit = true) →
      (∀ d ∈ fraction, d.isDigit = true) → StartsOutside Char.isDigit rest →
      Whole ⟨some .number, digits ++ '.' :: fraction, rest⟩
  | blanks {text rest : List Char} : text ≠ [] → (∀ c ∈ text, isBlank c = true) →
      StartsOutside isBlank rest → Whole ⟨none, text, rest⟩
  | comment {text rest : List Char} : IsComment text → Whole ⟨none, text, rest⟩
  /-- A mark that is not the beginning of a longer one or of a comment. -/
  | mark {text rest : List Char} {kind : Kind} : (text, kind) ∈ Kind.spellings →
      (∀ p ∈ Kind.spellings, p.1 <+: text ++ rest → p.1 <+: text) →
      (∀ comment, IsComment comment → ¬ comment <+: text ++ rest) → Whole ⟨some kind, text, rest⟩

/-- A piece stays whole if the text ends earlier, but not before the piece does. -/
theorem Whole.of_append {kind : Option Kind} {text rest more : List Char}
    (h : Whole ⟨kind, text, rest ++ more⟩) : Whole ⟨kind, text, rest⟩ := by
  have hlonger (cs : List Char) (hcs : cs <+: text ++ rest) : cs <+: text ++ (rest ++ more) := by
    rw [← List.append_assoc]
    exact hcs.trans (List.prefix_append ..)
  cases h with
  | cast hm => exact .cast hm
  | word hc hcs hrest hcast => exact .word hc hcs hrest.of_append fun p hp h => hcast p hp (hlonger _ h)
  | integer hne hd hrest => exact .integer hne hd hrest.of_append
  | decimal hne hd hf hrest => exact .decimal hne hd hf hrest.of_append
  | blanks hne hb hrest => exact .blanks hne hb hrest.of_append
  | comment hc => exact .comment hc
  | mark hm hlong hcomment =>
    exact .mark hm (fun p hp h => hlong p hp (hlonger _ h)) fun c hc h => hcomment c hc (hlonger _ h)

/-! ## The single rules -/

variable {cs : List Char} {l : Lexeme}

theorem after?_eq_none_iff {spelling : List Char} : after? spelling cs = none ↔ ¬ spelling <+: cs := by
  rw [Option.eq_none_iff_forall_ne_some]
  constructor
  · rintro h ⟨rest, hrest⟩
    exact h rest (after?_eq_some_iff.mpr hrest.symm)
  · intro h rest hrest
    exact h ⟨rest, (after?_eq_some_iff.mp hrest).symm⟩

section

variable {spellings : List (List Char × Kind)}

theorem spelled?_eq_none_iff : spelled? spellings cs = none ↔ ∀ p ∈ spellings, ¬ p.1 <+: cs := by
  rw [spelled?, List.findSome?_eq_none_iff]
  refine forall₂_congr fun p _ => ?_
  rw [Option.map_eq_none_iff, after?_eq_none_iff]

/-- Of the spellings with which the text starts the first one counts. -/
theorem spelled?_eq_some_iff :
    spelled? spellings cs = some l ↔ ∃ before kind after, l.kind = some kind ∧
      spellings = before ++ (l.text, kind) :: after ∧ cs = l.text ++ l.rest ∧
      ∀ p ∈ before, ¬ p.1 <+: cs := by
  rw [spelled?, List.findSome?_eq_some_iff]
  constructor
  · rintro ⟨before, ⟨text, kind⟩, after, hsplit, hl, hbefore⟩
    obtain ⟨rest, hrest, rfl⟩ := Option.map_eq_some_iff.mp hl
    refine ⟨before, kind, after, rfl, hsplit, after?_eq_some_iff.mp hrest, fun p hp => ?_⟩
    exact after?_eq_none_iff.mp (Option.map_eq_none_iff.mp (hbefore p hp))
  · obtain ⟨kind', text, rest⟩ := l
    rintro ⟨before, kind, after, rfl, hsplit, hcs, hbefore⟩
    refine ⟨before, (text, kind), after, hsplit, ?_, fun p hp => ?_⟩
    · show (after? text cs).map _ = _
      rw [after?_eq_some_iff.mpr hcs]
      rfl
    · exact Option.map_eq_none_iff.mpr (after?_eq_none_iff.mpr (hbefore p hp))

end

theorem word?_eq_none_iff : word? cs = none ↔ StartsOutside Char.isAlpha cs := by
  cases cs with
  | nil => exact iff_of_true rfl startsOutside_nil
  | cons c cs => rw [startsOutside_cons, word?]; cases h : c.isAlpha <;> simp

theorem word?_append {c : Char} {letters rest : List Char} (hc : c.isAlpha = true)
    (hletters : ∀ d ∈ letters, d.isAlphanum = true) (hrest : StartsOutside Char.isAlphanum rest) :
    word? (c :: letters ++ rest) =
      some ⟨some ((Kind.ofReserved? (String.ofList (c :: letters))).getD .identifier), c :: letters,
        rest⟩ := by
  obtain ⟨htake, hdrop⟩ := takeWhile_append_outside hletters hrest
  rw [List.cons_append, word?, if_pos hc, htake, hdrop]

theorem whole_of_word? (hcasts : spelled? casts cs = none) (h : word? cs = some l) : l.Whole := by
  cases cs with
  | nil => cases h
  | cons c cs =>
    simp only [word?] at h
    split at h <;> cases h
    rename_i hc
    refine .word hc (fun d hd => List.mem_takeWhile_imp hd) (startsOutside_dropWhile _ cs) ?_
    rw [List.cons_append, List.takeWhile_append_dropWhile]
    exact spelled?_eq_none_iff.mp hcasts

theorem number?_eq_none_iff : number? cs = none ↔ StartsOutside Char.isDigit cs := by
  rw [← takeWhile_eq_nil_iff, number?]
  split
  · exact iff_of_true rfl ‹_›
  · exact iff_of_false (Option.some_ne_none _) ‹_›
  · exact iff_of_false (Option.some_ne_none _) ‹_›

section

variable {digits fraction rest : List Char}

theorem number?_of_integer (hne : digits ≠ []) (hd : ∀ d ∈ digits, d.isDigit = true)
    (hrest : StartsOutside (fun c => c.isDigit || c == '.') rest) :
    number? (digits ++ rest) = some ⟨some .number, digits, rest⟩ := by
  obtain ⟨htake, hdrop⟩ := takeWhile_append_outside hd fun c hc => (Bool.or_eq_false_iff.mp (hrest c hc)).1
  rw [number?, htake, hdrop]
  split
  · contradiction
  · exact absurd (startsOutside_cons.mp hrest) (by decide)
  · rfl

theorem number?_of_decimal (hne : digits ≠ []) (hd : ∀ d ∈ digits, d.isDigit = true)
    (hf : ∀ d ∈ fraction, d.isDigit = true) (hrest : StartsOutside Char.isDigit rest) :
    number? (digits ++ '.' :: (fraction ++ rest)) =
      some ⟨some .number, digits ++ '.' :: fraction, rest⟩ := by
  obtain ⟨htake, hdrop⟩ := takeWhile_append_outside hd
    (startsOutside_cons.mpr (by decide : Char.isDigit '.' = false))
  obtain ⟨htake', hdrop'⟩ := takeWhile_append_outside hf hrest
  rw [number?, htake, hdrop]
  split
  · contradiction
  · rename_i heq
    cases heq
    rw [htake', hdrop']
  · rename_i hno
    exact absurd rfl (hno _)

end

theorem whole_of_number? (h : number? cs = some l) : l.Whole := by
  have hdigits (ds : List Char) : ∀ d ∈ ds.takeWhile Char.isDigit, d.isDigit = true :=
    fun d hd => List.mem_takeWhile_imp hd
  have houtside := startsOutside_dropWhile Char.isDigit cs
  unfold number? at h
  split at h
  · cases h
  · rename_i hne
    cases h
    exact .decimal (fun hnil => hne hnil) (hdigits cs) (hdigits _) (startsOutside_dropWhile _ _)
  · rename_i hne hno
    cases h
    refine .integer (fun hnil => hne hnil) (hdigits cs) fun c hc => ?_
    -- after the digits there is no point, or the number would go on
    obtain ⟨rest, hrest⟩ := List.head?_eq_some_iff.mp hc
    show (c.isDigit || c == '.') = false
    rw [houtside c hc, Bool.false_or, beq_eq_false_iff_ne]
    rintro rfl
    exact hno rest hrest

theorem blanks?_eq_none_iff : blanks? cs = none ↔ StartsOutside isBlank cs := by
  rw [← takeWhile_eq_nil_iff, blanks?]
  split
  · exact iff_of_true rfl ‹_›
  · exact iff_of_false (Option.some_ne_none _) ‹_›

theorem blanks?_append {text rest : List Char} (hne : text ≠ []) (hb : ∀ c ∈ text, isBlank c = true)
    (hrest : StartsOutside isBlank rest) : blanks? (text ++ rest) = some ⟨none, text, rest⟩ := by
  obtain ⟨htake, hdrop⟩ := takeWhile_append_outside hb hrest
  rw [blanks?, htake, hdrop]
  split
  · contradiction
  · rfl

theorem whole_of_blanks? (h : blanks? cs = some l) : l.Whole := by
  unfold blanks? at h
  split at h <;> cases h
  rename_i hne
  exact .blanks (fun hnil => hne hnil) (fun c hc => List.mem_takeWhile_imp hc)
    (startsOutside_dropWhile _ cs)

/-- A comment is over at the first end mark. -/
theorem closeComment?_append {body : List Char} (h : ¬ ['*', '/'] <:+: body) (rest : List Char) :
    closeComment? (body ++ ['*', '/'] ++ rest) = some (body ++ ['*', '/'], rest) := by
  induction body with
  | nil => rfl
  | cons c body ih =>
    have hbody : ¬ ['*', '/'] <:+: body := fun hi => h (hi.trans (List.suffix_cons c body).isInfix)
    have hopen (cs : List Char) (hc : c = '*') (he : body ++ ['*', '/'] ++ rest = '/' :: cs) :
        False := by
      cases body with
      | nil => cases he
      | cons d body =>
        obtain ⟨rfl, -⟩ := List.cons.inj he
        exact h ⟨[], body, by rw [hc]; rfl⟩
    rw [List.cons_append, List.cons_append, closeComment?, ih hbody]
    · rfl
    · exact hopen

theorem exists_body_of_closeComment? {text rest : List Char}
    (h : closeComment? cs = some (text, rest)) :
    ∃ body, ¬ ['*', '/'] <:+: body ∧ text = body ++ ['*', '/'] := by
  fun_induction closeComment? cs generalizing text rest with
  | case1 => cases h
  | case2 cs =>
    cases h
    exact ⟨[], by decide, rfl⟩
  | case3 c cs hopen ih =>
    obtain ⟨⟨text', rest⟩, h', heq⟩ := Option.map_eq_some_iff.mp h
    cases heq
    obtain ⟨body, hbody, rfl⟩ := ih h'
    refine ⟨c :: body, fun hi => ?_, rfl⟩
    rcases List.infix_cons_iff.mp hi with hfirst | hlater
    · -- an end mark at the front is one of the whole text
      have hcs := append_of_closeComment? h'
      obtain ⟨more, hmore⟩ := hfirst
      obtain ⟨hc, hm⟩ := List.cons.inj hmore
      refine hopen (more ++ ['*', '/'] ++ rest) hc.symm ?_
      rw [← hcs, ← hm]
      rfl
    · exact hbody hlater

theorem comment?_append {text : List Char} (h : IsComment text) (rest : List Char) :
    comment? (text ++ rest) = some ⟨none, text, rest⟩ := by
  obtain ⟨body, hbody, rfl⟩ := h
  show (closeComment? (body ++ ['*', '/'] ++ rest)).map _ = _
  rw [closeComment?_append hbody]
  rfl

theorem isComment_of_comment? (h : comment? cs = some l) : l.kind = none ∧ IsComment l.text := by
  unfold comment? at h
  split at h
  · obtain ⟨⟨text, rest⟩, h', rfl⟩ := Option.map_eq_some_iff.mp h
    obtain ⟨body, hbody, rfl⟩ := exists_body_of_closeComment? h'
    exact ⟨rfl, body, hbody, rfl⟩
  · cases h

theorem comment?_eq_none_iff : comment? cs = none ↔ ∀ text, IsComment text → ¬ text <+: cs := by
  rw [Option.eq_none_iff_forall_ne_some]
  constructor
  · rintro h text htext ⟨rest, rfl⟩
    exact h _ (comment?_append htext rest)
  · intro h l hl
    exact h l.text (isComment_of_comment? hl).2 ⟨l.rest, (cuts_of_comment? hl).2⟩

/-! ## The piece at the front -/

/-- The rules one after the other. -/
theorem next?_eq (cs : List Char) :
    next? cs = (spelled? casts cs).or ((word? cs).or ((number? cs).or ((blanks? cs).or
      ((comment? cs).or (spelled? Kind.spellings cs))))) := by
  have hcons (rule : List Char → Option Lexeme) (rules : List (List Char → Option Lexeme)) :
      ((rule :: rules).findSome? fun r => r cs) = (rule cs).or (rules.findSome? fun r => r cs) := by
    rw [List.findSome?_cons]
    cases rule cs <;> rfl
  rw [next?, rules, hcons, hcons, hcons, hcons, hcons, hcons, List.findSome?_nil, Option.or_none]

/-- A cast starts with a letter. -/
theorem spelled?_casts_of_outside (h : StartsOutside Char.isAlpha cs) : spelled? casts cs = none := by
  have hfirst : ∀ p ∈ casts, p.1.head? = some 's' := by decide
  rw [spelled?_eq_none_iff]
  rintro p hp ⟨rest, rfl⟩
  have hs := h 's' (by rw [List.head?_append, hfirst p hp, Option.some_or])
  exact absurd hs (by decide)

theorem next?_of_outside_isAlpha (h : StartsOutside Char.isAlpha cs) :
    next? cs = (number? cs).or ((blanks? cs).or ((comment? cs).or (spelled? Kind.spellings cs))) := by
  rw [next?_eq, spelled?_casts_of_outside h, Option.none_or, word?_eq_none_iff.mpr h, Option.none_or]

theorem next?_of_outside_isAlphanum (h : StartsOutside Char.isAlphanum cs) :
    next? cs = (blanks? cs).or ((comment? cs).or (spelled? Kind.spellings cs)) := by
  have hboth (c : Char) (hc : cs.head? = some c) : c.isAlpha = false ∧ c.isDigit = false :=
    Bool.or_eq_false_iff.mp (h c hc)
  rw [next?_of_outside_isAlpha fun c hc => (hboth c hc).1,
    number?_eq_none_iff.mpr fun c hc => (hboth c hc).2, Option.none_or]

/-- What starts neither as a word or number does nor with a blank is a comment or a mark. -/
theorem next?_of_first {c : Char} (halnum : c.isAlphanum = false) (hblank : isBlank c = false)
    (cs : List Char) :
    next? (c :: cs) = (comment? (c :: cs)).or (spelled? Kind.spellings (c :: cs)) := by
  rw [next?_of_outside_isAlphanum (startsOutside_cons.mpr halnum),
    blanks?_eq_none_iff.mpr (startsOutside_cons.mpr hblank), Option.none_or]

/-- No spelling is the beginning of a later one. -/
theorem pairwise_spellings : Kind.spellings.Pairwise fun p q => ¬ p.1 <+: q.1 := by
  decide

/-- Of two spellings with which a text starts one is the beginning of the other, and the longer one comes
first. -/
theorem whole_of_spellings (hcomment : comment? cs = none)
    (h : spelled? Kind.spellings cs = some l) : l.Whole := by
  obtain ⟨kind', text, rest⟩ := l
  obtain ⟨before, kind, after, rfl, hsplit, rfl, hbefore⟩ := spelled?_eq_some_iff.mp h
  have hordered := pairwise_spellings
  refine .mark (by rw [hsplit]; simp) (fun p hp hstart => ?_) (comment?_eq_none_iff.mp hcomment)
  rw [hsplit] at hp hordered
  rcases List.mem_append.mp hp with hp | hp
  · exact absurd hstart (hbefore p hp)
  · rcases List.mem_cons.mp hp with rfl | hp
    · exact List.prefix_rfl
    · have hlater := (List.pairwise_cons.mp (List.pairwise_append.mp hordered).2.1).1 p hp
      exact (List.prefix_or_prefix_of_prefix hstart (List.prefix_append text rest)).resolve_right hlater

theorem whole_of_next? (h : next? cs = some l) : l.Whole := by
  rw [next?_eq] at h
  rcases Option.or_eq_some_iff.mp h with hcast | ⟨hcast, h⟩
  · obtain ⟨kind', text, rest⟩ := l
    obtain ⟨before, kind, after, rfl, hsplit, -, -⟩ := spelled?_eq_some_iff.mp hcast
    have hmem : (text, kind) ∈ casts := by rw [hsplit]; simp
    have hkind : ∀ p ∈ casts, p.2 = .cast := by decide
    obtain rfl : kind = .cast := hkind _ hmem
    exact .cast hmem
  rcases Option.or_eq_some_iff.mp h with hword | ⟨-, h⟩
  · exact whole_of_word? hcast hword
  rcases Option.or_eq_some_iff.mp h with hnumber | ⟨-, h⟩
  · exact whole_of_number? hnumber
  rcases Option.or_eq_some_iff.mp h with hblanks | ⟨-, h⟩
  · exact whole_of_blanks? hblanks
  rcases Option.or_eq_some_iff.mp h with hcomment | ⟨hnone, hmark⟩
  · obtain ⟨kind', text, rest⟩ := l
    obtain ⟨rfl, htext⟩ := isComment_of_comment? hcomment
    exact .comment htext
  · exact whole_of_spellings hnone hmark

section

variable {text rest : List Char} {kind : Kind}

theorem spelled?_of_longest {spellings : List (List Char × Kind)}
    (hordered : spellings.Pairwise fun p q => ¬ p.1 <+: q.1) (hmem : (text, kind) ∈ spellings)
    (hlong : ∀ p ∈ spellings, p.1 <+: text ++ rest → p.1 <+: text) :
    spelled? spellings (text ++ rest) = some ⟨some kind, text, rest⟩ := by
  obtain ⟨before, after, hsplit⟩ := List.append_of_mem hmem
  refine spelled?_eq_some_iff.mpr ⟨before, kind, after, rfl, hsplit, rfl, fun p hp hstart => ?_⟩
  rw [hsplit] at hordered hlong
  exact (List.pairwise_append.mp hordered).2.2 p hp _ List.mem_cons_self
    (hlong p (List.mem_append_left _ hp) hstart)

theorem spelled?_casts (hmem : (text, kind) ∈ casts) (rest : List Char) :
    spelled? casts (text ++ rest) = some ⟨some kind, text, rest⟩ := by
  have hapart : ∀ p ∈ casts, ∀ q ∈ casts, p.1 <+: q.1 → q.1 <+: p.1 := by decide
  refine spelled?_of_longest (by decide) hmem fun p hp hstart => ?_
  rcases List.prefix_or_prefix_of_prefix hstart (List.prefix_append text rest) with h | h
  · exact h
  · exact hapart _ hmem p hp h

/-- The mark that is longest among those with which the text starts. -/
theorem next?_of_mark (hmem : (text, kind) ∈ Kind.spellings)
    (hlong : ∀ p ∈ Kind.spellings, p.1 <+: text ++ rest → p.1 <+: text)
    (hcomment : ∀ comment, IsComment comment → ¬ comment <+: text ++ rest) :
    next? (text ++ rest) = some ⟨some kind, text, rest⟩ := by
  have hfirst : ∀ p ∈ Kind.spellings, p.1 ≠ [] ∧
      p.1.head?.any (fun c => c.isAlphanum || isBlank c) = false := by decide
  have hmark := spelled?_of_longest pairwise_spellings hmem hlong
  rw [← comment?_eq_none_iff] at hcomment
  obtain ⟨hne, hhead⟩ := hfirst _ hmem
  obtain ⟨c, cs, rfl⟩ := List.exists_cons_of_ne_nil hne
  obtain ⟨halnum, hblank⟩ := Bool.or_eq_false_iff.mp hhead
  rw [List.cons_append] at hcomment hmark ⊢
  rw [next?_of_first halnum hblank, hcomment, Option.none_or, hmark]

end

/-- A piece whose characters are not of a class does not start with one. -/
theorem startsOutside_append {p q : Char → Bool} {text : List Char} (hne : text ≠ [])
    (hq : ∀ c ∈ text, q c = true) (hpq : ∀ c, q c = true → p c = false) (rest : List Char) :
    StartsOutside p (text ++ rest) := by
  obtain ⟨c, cs, rfl⟩ := List.exists_cons_of_ne_nil hne
  exact startsOutside_cons.mpr (hpq c (hq c List.mem_cons_self))

theorem next?_of_whole {kind : Option Kind} {text rest : List Char} (h : Whole ⟨kind, text, rest⟩) :
    next? (text ++ rest) = some ⟨kind, text, rest⟩ := by
  cases h with
  | cast hmem => rw [next?_eq, spelled?_casts hmem, Option.some_or]
  | word hc hcs hrest hcast =>
    rw [next?_eq, spelled?_eq_none_iff.mpr hcast, Option.none_or, word?_append hc hcs hrest,
      Option.some_or]
  | integer hne hd hrest =>
    rw [next?_of_outside_isAlpha (startsOutside_append hne hd (fun _ => isAlpha_of_isDigit) rest),
      number?_of_integer hne hd hrest, Option.some_or]
  | @decimal digits fraction _ hne hd hf hrest =>
    rw [List.append_assoc, List.cons_append, next?_of_outside_isAlpha
      (startsOutside_append hne hd (fun _ => isAlpha_of_isDigit) _),
      number?_of_decimal hne hd hf hrest, Option.some_or]
  | blanks hne hb hrest =>
    rw [next?_of_outside_isAlphanum
      (startsOutside_append hne hb (fun _ => isAlphanum_of_isBlank) rest),
      blanks?_append hne hb hrest, Option.some_or]
  | comment htext =>
    have hcomment := comment?_append htext rest
    obtain ⟨body, -, rfl⟩ := htext
    rw [List.cons_append] at hcomment ⊢
    rw [next?_of_first (by decide) (by decide), hcomment, Option.some_or]
  | mark hmem hlong hcomment => exact next?_of_mark hmem hlong hcomment

/-- A text is cut after the whole piece that it starts with, and there is at most one. -/
theorem next?_eq_some_iff : next? cs = some l ↔ cs = l.text ++ l.rest ∧ l.Whole := by
  constructor
  · intro h
    exact ⟨(append_of_next? h).symm, whole_of_next? h⟩
  · rintro ⟨rfl, h⟩
    exact next?_of_whole h

/-- Nothing is cut off a text that starts neither as a word or number, nor with a blank, nor with a mark. -/
theorem next?_eq_none_iff : next? cs = none ↔
    StartsOutside Char.isAlphanum cs ∧ StartsOutside isBlank cs ∧
      ∀ p ∈ Kind.spellings, ¬ p.1 <+: cs := by
  constructor
  · intro h
    rw [next?_eq] at h
    simp only [Option.or_eq_none_iff] at h
    obtain ⟨-, hword, hnumber, hblanks, -, hmark⟩ := h
    refine ⟨fun c hc => ?_, blanks?_eq_none_iff.mp hblanks, spelled?_eq_none_iff.mp hmark⟩
    rw [Char.isAlphanum, word?_eq_none_iff.mp hword c hc, number?_eq_none_iff.mp hnumber c hc]
    rfl
  · rintro ⟨halnum, hblank, hmark⟩
    have hcomment : comment? cs = none := by
      rw [comment?_eq_none_iff]
      rintro text ⟨body, -, rfl⟩ ⟨rest, rfl⟩
      exact hmark (['/'], .slash) (by decide) ⟨_, rfl⟩
    rw [next?_of_outside_isAlphanum halnum, blanks?_eq_none_iff.mpr hblank, hcomment,
      spelled?_eq_none_iff.mpr hmark]
    rfl

/-- What comes after a piece can be left out without changing the piece. -/
theorem next?_of_split {before after : List Char} (h : next? cs = some l)
    (hrest : l.rest = before ++ after) : next? (l.text ++ before) = some ⟨l.kind, l.text, before⟩ := by
  obtain ⟨kind, text, rest⟩ := l
  obtain rfl : rest = before ++ after := hrest
  exact next?_of_whole (whole_of_next? h).of_append

end Lexeme

end Cpl
