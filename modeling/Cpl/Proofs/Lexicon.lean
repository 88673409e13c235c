import Cpl.Proofs.Grammar.Passing

/-!
# What the scanner gives

Every token of a text is a word of the language, and stands in the text where its span says. If the scanner
gives up, it is at a character with which no lexeme starts.

* `lexical_of_tokenize`: the words of the tokens are spelled as `Word.Lexical` says;
* `standsIn_of_tokenize`: each token has its text at the byte where its span starts, the end token at the end;
* `obstacle_of_tokenize`: the diagnostic of a text that cannot be scanned names the character at its place.
-/

namespace Cpl

/-! ## Words -/

theorem lexical_of_tokenize {source file : String} {ts : List Token}
    (h : tokenize source file = .ok ts) {t : Token} (ht : t ∈ ts) (hk : t.kind ≠ .eof) :
    t.word.Lexical := by
  unfold tokenize Scan.result at h
  split at h <;> cases h
  rcases List.mem_append.mp ht with ht | ht
  · exact Scan.lexical_ofChars _ _ _ t ht
  · rw [List.mem_singleton.mp ht] at hk
    exact absurd rfl hk

/-- A cast token names a type. -/
theorem Word.Lexical.exists_castType {t : Token} (h : t.word.Lexical) (hk : t.kind = .cast) :
    ∃ type, t.castType = .ok type := by
  obtain ⟨kind, value, span⟩ := t
  obtain rfl : kind = .cast := hk
  generalize hw : Token.word _ = w at h
  cases h with
  | identifier _ _ _ => cases hw
  | integer _ _ => cases hw
  | decimal _ _ _ => cases hw
  | cast type =>
    cases type <;> cases hw
    · exact ⟨.int, rfl⟩
    · exact ⟨.float, rfl⟩
  | fixed ho _ =>
    cases hw
    cases ho

/-- An identifier begins with a letter, and goes on with letters and digits. -/
theorem Word.Lexical.exists_letter {name : String} (h : Word.Lexical ⟨.identifier, name⟩) :
    ∃ c cs, name = String.ofList (c :: cs) ∧ c.isAlpha = true ∧ ∀ d ∈ cs, d.isAlphanum = true := by
  generalize hw : (⟨.identifier, name⟩ : Word) = w at h
  cases h with
  | @identifier c cs hc hcs hres => exact ⟨c, cs, congrArg Word.value hw, hc, hcs⟩
  | integer hne hd => cases hw
  | decimal hne hd hf => cases hw
  | cast type => cases type <;> cases hw
  | fixed ho _ =>
    cases hw
    cases ho

/-- A number begins with a digit, and goes on with digits and a point. -/
theorem Word.Lexical.exists_digit {text : String} (h : Word.Lexical ⟨.number, text⟩) :
    ∃ c cs, text = String.ofList (c :: cs) ∧ c.isDigit = true ∧
      ∀ d ∈ cs, (d.isDigit || d == '.') = true := by
  generalize hw : (⟨.number, text⟩ : Word) = w at h
  cases h with
  | identifier hc hcs hres => cases hw
  | @integer digits hne hd =>
    obtain ⟨c, cs, rfl⟩ := List.exists_cons_of_ne_nil hne
    rw [List.forall_mem_cons] at hd
    exact ⟨c, cs, congrArg Word.value hw, hd.1, fun d hm => by rw [hd.2 d hm, Bool.true_or]⟩
  | @decimal digits fraction hne hd hf =>
    obtain ⟨c, cs, rfl⟩ := List.exists_cons_of_ne_nil hne
    rw [List.forall_mem_cons] at hd
    refine ⟨c, cs ++ '.' :: fraction, congrArg Word.value hw, hd.1, fun d hm => ?_⟩
    rcases List.mem_append.mp hm with hm | hm
    · rw [hd.2 d hm, Bool.true_or]
    · rcases List.mem_cons.mp hm with rfl | hm
      · rfl
      · rw [hf d hm, Bool.true_or]
  | cast type => cases type <;> cases hw
  | fixed ho _ =>
    cases hw
    cases ho

/-! ## Places -/

/-- The rest of a text is what it is from the token on: its own text comes first, or it is an end and nothing
comes any more. -/
def Token.Heads (t : Token) (rest : List Char) : Prop :=
  if t.kind = .eof then rest = [] else t.value.toList <+: rest

/-- The token stands in the text where its span starts. -/
def Token.StandsIn (t : Token) (file : String) (text : List Char) : Prop :=
  ∃ before after, text = before ++ after ∧ t.span.start = .ofByte file (Text.byteSize before) ∧
    t.Heads after

namespace Scan

/-- A split of what comes after a lexeme is one of the whole text, at an offset that is counted from there. -/
theorem split_of_next? {cs : List Char} {l : Lexeme} (hl : Lexeme.next? cs = some l)
    {before after : List Char} (hrest : l.rest = before ++ after) (offset : Nat) :
    cs = (l.text ++ before) ++ after ∧
      offset + Text.byteSize l.text + Text.byteSize before =
        offset + Text.byteSize (l.text ++ before) := by
  constructor
  · rw [List.append_assoc, ← hrest, Lexeme.append_of_next? hl]
  · rw [Text.byteSize_append, Nat.add_assoc]

theorem located_ofChars (file : String) (offset : Nat) (cs : List Char) :
    ∀ t ∈ (ofChars file offset cs).tokens, ∃ before after, cs = before ++ after ∧
      t.span.start = .ofByte file (offset + Text.byteSize before) ∧ t.value.toList <+: after := by
  fun_induction ofChars file offset cs with
  | case1 => exact List.forall_mem_nil _
  | case2 offset cs l hl _ rest hk ih =>
    intro t ht
    obtain ⟨before, after, hcs, hstart, hvalue⟩ := ih t ht
    obtain ⟨hsplit, hoffset⟩ := split_of_next? hl hcs offset
    exact ⟨l.text ++ before, after, hsplit, hoffset ▸ hstart, hvalue⟩
  | case3 offset cs l hl _ rest kind hk ih =>
    refine List.forall_mem_cons.mpr ⟨⟨[], cs, rfl, rfl, ?_⟩, fun t ht => ?_⟩
    · rw [token, String.toList_ofList]
      exact ⟨l.rest, Lexeme.append_of_next? hl⟩
    · obtain ⟨before, after, hcs, hstart, hvalue⟩ := ih t ht
      obtain ⟨hsplit, hoffset⟩ := split_of_next? hl hcs offset
      exact ⟨l.text ++ before, after, hsplit, hoffset ▸ hstart, hvalue⟩

/-- The scan stops before a rest with which no lexeme starts, and which is empty if there is no obstacle.
Without this rest the same tokens are read. -/
theorem stop_ofChars (file : String) (offset : Nat) (cs : List Char) :
    ∃ before after, cs = before ++ after ∧
      (ofChars file offset cs).stop = offset + Text.byteSize before ∧
      (ofChars file offset cs).obstacle = after.head? ∧ Lexeme.next? after = none ∧
      ofChars file offset before =
        ⟨(ofChars file offset cs).tokens, (ofChars file offset cs).stop, none⟩ := by
  fun_induction ofChars file offset cs with
  | case1 offset cs hl => exact ⟨[], cs, rfl, rfl, rfl, hl, ofChars_of_none file offset rfl⟩
  | case2 offset cs l hl _ rest hk ih =>
    obtain ⟨before, after, hcs, hstop, hobstacle, hnone, hsame⟩ := ih
    obtain ⟨hsplit, hoffset⟩ := split_of_next? hl hcs offset
    refine ⟨l.text ++ before, after, hsplit, hstop.trans hoffset, hobstacle, hnone, ?_⟩
    rw [ofChars_of_some file offset (Lexeme.next?_of_split hl hcs), hk]
    exact hsame
  | case3 offset cs l hl _ rest kind hk ih =>
    obtain ⟨before, after, hcs, hstop, hobstacle, hnone, hsame⟩ := ih
    obtain ⟨hsplit, hoffset⟩ := split_of_next? hl hcs offset
    refine ⟨l.text ++ before, after, hsplit, hstop.trans hoffset, hobstacle, hnone, ?_⟩
    rw [ofChars_of_some file offset (Lexeme.next?_of_split hl hcs), hk]
    exact congrArg (Scan.cons (token file offset kind l.text)) hsame

end Scan

section

variable {source file : String}

theorem tokenize_eq (source file : String) :
    tokenize source file = (Scan.ofChars file 0 source.toList).result file := by
  rw [tokenize, Reader.scan, Reader.start, Reader.ahead, Text.dropBytes]

theorem standsIn_of_tokenize {ts : List Token} (h : tokenize source file = .ok ts) {t : Token}
    (ht : t ∈ ts) : t.StandsIn file source.toList := by
  rw [tokenize_eq] at h
  obtain ⟨before, after, hsplit, hstop, hobstacle, -, -⟩ := Scan.stop_ofChars file 0 source.toList
  unfold Scan.result at h
  split at h <;> cases h
  rename_i hnone
  rcases List.mem_append.mp ht with ht | ht
  · obtain ⟨before, after, hcs, hstart, hvalue⟩ := Scan.located_ofChars file 0 _ t ht
    refine ⟨before, after, hcs, by rw [hstart, Nat.zero_add], ?_⟩
    rw [Token.Heads, if_neg (Scan.lexical_ofChars file 0 _ t ht).proper.isWritten]
    exact hvalue
  · rw [List.mem_singleton.mp ht]
    refine ⟨before, after, hsplit, ?_, ?_⟩
    · rw [Token.endAt, hstop, Nat.zero_add]
    · show after = []
      rw [← List.head?_eq_none_iff, ← hobstacle, hnone]

theorem obstacle_of_tokenize {error : Diagnostic} (h : tokenize source file = .error error) :
    ∃ before c after, source.toList = before ++ c :: after ∧ Lexeme.next? (c :: after) = none ∧
      error = ⟨.unrecognisedToken c.toString, .ofByte file (Text.byteSize before)⟩ := by
  rw [tokenize_eq] at h
  obtain ⟨before, after, hsplit, hstop, hobstacle, hnone, -⟩ := Scan.stop_ofChars file 0 source.toList
  unfold Scan.result at h
  split at h <;> cases h
  rename_i c hc
  rw [hobstacle] at hc
  obtain ⟨rest, rfl⟩ := List.head?_eq_some_iff.mp hc
  exact ⟨before, c, rest, hsplit, hnone, by rw [hstop, Nat.zero_add]⟩

end

end Cpl
