import Mathlib.Data.List.Forall2
import Cpl.Proofs.Lexicon

/-!
# Tokens tile their text

The tokens of a text lie side by side in it, and what is between them is only gaps.

* `Scan.tiles_ofChars`: a scan that reaches the end gives gaps and whole pieces that make up the text;
* `Token.Fills`: a token is the text under its span, of the one kind that this text has, and nothing that
  comes after it belongs to it;
* `tokens_tile_source`: the tokens fill the text from left to right up to the gaps, with the end token at its
  end.
-/

namespace Cpl

/-- The byte offset at which a span starts. -/
def Span.first (s : Span) : Nat :=
  s.start.offset.toNat

/-- The byte offset that comes after a span. -/
def Span.past (s : Span) : Nat :=
  s.stop.offset.toNat

/-- A token with this text would go on with the character: a number with a digit or its first point, a
word with a letter or a digit, and some marks with an equals sign. -/
def Text.goesOn (text : List Char) (c : Char) : Bool :=
  match text with
  | [] => false
  | first :: more =>
    if first.isDigit then c.isDigit || (c == '.' && !more.contains '.')
    else if first.isAlpha && more.all Char.isAlphanum then c.isAlphanum
    else [['='], ['!'], ['<'], ['>']].contains text && c == '='

/-! ## Gaps and whole pieces -/

theorem Gap.append {gap more : List Char} (h : Gap gap) (hm : Gap more) : Gap (gap ++ more) := by
  induction h with
  | nil => exact hm
  | blank hc _ ih => exact .blank hc ih
  | comment hb _ ih =>
    rw [List.cons_append, List.cons_append, List.append_assoc]
    exact .comment hb ih

namespace Lexeme

theorem Whole.gap {text rest : List Char} (h : Whole ⟨none, text, rest⟩) : Gap text := by
  generalize hl : (⟨none, text, rest⟩ : Lexeme) = l at h
  cases h with
  | cast _ => cases hl
  | word _ _ _ _ => cases hl
  | integer _ _ _ => cases hl
  | decimal _ _ _ _ => cases hl
  | blanks _ hb _ =>
    cases hl
    clear * - hb
    induction text with
    | nil => exact .nil
    | cons c cs ih =>
      rw [List.forall_mem_cons] at hb
      exact .blank hb.1 (ih hb.2)
  | comment hc =>
    cases hl
    obtain ⟨body, hbody, rfl⟩ := hc
    have hgap := Gap.comment hbody .nil
    rwa [List.append_nil] at hgap
  | mark _ _ _ => cases hl

/-- A mark goes on only with an equals sign, to a longer mark. -/
theorem longer_of_goesOn {text : List Char} {kind : Kind} (hmem : (text, kind) ∈ Kind.spellings)
    {c : Char} (h : Text.goesOn text c = true) :
    c = '=' ∧ text ++ ['='] ∈ Kind.spellings.map Prod.fst := by
  have hfirst : ∀ p ∈ Kind.spellings, p.1 ≠ [] ∧ p.1.head?.any Char.isAlphanum = false := by decide
  have hlonger : ∀ p ∈ Kind.spellings, [['='], ['!'], ['<'], ['>']].contains p.1 = true →
      p.1 ++ ['='] ∈ Kind.spellings.map Prod.fst := by decide
  obtain ⟨hne, halnum⟩ := hfirst _ hmem
  obtain ⟨first, more, rfl⟩ := List.exists_cons_of_ne_nil hne
  obtain ⟨halpha, hdigit⟩ := Bool.or_eq_false_iff.mp halnum
  rw [Text.goesOn, hdigit, halpha] at h
  obtain ⟨hmark, hc⟩ := Bool.and_eq_true_iff.mp h
  exact ⟨beq_iff_eq.mp hc, hlonger _ hmem hmark⟩

/-- What comes after a whole piece does not belong to it. -/
theorem Whole.goesOn_eq_false {kind : Kind} {text rest : List Char}
    (h : Whole ⟨some kind, text, rest⟩) {c : Char} (hc : rest.head? = some c) :
    Text.goesOn text c = false := by
  generalize hl : (⟨some kind, text, rest⟩ : Lexeme) = l at h
  cases h with
  | cast hmem =>
    cases hl
    rw [casts, List.mem_cons, List.mem_singleton] at hmem
    rcases hmem with heq | heq <;> cases heq <;> rfl
  | @word first more _ hfirst hmore hrest _ =>
    cases hl
    have hdigit : first.isDigit = false := by
      cases hd : first.isDigit with
      | false => rfl
      | true =>
        rw [Text.isAlpha_of_isDigit hd] at hfirst
        cases hfirst
    rw [Text.goesOn, hdigit, hfirst, List.all_eq_true.mpr hmore]
    exact hrest c hc
  | integer hne hd hrest =>
    cases hl
    obtain ⟨hdigit, hpoint⟩ := Bool.or_eq_false_iff.mp (hrest c hc)
    obtain ⟨first, more, rfl⟩ := List.exists_cons_of_ne_nil hne
    rw [Text.goesOn, if_pos (hd first List.mem_cons_self), hdigit, hpoint]
    rfl
  | @decimal digits fraction _ hne hd hf hrest =>
    cases hl
    obtain ⟨first, more, rfl⟩ := List.exists_cons_of_ne_nil hne
    have hpoint : (more ++ '.' :: fraction).contains '.' = true := by simp
    rw [List.cons_append, Text.goesOn, if_pos (hd first List.mem_cons_self), hrest c hc, hpoint]
    simp
  | blanks _ _ _ => cases hl
  | comment _ => cases hl
  | mark hmem hlong _ =>
    cases hl
    rw [← Bool.not_eq_true]
    intro hgoes
    obtain ⟨rfl, hlonger⟩ := longer_of_goesOn hmem hgoes
    obtain ⟨p, hp, hpt⟩ := List.mem_map.mp hlonger
    obtain ⟨rest, rfl⟩ := List.head?_eq_some_iff.mp hc
    have hshort := (hlong p hp ⟨rest, by rw [hpt, List.append_assoc]; rfl⟩).length_le
    rw [hpt, List.length_append] at hshort
    exact absurd hshort (Nat.not_succ_le_self _)

end Lexeme

/-- A word has one kind. -/
theorem Word.Lexical.kind_unique {k k' : Kind} {value : String} (h : Word.Lexical ⟨k, value⟩)
    (h' : Word.Lexical ⟨k', value⟩) : k = k' := by
  have hnext := Lexeme.next?_of_whole (Lexeme.whole_of_lexical h Gap.nil.apart)
  rw [Lexeme.next?_of_whole (Lexeme.whole_of_lexical h' Gap.nil.apart)] at hnext
  cases hnext
  rfl

/-- Characters, of which the first is at the given offset, are made of gaps and of the tokens. -/
inductive Tiles (file : String) : Nat → List Char → List Token → Prop
  | gap {offset : Nat} {gap : List Char} : Gap gap → Tiles file offset gap []
  | cons {offset : Nat} {gap text rest : List Char} {kind : Kind} {ts : List Token} : Gap gap →
      Lexeme.Whole ⟨some kind, text, rest⟩ →
      Tiles file (offset + Text.byteSize gap + Text.byteSize text) rest ts →
      Tiles file offset (gap ++ (text ++ rest))
        (Scan.token file (offset + Text.byteSize gap) kind text :: ts)

theorem Tiles.widen {file : String} {offset : Nat} {gap cs : List Char} {ts : List Token}
    (hg : Gap gap) (h : Tiles file (offset + Text.byteSize gap) cs ts) :
    Tiles file offset (gap ++ cs) ts := by
  cases h with
  | gap hm => exact .gap (hg.append hm)
  | @cons _ more text rest kind ts hm hw ht =>
    have hsize : offset + Text.byteSize gap + Text.byteSize more =
        offset + Text.byteSize (gap ++ more) := by rw [Text.byteSize_append, Nat.add_assoc]
    rw [hsize] at ht ⊢
    rw [← List.append_assoc]
    exact .cons (hg.append hm) hw ht

/-- A scan that reaches the end. -/
theorem Scan.tiles_ofChars (file : String) (offset : Nat) (cs : List Char)
    (h : (Scan.ofChars file offset cs).obstacle = none) :
    Tiles file offset cs (Scan.ofChars file offset cs).tokens ∧
      (Scan.ofChars file offset cs).stop = offset + Text.byteSize cs := by
  fun_induction Scan.ofChars file offset cs with
  | case1 offset cs hl =>
    obtain rfl : cs = [] := List.head?_eq_none_iff.mp h
    exact ⟨.gap .nil, rfl⟩
  | case2 offset cs l hl _ rest hk ih =>
    obtain ⟨htiles, hstop⟩ := ih h
    obtain ⟨kind, text, more⟩ := l
    obtain rfl : kind = none := hk
    obtain ⟨rfl, hwhole⟩ := Lexeme.next?_eq_some_iff.mp hl
    exact ⟨htiles.widen hwhole.gap, by rw [hstop, Text.byteSize_append, Nat.add_assoc]⟩
  | case3 offset cs l hl _ rest kind hk ih =>
    obtain ⟨htiles, hstop⟩ := ih h
    obtain ⟨kind', text, more⟩ := l
    obtain rfl : kind' = some kind := hk
    obtain ⟨rfl, hwhole⟩ := Lexeme.next?_eq_some_iff.mp hl
    refine ⟨.cons .nil hwhole htiles, ?_⟩
    rw [Text.byteSize_append, ← Nat.add_assoc]
    exact hstop

/-! ## Places -/

/-- The token is the text under its span. It is of the one kind that its text has, and what comes after it
does not belong to it. -/
structure Token.Fills (t : Token) (source : List Char) : Prop where
  isWritten : t.kind ≠ .eof
  nonempty : t.span.first < t.span.past
  stands : ∃ before after, source = before ++ t.value.toList ++ after ∧
    Text.byteSize before = t.span.first ∧ Text.byteSize (before ++ t.value.toList) = t.span.past ∧
    Text.StartsOutside (Text.goesOn t.value.toList) after
  lexical : t.word.Lexical
  kind_unique : ∀ k, Word.Lexical ⟨k, t.value⟩ → k = t.kind

/-- In the text there is only a gap from the one byte up to the other one. -/
def Text.GapBetween (source : List Char) (first past : Nat) : Prop :=
  ∃ before gap after, source = before ++ gap ++ after ∧ byteSize before = first ∧
    byteSize (before ++ gap) = past ∧ Gap gap

/-- The tokens fill the text from the given byte on, from left to right, and leave only gaps. -/
structure Filled (source : List Char) (offset : Nat) (ts : List Token) : Prop where
  fills : ∀ t ∈ ts, t.Fills source
  from_offset : ∀ t ∈ ts, offset ≤ t.span.first
  ordered : ts.Pairwise fun t u => t.span.past ≤ u.span.first
  gaps : List.Forall₂ (Text.GapBetween source) (offset :: ts.map fun t => t.span.past)
    ((ts.map fun t => t.span.first) ++ [Text.byteSize source])

theorem Text.byteSize_pos {cs : List Char} (h : cs ≠ []) : 0 < byteSize cs := by
  obtain ⟨c, cs, rfl⟩ := List.exists_cons_of_ne_nil h
  exact Nat.add_pos_left c.utf8Size_pos _

namespace Scan

variable {file : String} {offset : Nat} {kind : Kind} {text : List Char}

theorem first_token (h : offset < UInt32.size) :
    (token file offset kind text).span.first = offset :=
  Position.toNat_ofByte h

theorem past_token (h : offset + Text.byteSize text < UInt32.size) :
    (token file offset kind text).span.past = offset + Text.byteSize text :=
  Position.toNat_ofByte h

/-- A whole piece makes a token that fills its place. -/
theorem fills_token (file : String) {before rest : List Char} (hw : Lexeme.Whole ⟨some kind, text, rest⟩)
    (hsize : Text.byteSize (before ++ text ++ rest) < UInt32.size) :
    (token file (Text.byteSize before) kind text).Fills (before ++ text ++ rest) := by
  rw [Text.byteSize_append, Text.byteSize_append] at hsize
  have hfirst : (token file (Text.byteSize before) kind text).span.first = Text.byteSize before :=
    first_token (by omega)
  have hpast : (token file (Text.byteSize before) kind text).span.past =
      Text.byteSize before + Text.byteSize text := past_token (by omega)
  have hlexical := hw.lexical
  have hpos := Text.byteSize_pos (Lexeme.text_ne_nil_of_next? (Lexeme.next?_of_whole hw))
  refine ⟨hlexical.ne_eof, ?_, ⟨before, rest, ?_, hfirst.symm, ?_, ?_⟩, hlexical, ?_⟩
  · rw [hfirst, hpast]
    exact Nat.lt_add_of_pos_right hpos
  · rw [token, String.toList_ofList]
  · rw [hpast, token, String.toList_ofList, Text.byteSize_append]
  · rw [token, String.toList_ofList]
    exact fun c hc => hw.goesOn_eq_false hc
  · exact fun k hk => hk.kind_unique hlexical

end Scan

/-- Pieces that make up the rest of a text, after a part of it, fill it. -/
theorem Tiles.filled {file : String} {offset : Nat} {cs : List Char} {ts : List Token}
    (h : Tiles file offset cs ts) (before : List Char) (hoffset : Text.byteSize before = offset)
    (hsize : Text.byteSize (before ++ cs) < UInt32.size) : Filled (before ++ cs) offset ts := by
  induction h generalizing before with
  | @gap offset gap hg =>
    have hgap : Text.GapBetween (before ++ gap) offset (Text.byteSize (before ++ gap)) :=
      ⟨before, gap, [], (List.append_nil _).symm, hoffset, rfl, hg⟩
    exact ⟨List.forall_mem_nil _, List.forall_mem_nil _, .nil, .cons hgap .nil⟩
  | @cons offset gap text rest kind ts hg hw _ ih =>
    have hsource : before ++ (gap ++ (text ++ rest)) = before ++ gap ++ text ++ rest := by simp
    have hstart : Text.byteSize (before ++ gap) = offset + Text.byteSize gap := by
      rw [Text.byteSize_append, hoffset]
    have hstop : Text.byteSize (before ++ gap ++ text) =
        offset + Text.byteSize gap + Text.byteSize text := by rw [Text.byteSize_append, hstart]
    rw [hsource] at hsize ⊢
    have htoken := Scan.fills_token file hw hsize
    rw [hstart] at htoken
    rw [Text.byteSize_append, hstop] at hsize
    have hfirst : (Scan.token file (offset + Text.byteSize gap) kind text).span.first =
        offset + Text.byteSize gap := Scan.first_token (by omega)
    have hpast : (Scan.token file (offset + Text.byteSize gap) kind text).span.past =
        offset + Text.byteSize gap + Text.byteSize text := Scan.past_token (by omega)
    have hrest := ih (before ++ gap ++ text) hstop (by rw [Text.byteSize_append, hstop]; exact hsize)
    have hgap : Text.GapBetween (before ++ gap ++ text ++ rest) offset (offset + Text.byteSize gap) :=
      ⟨before, gap, text ++ rest, by simp, hoffset, hstart, hg⟩
    refine ⟨?_, ?_, ?_, ?_⟩
    · exact List.forall_mem_cons.mpr ⟨htoken, hrest.fills⟩
    · refine List.forall_mem_cons.mpr ⟨?_, fun t ht => ?_⟩
      · omega
      · have := hrest.from_offset t ht
        omega
    · rw [List.pairwise_cons, hpast]
      exact ⟨hrest.from_offset, hrest.ordered⟩
    · rw [List.map_cons, List.map_cons, hfirst, hpast]
      exact .cons hgap hrest.gaps

/-- The tokens of a text and the gaps between them make up the text, and the end token is at its end. -/
theorem tokens_tile_source {source file : String} {ts : List Token}
    (hsize : Text.byteSize source.toList < UInt32.size) (h : tokenize source file = .ok ts) :
    ∃ init last, ts = init ++ [last] ∧ last.kind = .eof ∧
      last.span.first = Text.byteSize source.toList ∧ last.span.past = Text.byteSize source.toList ∧
      Filled source.toList 0 init := by
  rw [tokenize_eq] at h
  unfold Scan.result at h
  split at h <;> cases h
  rename_i hnone
  obtain ⟨htiles, hstop⟩ := Scan.tiles_ofChars file 0 source.toList hnone
  rw [Nat.zero_add] at hstop
  have hend : (Position.ofByte file (Text.byteSize source.toList)).offset.toNat =
      Text.byteSize source.toList := Position.toNat_ofByte hsize
  rw [hstop]
  exact ⟨_, _, rfl, rfl, hend, hend, htiles.filled [] rfl hsize⟩

/-- A word that begins like a reserved one, after a blank of three bytes, and a comment at the end. -/
theorem tokens_tile_iffy :
    ∃ ts, Text.byteSize "\u3000iffy<=1.5/*é*/".toList < UInt32.size ∧
      tokenize "\u3000iffy<=1.5/*é*/" "iffy.ou" = .ok ts ∧
      ts.map (fun t => (t.kind, t.span.first, t.span.past)) =
        [(.identifier, 3, 7), (.lessEquals, 7, 9), (.number, 9, 12), (.eof, 18, 18)] ∧
      ∃ init last, ts = init ++ [last] ∧ last.kind = .eof ∧
        last.span.first = Text.byteSize "\u3000iffy<=1.5/*é*/".toList ∧
        last.span.past = Text.byteSize "\u3000iffy<=1.5/*é*/".toList ∧
        Filled "\u3000iffy<=1.5/*é*/".toList 0 init := by
  have hsize : Text.byteSize "\u3000iffy<=1.5/*é*/".toList < UInt32.size := by decide +kernel
  have htokens : tokenize "\u3000iffy<=1.5/*é*/" "iffy.ou" = .ok
      [Scan.token "iffy.ou" 3 .identifier "iffy".toList, Scan.token "iffy.ou" 7 .lessEquals "<=".toList,
        Scan.token "iffy.ou" 9 .number "1.5".toList, .endAt (.ofByte "iffy.ou" 18)] := by
    decide +kernel
  exact ⟨_, hsize, htokens, by decide +kernel, tokens_tile_source hsize htokens⟩

end Cpl
