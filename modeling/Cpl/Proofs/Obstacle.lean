import Cpl.Proofs.Lexicon

/-!
# Where scanning stops

Scanning comes to an end on every text, and it stops early only at a character with which no token starts.

* `Lexeme.Chops.length_le`: no more pieces are cut off than the text has characters;
* `Lexeme.startsNone_of_next?`: the characters with which nothing starts;
* `tokenize_stops_at_obstacle`: a text is scanned to its end, or the diagnostic names the first such character,
  and up to there the text is scanned alone as it is as a part.
-/

namespace Cpl

namespace Lexeme

/-- The pieces are cut off the text one after the other. -/
inductive Chops : List Char → List Lexeme → List Char → Prop
  | nil {cs : List Char} : Chops cs [] cs
  | cons {cs rest : List Char} {l : Lexeme} {ls : List Lexeme} : next? cs = some l →
      Chops l.rest ls rest → Chops cs (l :: ls) rest

/-- Each piece takes a character at least. -/
theorem Chops.length_le {cs rest : List Char} {ls : List Lexeme} (h : Chops cs ls rest) :
    ls.length + rest.length ≤ cs.length := by
  induction h with
  | nil => exact Nat.le_of_eq (Nat.zero_add _)
  | @cons cs rest l ls hl _ ih =>
    have hlt := length_rest_lt hl
    rw [List.length_cons]
    omega

/-- The marks of a single character. -/
def marks : List Char :=
  ['\x7b', '\x7d', '(', ')', '=', '!', '<', '>', ';', ':', ',', '+', '-', '/', '*']

theorem isSpelling_of_mem_marks {c : Char} (h : c ∈ marks) : [c] ∈ Kind.spellings.map Prod.fst := by
  have hall : marks.all (fun c => (Kind.spellings.map Prod.fst).contains [c]) = true := by decide
  exact List.contains_iff_mem.mp (List.all_eq_true.mp hall c h)

/-- No lexeme starts with the character, as the text goes on after it. -/
structure StartsNone (c : Char) (after : List Char) : Prop where
  not_isBlank : Text.isBlank c = false
  not_isAlphanum : c.isAlphanum = false
  not_mem_marks : c ∉ marks
  not_doubled : c = '|' ∨ c = '&' → after.head? ≠ some c

theorem startsNone_of_next? {c : Char} {after : List Char} (h : next? (c :: after) = none) :
    StartsNone c after := by
  obtain ⟨halnum, hblank, hmark⟩ := next?_eq_none_iff.mp h
  have hno (mark : List Char) (hm : mark ∈ Kind.spellings.map Prod.fst) : ¬ mark <+: c :: after := by
    obtain ⟨p, hp, rfl⟩ := List.mem_map.mp hm
    exact hmark p hp
  refine ⟨Text.startsOutside_cons.mp hblank, Text.startsOutside_cons.mp halnum, ?_, ?_⟩
  · intro hc
    exact hno [c] (isSpelling_of_mem_marks hc) ⟨after, rfl⟩
  · intro hc hafter
    obtain ⟨more, rfl⟩ := List.head?_eq_some_iff.mp hafter
    have hdouble : [c, c] ∈ Kind.spellings.map Prod.fst := by rcases hc with rfl | rfl <;> decide
    exact hno [c, c] hdouble ⟨more, rfl⟩

end Lexeme

/-- Scanning ends, well or at an obstacle. The text before the obstacle is scanned into the tokens that were
read before it. -/
theorem tokenize_stops_at_obstacle {source : String} (file : String)
    (hsize : Text.byteSize source.toList < UInt32.size) :
    (∀ pieces rest, Lexeme.Chops source.toList pieces rest →
      pieces.length ≤ source.toList.length) ∧
    ((∃ ts, tokenize source file = .ok ts) ∨
      ∃ before c after, source.toList = before ++ c :: after ∧ Lexeme.StartsNone c after ∧
        tokenize source file =
          .error ⟨.unrecognisedToken c.toString, .ofByte file (Text.byteSize before)⟩ ∧
        (Position.ofByte file (Text.byteSize before)).offset.toNat = Text.byteSize before ∧
        tokenize (String.ofList before) file = .ok ((Reader.start source file).scan.tokens ++
          [.endAt (.ofByte file (Text.byteSize before))])) := by
  constructor
  · intro pieces rest h
    have := h.length_le
    omega
  obtain ⟨before, after, hsplit, hstop, hobstacle, hnone, hsame⟩ :=
    Scan.stop_ofChars file 0 source.toList
  rw [Nat.zero_add] at hstop
  have hscan : (Reader.start source file).scan = Scan.ofChars file 0 source.toList := by
    rw [Reader.scan, Reader.start, Reader.ahead, Text.dropBytes]
  rw [tokenize_eq, Scan.result, hobstacle, hscan]
  cases after with
  | nil => exact .inl ⟨_, rfl⟩
  | cons c after =>
    refine .inr ⟨before, c, after, hsplit, Lexeme.startsNone_of_next? hnone, ?_, ?_, ?_⟩
    · rw [hstop]
      rfl
    · apply Position.toNat_ofByte
      rw [hsplit, Text.byteSize_append] at hsize
      omega
    · rw [tokenize_eq, String.toList_ofList, hsame, Scan.result, hstop]

/-- A bar that stands alone, with a comment and a cast before it. -/
theorem tokenize_stops_at_bar :
    Text.byteSize "a/*||*/static_cast<int>|/".toList < UInt32.size ∧
      ∃ before c after, "a/*||*/static_cast<int>|/".toList = before ++ c :: after ∧
        Lexeme.StartsNone c after ∧
        tokenize "a/*||*/static_cast<int>|/" "bar.ou" =
          .error ⟨.unrecognisedToken c.toString, .ofByte "bar.ou" (Text.byteSize before)⟩ ∧
        (Position.ofByte "bar.ou" (Text.byteSize before)).offset.toNat = Text.byteSize before ∧
        tokenize (String.ofList before) "bar.ou" =
          .ok ((Reader.start "a/*||*/static_cast<int>|/" "bar.ou").scan.tokens ++
            [.endAt (.ofByte "bar.ou" (Text.byteSize before))]) ∧
        (Reader.start "a/*||*/static_cast<int>|/" "bar.ou").scan.tokens =
          [⟨.identifier, "a", ⟨0, "bar.ou"⟩, ⟨1, "bar.ou"⟩⟩,
            ⟨.cast, "static_cast<int>", ⟨7, "bar.ou"⟩, ⟨23, "bar.ou"⟩⟩] := by
  have hsize : Text.byteSize "a/*||*/static_cast<int>|/".toList < UInt32.size := by decide +kernel
  have herror : tokenize "a/*||*/static_cast<int>|/" "bar.ou" =
      .error ⟨.unrecognisedToken "|", .ofByte "bar.ou" 23⟩ := by decide +kernel
  rcases (tokenize_stops_at_obstacle "bar.ou" hsize).2 with ⟨ts, hts⟩ | h
  · rw [herror] at hts
    cases hts
  · obtain ⟨before, c, after, hsplit, hnone, hstop, hoffset, hbefore⟩ := h
    exact ⟨hsize, before, c, after, hsplit, hnone, hstop, hoffset, hbefore, by decide +kernel⟩

end Cpl
