import Cpl.Compile
import Cpl.Proofs.Grammar.Derivation
import Cpl.Proofs.Obstacle
import Mathlib.Data.List.Chain

/-!
# Comments left open

A comment that is not closed is not a comment: its first two characters are scanned as a slash and a star.
No program has these two tokens next to each other, so the text is refused all the same.

* `Clear`: tokens among which no slash is right before a star, and none would be if other such tokens were
  put before or after them;
* `Program.ReadFrom.clear`: the tokens from which a program is read are clear;
* `Scan.exists_slash_star`: where scanning comes to a comment that is left open, it reads a slash and a star;
* `open_comment_refused`: such a text does not compile, and no program is read from tokens with a slash
  right before a star, unless an end token comes before the two.
-/

namespace Cpl

/-! ## Clear tokens -/

/-- A kind that has no part in the start of a comment, and is not the end. -/
def Kind.isPlain : Kind → Bool
  | .slash | .star | .eof => false
  | _ => true

theorem Kind.ne_of_isPlain {k : Kind} (h : k.isPlain = true) :
    k ≠ .eof ∧ k ≠ .star ∧ k ≠ .slash := by
  revert h
  cases k <;> decide

theorem Kind.isPlain_of_isAdditive {k : Kind} (h : k.isAdditive = true) : k.isPlain = true := by
  revert h
  cases k <;> decide

theorem Kind.isPlain_of_isRelational {k : Kind} (h : k.isRelational = true) :
    k.isPlain = true := by
  revert h
  cases k <;> decide

/-- There is no end among the tokens and no slash right before a star; nor do they start with a star or end
with a slash. -/
structure Clear (ts : List Token) : Prop where
  isWritten : ∀ t ∈ ts, t.kind ≠ .eof
  apart : ts.IsChain fun t u => t.kind = .slash → u.kind ≠ .star
  head : ∀ t ∈ ts.head?, t.kind ≠ .star
  last : ∀ t ∈ ts.getLast?, t.kind ≠ .slash

namespace Clear

variable {ts us : List Token} {t : Token} {k : Kind}

theorem nil : Clear [] :=
  ⟨List.forall_mem_nil _, .nil, nofun, nofun⟩

theorem single (h : t.kind = k) (hk : k.isPlain = true) : Clear [t] := by
  subst h
  have hne : t.kind ≠ .eof ∧ t.kind ≠ .star ∧ t.kind ≠ .slash := Kind.ne_of_isPlain hk
  exact ⟨by simpa using hne.1, .singleton t, by simpa using hne.2.1, by simpa using hne.2.2⟩

theorem append (h : Clear ts) (h' : Clear us) : Clear (ts ++ us) := by
  refine ⟨List.forall_mem_append.mpr ⟨h.isWritten, h'.isWritten⟩, ?_, ?_, ?_⟩
  · exact h.apart.append h'.apart fun t ht u _ hslash => absurd hslash (h.last t ht)
  · intro t ht
    rw [List.head?_append, Option.mem_def, Option.or_eq_some_iff] at ht
    obtain ht | ⟨-, ht⟩ := ht
    · exact h.head t ht
    · exact h'.head t ht
  · intro t ht
    rw [List.getLast?_append, Option.mem_def, Option.or_eq_some_iff] at ht
    obtain ht | ⟨-, ht⟩ := ht
    · exact h'.last t ht
    · exact h.last t ht

theorem cons (h : t.kind = k) (hk : k.isPlain = true) (hts : Clear ts) : Clear (t :: ts) :=
  (single h hk).append hts

/-- A slash or a star may stand between other tokens. -/
theorem between (h : Clear ts) (hne : ts ≠ []) (hop : t.kind.isMultiplicative = true) (h' : Clear us)
    (hne' : us ≠ []) : Clear (ts ++ t :: us) := by
  have hhead : (ts ++ t :: us).head? = ts.head? := by
    rw [List.head?_append, List.head?_eq_some_head hne]
    rfl
  have hlast : (ts ++ t :: us).getLast? = us.getLast? := by
    rw [List.getLast?_append, List.getLast?_cons, List.getLast?_eq_some_getLast hne']
    rfl
  refine ⟨?_, ?_, ?_, ?_⟩
  · have hafter : ∀ u ∈ t :: us, u.kind ≠ .eof :=
      List.forall_mem_cons.mpr ⟨Kind.ne_eof_of_isMultiplicative hop, h'.isWritten⟩
    exact List.forall_mem_append.mpr ⟨h.isWritten, hafter⟩
  · refine h.apart.append (h'.apart.cons fun u hu _ => h'.head u hu) ?_
    exact fun t ht u _ hslash => absurd hslash (h.last t ht)
  · rw [hhead]
    exact h.head
  · rw [hlast]
    exact h'.last

/-- Clear tokens at the front of a list come to an end before the star of the first slash and star. -/
theorem exists_next {earlier later rest : List Token} {slash star : Token} (h : Clear ts)
    (hslash : slash.kind = .slash) (hstar : star.kind = .star)
    (heq : earlier ++ slash :: star :: later = ts ++ rest) :
    ∃ t ∈ rest.head?, t ∈ earlier ∨ t = slash ∨ t = star := by
  obtain ⟨extra, hts, hrest⟩ | ⟨extra, hearlier, hrest⟩ := List.append_eq_append_iff.mp heq
  · obtain ⟨-, hfirst⟩ | ⟨extra', hextra, hafter⟩ := List.cons_eq_append_iff.mp hrest
    · exact ⟨slash, congrArg List.head? hfirst, .inr (.inl rfl)⟩
    · obtain ⟨-, hfirst⟩ | ⟨extra'', hextra', -⟩ := List.cons_eq_append_iff.mp hafter
      · exact ⟨star, congrArg List.head? hfirst, .inr (.inr rfl)⟩
      · have hapart := h.apart
        rw [hts, hextra, hextra'] at hapart
        exact absurd hstar (hapart.right_of_append.rel hslash)
  · cases extra with
    | nil => exact ⟨slash, congrArg List.head? hrest, .inr (.inl rfl)⟩
    | cons t extra =>
      refine ⟨t, congrArg List.head? hrest, .inl ?_⟩
      rw [hearlier]
      exact List.mem_append_right ts List.mem_cons_self

end Clear

/-! ## The tokens of a program -/

mutual

theorem Expression.ReadFrom.clear {e : Expression} {ts : List Token} (h : e.ReadFrom ts) :
    Clear ts := by
  cases h with
  | term ht => exact ht.clear
  | chain hl hop hr => exact hl.clear.append (.cons rfl (Kind.isPlain_of_isAdditive hop) hr.clear)

theorem Term.ReadFrom.clear {t : Term} {ts : List Token} (h : t.ReadFrom ts) : Clear ts := by
  cases h with
  | factor hf => exact hf.clear
  | chain hl hop hr => exact hl.clear.between hl.ne_nil hop hr.clear hr.ne_nil

theorem Factor.ReadFrom.clear {f : Factor} {ts : List Token} (h : f.ReadFrom ts) : Clear ts := by
  cases h with
  | name ht => exact .single ht rfl
  | literal ht => exact .single ht rfl
  | parens ho hi hc _ => exact .cons ho rfl (hi.clear.append (.single hc rfl))
  | cast ht _ ho hi hc _ =>
    exact .cons ht rfl (.cons ho rfl (hi.clear.append (.single hc rfl)))

end

mutual

theorem Condition.ReadFrom.clear {d : Condition} {ts : List Token} (h : d.ReadFrom ts) :
    Clear ts := by
  cases h with
  | clause hl => exact hl.clear
  | or hl hop hr => exact hl.clear.append (.cons hop rfl hr.clear)

theorem Clause.ReadFrom.clear {l : Clause} {ts : List Token} (h : l.ReadFrom ts) : Clear ts := by
  cases h with
  | test ht => exact ht.clear
  | and hl hop hr => exact hl.clear.append (.cons hop rfl hr.clear)

theorem Test.ReadFrom.clear {t : Test} {ts : List Token} (h : t.ReadFrom ts) : Clear ts := by
  cases h with
  | compare hl hop hr =>
    exact hl.clear.append (.cons rfl (Kind.isPlain_of_isRelational hop) hr.clear)
  | not hn ho hi hc _ =>
    exact .cons hn rfl (.cons ho rfl (hi.clear.append (.single hc rfl)))

end

mutual

theorem Statement.ReadFrom.clear {s : Statement} {ts : List Token} (h : s.ReadFrom ts) :
    Clear ts := by
  cases h with
  | assign hi he hv hs hts _ =>
    rw [hts]
    exact .cons hi rfl (.cons he rfl (hv.clear.append (.single hs rfl)))
  | input hw ho hi hc hs hts _ =>
    rw [hts]
    exact .cons hw rfl (.cons ho rfl (.cons hi rfl (.cons hc rfl (.single hs rfl))))
  | output hw ho hv hc hs hts _ =>
    rw [hts]
    exact .cons hw rfl (.cons ho rfl (hv.clear.append (.cons hc rfl (.single hs rfl))))
  | ifThen hw ho hd hc hb hts _ =>
    rw [hts]
    exact .cons hw rfl (.cons ho rfl (hd.clear.append (.cons hc rfl hb.clear)))
  | ifElse hw ho hd hc hb he hb' hts _ =>
    rw [hts]
    exact .cons hw rfl (.cons ho rfl (hd.clear.append (.cons hc rfl
      (hb.clear.append (.cons he rfl hb'.clear)))))
  | loop hw ho hd hc hb hts _ =>
    rw [hts]
    exact .cons hw rfl (.cons ho rfl (hd.clear.append (.cons hc rfl hb.clear)))
  | switch hw ho hs hc hb harms hd hl hbody he _ hts _ =>
    rw [hts]
    have hdefault := Clear.cons hd rfl (.cons hl rfl (hbody.clear.append (.single he rfl)))
    exact .cons hw rfl (.cons ho rfl (hs.clear.append (.cons hc rfl (.cons hb rfl
      (harms.clear.append hdefault)))))
  | leave hw hs _ => exact .cons hw rfl (.single hs rfl)
  | block hb => exact hb.clear

theorem Block.ReadFrom.clear {b : Block} {ts : List Token} (h : b.ReadFrom ts) : Clear ts := by
  cases h with
  | mk ho hbody hc _ => exact .cons ho rfl (hbody.clear.append (.single hc rfl))

theorem StatementsFrom.clear {ss : List Statement} {ts : List Token} (h : StatementsFrom ss ts) :
    Clear ts := by
  cases h with
  | nil => exact .nil
  | cons hf hr => exact hf.clear.append hr.clear

theorem CasesFrom.clear {arms : List Case} {ts : List Token} {after : Token}
    (h : CasesFrom arms ts after) : Clear ts := by
  cases h with
  | nil => exact .nil
  | cons hk hn _ hl hbody harms _ _ _ =>
    exact .cons hk rfl (.cons hn rfl (.cons hl rfl (hbody.clear.append harms.clear)))

end

theorem FurtherFrom.clear {names : List Ident} {ts : List Token} (h : FurtherFrom names ts) :
    Clear ts := by
  induction h with
  | nil => exact .nil
  | cons hm hi _ ih => exact .cons hm rfl (.cons hi rfl ih)

theorem Declaration.ReadFrom.clear {d : Declaration} {ts : List Token} (h : d.ReadFrom ts) :
    Clear ts := by
  cases h with
  | @mk _ type _ _ _ _ _ _ _ hi hns hl ht hs hts _ =>
    have htype : type.word.kind.isPlain = true := by cases type <;> rfl
    rw [hts]
    exact .cons hi rfl (hns.clear.append (.cons hl rfl (.cons ht htype (.single hs rfl))))

theorem DeclarationsFrom.clear {ds : List Declaration} {ts : List Token}
    (h : DeclarationsFrom ds ts) : Clear ts := by
  induction h with
  | nil => exact .nil
  | cons hf _ ih => exact hf.clear.append ih

theorem Program.ReadFrom.clear {p : Program} {ts : List Token} (h : p.ReadFrom ts) : Clear ts := by
  cases h with
  | mk hd hb => exact hd.clear.append hb.clear

/-- No program is read from tokens with a slash right before a star, if no end comes before them. -/
theorem Program.exists_error_of_slash_star {earlier later : List Token} {slash star : Token}
    (file : String) (hslash : slash.kind = .slash) (hstar : star.kind = .star)
    (hearlier : ∀ t ∈ earlier, t.kind ≠ .eof) :
    ∃ error, Program.ofTokens (earlier ++ slash :: star :: later) file = .error error := by
  cases hp : Program.ofTokens (earlier ++ slash :: star :: later) file with
  | error error => exact ⟨error, rfl⟩
  | ok p =>
    exfalso
    obtain ⟨ts, rest, htokens, hread, hrest⟩ := Program.readFrom_of_ofTokens hp
    obtain ⟨t, ht, hbefore⟩ := hread.clear.exists_next hslash hstar htokens
    have heof := hrest t ht
    obtain hmem | rfl | rfl := hbefore
    · exact hearlier t hmem heof
    · rw [hslash] at heof
      cases heof
    · rw [hstar] at heof
      cases heof

/-! ## Scanning -/

namespace Lexeme

/-- A mark of one character with which no longer one starts. -/
theorem next?_of_lone_mark {c : Char} {kind : Kind} {rest : List Char}
    (hmem : ([c], kind) ∈ Kind.spellings)
    (hlone : ∀ p ∈ Kind.spellings, p.1.head? = some c → p.1 = [c])
    (hcomment : ∀ comment, IsComment comment → ¬ comment <+: c :: rest) :
    next? (c :: rest) = some ⟨some kind, [c], rest⟩ := by
  apply next?_of_mark hmem
  · intro p hp hstart
    cases hspelling : p.1 with
    | nil => exact List.nil_prefix
    | cons d ds =>
      rw [hspelling] at hstart
      obtain ⟨rfl, -⟩ := List.cons_prefix_cons.mp hstart
      have hd := hlone p hp (by rw [hspelling]; rfl)
      rw [hspelling] at hd
      exact ⟨[], (List.append_nil _).trans hd⟩
  · exact hcomment

/-- A comment that is left open is a slash, for a start. -/
theorem next?_of_open_comment {after : List Char} (h : ¬ ['*', '/'] <:+: after) :
    next? ('/' :: '*' :: after) = some ⟨some .slash, ['/'], '*' :: after⟩ := by
  refine next?_of_lone_mark (by decide) (by decide) ?_
  intro comment hcomment hstart
  obtain ⟨body, -, rfl⟩ := hcomment
  obtain ⟨rest, hrest⟩ := hstart
  apply h
  refine ⟨body, rest, ?_⟩
  exact (List.cons.inj (List.cons.inj hrest).2).2

theorem next?_star (after : List Char) :
    next? ('*' :: after) = some ⟨some .star, ['*'], after⟩ := by
  refine next?_of_lone_mark (by decide) (by decide) ?_
  intro comment hcomment hstart
  obtain ⟨body, -, rfl⟩ := hcomment
  obtain ⟨rest, hrest⟩ := hstart
  cases (List.cons.inj hrest).1

end Lexeme

namespace Scan

/-- The tokens of what comes after some pieces are read after the tokens of the pieces. -/
theorem exists_tokens_of_chops (file : String) {cs rest : List Char} {pieces : List Lexeme}
    (h : Lexeme.Chops cs pieces rest) (offset : Nat) :
    ∃ earlier, (ofChars file offset cs).tokens = earlier ++
      (ofChars file (offset + Text.byteSize (pieces.flatMap Lexeme.text)) rest).tokens := by
  induction h generalizing offset with
  | nil => exact ⟨[], rfl⟩
  | @cons cs rest l ls hl _ ih =>
    obtain ⟨earlier, hearlier⟩ := ih (offset + Text.byteSize l.text)
    rw [List.flatMap_cons, Text.byteSize_append, ← Nat.add_assoc]
    rw [ofChars_of_some file offset hl]
    cases l.kind with
    | none => exact ⟨earlier, hearlier⟩
    | some kind =>
      exact ⟨token file offset kind l.text :: earlier,
        congrArg (List.cons (token file offset kind l.text)) hearlier⟩

/-- Where the scan comes to a comment that is left open, it reads a slash and a star. -/
theorem exists_slash_star (file : String) {cs after : List Char} {pieces : List Lexeme}
    (h : Lexeme.Chops cs pieces ('/' :: '*' :: after)) (hopen : ¬ ['*', '/'] <:+: after)
    (offset : Nat) :
    ∃ earlier later, (ofChars file offset cs).tokens = earlier ++
      token file (offset + Text.byteSize (pieces.flatMap Lexeme.text)) .slash ['/'] ::
      token file (offset + Text.byteSize (pieces.flatMap Lexeme.text) + 1) .star ['*'] ::
      later := by
  obtain ⟨earlier, hearlier⟩ := exists_tokens_of_chops file h offset
  rw [ofChars_of_some file _ (Lexeme.next?_of_open_comment hopen)] at hearlier
  dsimp only at hearlier
  rw [ofChars_of_some file _ (Lexeme.next?_star after)] at hearlier
  exact ⟨earlier, _, hearlier⟩

end Scan

/-- A text in which a comment is left open does not compile: where scanning comes to it, a slash and a star
are read. From tokens with a slash right before a star no program is read, if no end comes before them. -/
theorem open_comment_refused :
    (∀ (source file : String) (pieces : List Lexeme) (after : List Char),
      Lexeme.Chops source.toList pieces ('/' :: '*' :: after) → ¬ ['*', '/'] <:+: after →
      (∃ earlier later, (Reader.start source file).scan.tokens = earlier ++
        Scan.token file (Text.byteSize (pieces.flatMap Lexeme.text)) .slash ['/'] ::
        Scan.token file (Text.byteSize (pieces.flatMap Lexeme.text) + 1) .star ['*'] :: later) ∧
      ∃ error, compileSource source file = .error error) ∧
    ∀ (earlier later : List Token) (slash star : Token) (file : String),
      slash.kind = .slash → star.kind = .star → (∀ t ∈ earlier, t.kind ≠ .eof) →
      ∃ error, Program.ofTokens (earlier ++ slash :: star :: later) file = .error error := by
  constructor
  · intro source file pieces after hchops hopen
    have hscan : (Reader.start source file).scan = Scan.ofChars file 0 source.toList := by
      rw [Reader.scan, Reader.start, Reader.ahead, Text.dropBytes]
    obtain ⟨earlier, later, htokens⟩ := Scan.exists_slash_star file hchops hopen 0
    rw [Nat.zero_add] at htokens
    refine ⟨⟨earlier, later, hscan ▸ htokens⟩, ?_⟩
    rw [compileSource, Program.ofSource, tokenize_eq, Scan.result]
    cases (Scan.ofChars file 0 source.toList).obstacle with
    | some c => exact ⟨_, rfl⟩
    | none =>
      have hearlier : ∀ t ∈ earlier, t.kind ≠ .eof := by
        intro t ht
        refine (Scan.lexical_ofChars file 0 source.toList t ?_).ne_eof
        rw [htokens]
        exact List.mem_append_left _ ht
      have hrefused : ∃ error, Program.ofTokens ((Scan.ofChars file 0 source.toList).tokens ++
          [.endAt (.ofByte file (Scan.ofChars file 0 source.toList).stop)]) file =
            .error error := by
        rw [htokens, List.append_assoc]
        exact Program.exists_error_of_slash_star file rfl rfl hearlier
      obtain ⟨error, herror⟩ := hrefused
      refine ⟨error, ?_⟩
      show (Program.ofTokens _ file >>= Program.compile) = _
      rw [herror]
      rfl
  · intro earlier later slash star file hslash hstar hearlier
    exact Program.exists_error_of_slash_star file hslash hstar hearlier

/-- The star at the start of a comment is not that of its end. -/
theorem open_comment_refused_at_one_star :
    Lexeme.Chops "\x7b\x7d/*/".toList
      [⟨some .openCurly, ['\x7b'], "\x7d/*/".toList⟩, ⟨some .closeCurly, ['\x7d'], "/*/".toList⟩]
      ('/' :: '*' :: ['/']) ∧
    ¬ ['*', '/'] <:+: ['/'] ∧
    ((∃ earlier later, (Reader.start "\x7b\x7d/*/" "star.ou").scan.tokens = earlier ++
        Scan.token "star.ou" 2 .slash ['/'] :: Scan.token "star.ou" 3 .star ['*'] :: later) ∧
      ∃ error, compileSource "\x7b\x7d/*/" "star.ou" = .error error) ∧
    ∃ error, Program.ofTokens ([Scan.token "star.ou" 0 .openCurly ['\x7b']] ++
      Scan.token "star.ou" 1 .slash ['/'] :: Scan.token "star.ou" 2 .star ['*'] :: []) "star.ou" =
        .error error := by
  have hchops : Lexeme.Chops "\x7b\x7d/*/".toList
      [⟨some .openCurly, ['\x7b'], "\x7d/*/".toList⟩, ⟨some .closeCurly, ['\x7d'], "/*/".toList⟩]
      ('/' :: '*' :: ['/']) := .cons (by decide +kernel) (.cons (by decide +kernel) .nil)
  have hopen : ¬ ['*', '/'] <:+: ['/'] := by decide
  refine ⟨hchops, hopen, open_comment_refused.1 _ _ _ _ hchops hopen, ?_⟩
  exact open_comment_refused.2 _ _ _ _ _ rfl rfl (by decide)

/-- A block and an end, with a slash and a star behind them. -/
def behindEnd : List Token :=
  [Scan.token "prog.ou" 0 .openCurly ['\x7b'], Scan.token "prog.ou" 1 .closeCurly ['\x7d'],
    .endAt (.ofByte "prog.ou" 2), Scan.token "prog.ou" 2 .slash ['/'],
    Scan.token "prog.ou" 3 .star ['*']]

/-- What comes behind an end is not looked at. -/
theorem behindEnd_read :
    behindEnd.map Token.kind = [.openCurly, .closeCurly, .eof, .slash, .star] ∧
      ∃ p, Program.ofTokens behindEnd "prog.ou" = .ok p := by
  have hread : (Program.ofTokens behindEnd "prog.ou").toOption.isSome = true := by decide +kernel
  refine ⟨rfl, ?_⟩
  cases hp : Program.ofTokens behindEnd "prog.ou" with
  | error error =>
    rw [hp] at hread
    cases hread
  | ok p => exact ⟨p, rfl⟩

end Cpl
