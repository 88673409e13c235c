import Cpl.Grammar.Program

/-!
# Trees written as words

A `Word` is a token without its place: its kind and its text. A tree is written as the words from which
the grammar would read it (`Expression.words`, `Statement.words`, `Program.words`); the places in the tree
play no part.

* `Program.Grammatical`: the trees that the grammar describes. A tree may hold any operator, a case
  may have any label, a declaration may have no names, and an "else" may stand after a branch that ends
  in an "if" without "else", to which it would then belong; none of this is grammatical.
* `Program.bare`: the tree without its places, so that two trees are equal up to places if they have the
  same bare tree.
-/

namespace Cpl

/-- A token without its place. -/
structure Word where
  kind : Kind
  value : String
deriving DecidableEq, Repr

def Token.word (t : Token) : Word :=
  ⟨t.kind, t.value⟩

namespace Kind

/-- Whether words of the kind differ in their text. -/
def isOpen : Kind → Bool
  | number | identifier | cast => true
  | _ => false

/-- The text of the words of a kind, if they all have the same. -/
def spelling : Kind → String
  | eof => "EOF"
  | number => ""
  | identifier => ""
  | cast => ""
  | openCurly => "\x7b"
  | closeCurly => "\x7d"
  | openParen => "("
  | closeParen => ")"
  | assignment => "="
  | equals => "=="
  | not => "!"
  | notEquals => "!="
  | less => "<"
  | lessEquals => "<="
  | greater => ">"
  | greaterEquals => ">="
  | or => "||"
  | and => "&&"
  | semicolon => ";"
  | colon => ":"
  | comma => ","
  | plus => "+"
  | dash => "-"
  | slash => "/"
  | star => "*"
  | kwBreak => "break"
  | kwCase => "case"
  | kwDefault => "default"
  | kwElse => "else"
  | kwFloat => "float"
  | kwIf => "if"
  | kwInput => "input"
  | kwInt => "int"
  | kwOutput => "output"
  | kwSwitch => "switch"
  | kwWhile => "while"

/-- The word of a kind with one spelling. -/
def word (k : Kind) : Word :=
  ⟨k, k.spelling⟩

/-- The kind of the word that spells an operator. What spells none is taken as an end, at which no rule
of the grammar goes on. -/
def ofOperator : String → Kind
  | "+" => plus
  | "-" => dash
  | "*" => star
  | "/" => slash
  | "==" => equals
  | "!=" => notEquals
  | "<" => less
  | "<=" => lessEquals
  | ">" => greater
  | ">=" => greaterEquals
  | _ => eof

end Kind

def Ident.word (i : Ident) : Word :=
  ⟨.identifier, i.name⟩

def Literal.word (l : Literal) : Word :=
  ⟨.number, l.text⟩

def Operator.kind (o : Operator) : Kind :=
  .ofOperator o.symbol

def Operator.word (o : Operator) : Word :=
  ⟨o.kind, o.symbol⟩

namespace Operator

variable {operator : Operator}

theorem symbol_eq_spelling (h : operator.kind ≠ .eof) : operator.symbol = operator.kind.spelling := by
  unfold kind Kind.ofOperator at h ⊢
  split <;> simp_all [Kind.spelling]

/-- A class of kinds has the operators with certain symbols. -/
theorem isOf_kind_iff {isOf : Kind → Bool} {symbols : List String}
    (hkinds : ∀ k ∈ Kind.all, isOf k = true → k ≠ .eof ∧ k.spelling ∈ symbols)
    (hsymbols : ∀ symbol ∈ symbols, isOf (.ofOperator symbol) = true) :
    isOf operator.kind = true ↔ operator.symbol ∈ symbols := by
  constructor
  · intro h
    obtain ⟨hne, hspelling⟩ := hkinds _ (Kind.mem_all _) h
    rwa [symbol_eq_spelling hne]
  · exact hsymbols operator.symbol

theorem isAdditive_iff : operator.kind.isAdditive = true ↔ operator.symbol ∈ ["+", "-"] :=
  isOf_kind_iff (by decide) (by decide)

theorem isMultiplicative_iff : operator.kind.isMultiplicative = true ↔ operator.symbol ∈ ["*", "/"] :=
  isOf_kind_iff (by decide) (by decide)

theorem isRelational_iff :
    operator.kind.isRelational = true ↔ operator.symbol ∈ ["==", "!=", "<", ">", "<=", ">="] :=
  isOf_kind_iff (by decide) (by decide)

end Operator

/-- The word of a cast to the type. -/
def NumType.castWord : NumType → Word
  | int => ⟨.cast, "static_cast<int>"⟩
  | float => ⟨.cast, "static_cast<float>"⟩

/-- The word of the type in a declaration. -/
def NumType.word : NumType → Word
  | int => Kind.kwInt.word
  | float => Kind.kwFloat.word

/-! ## Words -/

mutual

def Expression.words : Expression → List Word
  | .term term => term.words
  | .chain left operator right => left.words ++ [operator.word] ++ right.words

def Term.words : Term → List Word
  | .factor factor => factor.words
  | .chain left operator right => left.words ++ [operator.word] ++ right.words

def Factor.words : Factor → List Word
  | .name ident => [ident.word]
  | .literal literal => [literal.word]
  | .parens inner _ => [Kind.openParen.word] ++ inner.words ++ [Kind.closeParen.word]
  | .cast type inner _ =>
    [type.castWord] ++ [Kind.openParen.word] ++ inner.words ++ [Kind.closeParen.word]

end

mutual

def Condition.words : Condition → List Word
  | .clause clause => clause.words
  | .or left right => left.words ++ [Kind.or.word] ++ right.words

def Clause.words : Clause → List Word
  | .test test => test.words
  | .and left right => left.words ++ [Kind.and.word] ++ right.words

def Test.words : Test → List Word
  | .compare left operator right => left.words ++ [operator.word] ++ right.words
  | .not inner _ =>
    [Kind.not.word] ++ [Kind.openParen.word] ++ inner.words ++ [Kind.closeParen.word]

end

mutual

def Statement.words : Statement → List Word
  | .assign target value _ =>
    [target.word] ++ [Kind.assignment.word] ++ value.words ++ [Kind.semicolon.word]
  | .input target _ =>
    [Kind.kwInput.word] ++ [Kind.openParen.word] ++ [target.word] ++ [Kind.closeParen.word] ++
      [Kind.semicolon.word]
  | .output value _ =>
    [Kind.kwOutput.word] ++ [Kind.openParen.word] ++ value.words ++ [Kind.closeParen.word] ++
      [Kind.semicolon.word]
  | .ifThen condition body _ =>
    [Kind.kwIf.word] ++ [Kind.openParen.word] ++ condition.words ++ [Kind.closeParen.word] ++
      body.words
  | .ifElse condition body other _ =>
    [Kind.kwIf.word] ++ [Kind.openParen.word] ++ condition.words ++ [Kind.closeParen.word] ++
      body.words ++ [Kind.kwElse.word] ++ other.words
  | .loop condition body _ =>
    [Kind.kwWhile.word] ++ [Kind.openParen.word] ++ condition.words ++ [Kind.closeParen.word] ++
      body.words
  | .switch selector cases default _ =>
    [Kind.kwSwitch.word] ++ [Kind.openParen.word] ++ selector.words ++ [Kind.closeParen.word] ++
      [Kind.openCurly.word] ++ casesWords cases ++ [Kind.kwDefault.word] ++ [Kind.colon.word] ++
      default.inside ++ [Kind.closeCurly.word]
  | .leave _ => [Kind.kwBreak.word] ++ [Kind.semicolon.word]
  | .block block => [Kind.openCurly.word] ++ block.inside ++ [Kind.closeCurly.word]

/-- The words between the braces. -/
def Block.inside : Block → List Word
  | ⟨body, _⟩ => statementsWords body

def statementsWords : List Statement → List Word
  | [] => []
  | first :: rest => first.words ++ statementsWords rest

def casesWords : List Case → List Word
  | [] => []
  | ⟨label, body, _⟩ :: rest =>
    [Kind.kwCase.word] ++ [label.word] ++ [Kind.colon.word] ++ body.inside ++ casesWords rest

end

def Block.words (b : Block) : List Word :=
  [Kind.openCurly.word] ++ b.inside ++ [Kind.closeCurly.word]

/-- The words of the names after the first one. -/
def furtherWords : List Ident → List Word
  | [] => []
  | first :: rest => [Kind.comma.word] ++ [first.word] ++ furtherWords rest

/-- Names with commas between them. -/
def identsWords : List Ident → List Word
  | [] => []
  | first :: rest => [first.word] ++ furtherWords rest

def Declaration.words (d : Declaration) : List Word :=
  identsWords d.names ++ [Kind.colon.word] ++ [d.type.word] ++ [Kind.semicolon.word]

def declarationsWords : List Declaration → List Word
  | [] => []
  | first :: rest => first.words ++ declarationsWords rest

/-- The words of the program, without the end. -/
def Program.words (p : Program) : List Word :=
  declarationsWords p.declarations ++ p.body.words

/-! ## Grammatical trees -/

mutual

def Expression.Grammatical : Expression → Prop
  | .term term => term.Grammatical
  | .chain left operator right =>
    left.Grammatical ∧ operator.symbol ∈ ["+", "-"] ∧ right.Grammatical

def Term.Grammatical : Term → Prop
  | .factor factor => factor.Grammatical
  | .chain left operator right =>
    left.Grammatical ∧ operator.symbol ∈ ["*", "/"] ∧ right.Grammatical

def Factor.Grammatical : Factor → Prop
  | .name _ => True
  | .literal _ => True
  | .parens inner _ => inner.Grammatical
  | .cast _ inner _ => inner.Grammatical

end

mutual

def Condition.Grammatical : Condition → Prop
  | .clause clause => clause.Grammatical
  | .or left right => left.Grammatical ∧ right.Grammatical

def Clause.Grammatical : Clause → Prop
  | .test test => test.Grammatical
  | .and left right => left.Grammatical ∧ right.Grammatical

def Test.Grammatical : Test → Prop
  | .compare left operator right =>
    left.Grammatical ∧ operator.symbol ∈ ["==", "!=", "<", ">", "<=", ">="] ∧ right.Grammatical
  | .not inner _ => inner.Grammatical

end

/-- The statement ends in an "if" without "else", by itself or in a loop or an other branch at its
end. -/
def Statement.endsOpen : Statement → Bool
  | .ifThen _ _ _ => true
  | .ifElse _ _ other _ => other.endsOpen
  | .loop _ body _ => body.endsOpen
  | _ => false

mutual

/-- No "else" could belong to an "if" before its own, and all case labels are integers. -/
def Statement.Grammatical : Statement → Prop
  | .assign _ value _ => value.Grammatical
  | .input _ _ => True
  | .output value _ => value.Grammatical
  | .ifThen condition body _ => condition.Grammatical ∧ body.Grammatical
  | .ifElse condition body other _ =>
    condition.Grammatical ∧ body.Grammatical ∧ body.endsOpen = false ∧ other.Grammatical
  | .loop condition body _ => condition.Grammatical ∧ body.Grammatical
  | .switch selector cases default _ =>
    selector.Grammatical ∧ casesGrammatical cases ∧ default.Grammatical
  | .leave _ => True
  | .block block => block.Grammatical

@[inherit_doc Statement.Grammatical]
def Block.Grammatical : Block → Prop
  | ⟨body, _⟩ => statementsGrammatical body

def statementsGrammatical : List Statement → Prop
  | [] => True
  | first :: rest => first.Grammatical ∧ statementsGrammatical rest

def casesGrammatical : List Case → Prop
  | [] => True
  | ⟨label, body, _⟩ :: rest =>
    '.' ∉ label.text.toList ∧ body.Grammatical ∧ casesGrammatical rest

end

/-- Every declaration has a name, and the body is grammatical. -/
structure Program.Grammatical (p : Program) : Prop where
  declarations : ∀ d ∈ p.declarations, d.names ≠ []
  body : p.body.Grammatical

/-! ## Trees without places -/

/-- A place that stands for any other. -/
def Span.nowhere : Span :=
  ⟨⟨0, ""⟩, ⟨0, ""⟩⟩

def Ident.bare (i : Ident) : Ident :=
  ⟨i.name, .nowhere⟩

def Operator.bare (o : Operator) : Operator :=
  ⟨o.symbol, Span.nowhere.start⟩

mutual

def Expression.bare : Expression → Expression
  | .term term => .term term.bare
  | .chain left operator right => .chain left.bare operator.bare right.bare

def Term.bare : Term → Term
  | .factor factor => .factor factor.bare
  | .chain left operator right => .chain left.bare operator.bare right.bare

def Factor.bare : Factor → Factor
  | .name ident => .name ident.bare
  | .literal literal => .literal literal
  | .parens inner _ => .parens inner.bare .nowhere
  | .cast type inner _ => .cast type inner.bare .nowhere

end

mutual

def Condition.bare : Condition → Condition
  | .clause clause => .clause clause.bare
  | .or left right => .or left.bare right.bare

def Clause.bare : Clause → Clause
  | .test test => .test test.bare
  | .and left right => .and left.bare right.bare

def Test.bare : Test → Test
  | .compare left operator right => .compare left.bare operator.bare right.bare
  | .not inner _ => .not inner.bare .nowhere

end

mutual

def Statement.bare : Statement → Statement
  | .assign target value _ => .assign target.bare value.bare .nowhere
  | .input target _ => .input target.bare .nowhere
  | .output value _ => .output value.bare .nowhere
  | .ifThen condition body _ => .ifThen condition.bare body.bare .nowhere
  | .ifElse condition body other _ => .ifElse condition.bare body.bare other.bare .nowhere
  | .loop condition body _ => .loop condition.bare body.bare .nowhere
  | .switch selector cases default _ =>
    .switch selector.bare (bareCases cases) default.bare .nowhere
  | .leave _ => .leave .nowhere
  | .block block => .block block.bare

def Block.bare : Block → Block
  | ⟨body, _⟩ => ⟨bareStatements body, .nowhere⟩

def bareStatements : List Statement → List Statement
  | [] => []
  | first :: rest => first.bare :: bareStatements rest

def bareCases : List Case → List Case
  | [] => []
  | ⟨label, body, _⟩ :: rest => ⟨label, body.bare, .nowhere⟩ :: bareCases rest

end

def Declaration.bare (d : Declaration) : Declaration :=
  ⟨d.names.map Ident.bare, d.type, .nowhere⟩

/-- The program without its places. -/
def Program.bare (p : Program) : Program :=
  ⟨p.declarations.map Declaration.bare, p.body.bare⟩

end Cpl
