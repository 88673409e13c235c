import Cpl.Tree

/-!
# Names in a tree

The names that occur in a part of a tree, as factors or as targets of assignments and inputs, in the
order of the text.
-/

namespace Cpl

mutual

def Expression.names : Expression → List String
  | .term term => term.names
  | .chain left _ right => left.names ++ right.names

def Term.names : Term → List String
  | .factor factor => factor.names
  | .chain left _ right => left.names ++ right.names

def Factor.names : Factor → List String
  | .name ident => [ident.name]
  | .literal _ => []
  | .parens inner _ => inner.names
  | .cast _ inner _ => inner.names

end

mutual

def Condition.names : Condition → List String
  | .clause clause => clause.names
  | .or left right => left.names ++ right.names

def Clause.names : Clause → List String
  | .test test => test.names
  | .and left right => left.names ++ right.names

def Test.names : Test → List String
  | .compare left _ right => left.names ++ right.names
  | .not inner _ => inner.names

end

mutual

def Statement.names : Statement → List String
  | .assign target value _ => target.name :: value.names
  | .input target _ => [target.name]
  | .output value _ => value.names
  | .ifThen condition body _ => condition.names ++ body.names
  | .ifElse condition body other _ => condition.names ++ body.names ++ other.names
  | .loop condition body _ => condition.names ++ body.names
  | .switch selector cases default _ => selector.names ++ casesNames cases ++ default.names
  | .leave _ => []
  | .block block => block.names

def Block.names : Block → List String
  | ⟨body, _⟩ => statementsNames body

def statementsNames : List Statement → List String
  | [] => []
  | first :: rest => first.names ++ statementsNames rest

def casesNames : List Case → List String
  | [] => []
  | ⟨_, body, _⟩ :: rest => body.names ++ casesNames rest

end

theorem Block.names_eq (block : Block) : block.names = statementsNames block.body := by
  obtain ⟨body, span⟩ := block
  rw [Block.names]

theorem casesNames_cons (first : Case) (rest : List Case) :
    casesNames (first :: rest) = statementsNames first.body.body ++ casesNames rest := by
  obtain ⟨label, body, span⟩ := first
  rw [casesNames, Block.names_eq]

end Cpl
