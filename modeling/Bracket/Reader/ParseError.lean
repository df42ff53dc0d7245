import Bracket.Reader.Word

/-!
# Bracket.Reader.ParseError

Why a text is no program. Positions count bytes of UTF-8.
-/

namespace Bracket
namespace Reader

inductive ParseError where
  | unknownOperator (text : String) (position : Nat)
  | unclosedLiteral (position : Nat)
  | unopenedBracket (position : Nat)
  | unclosedBracket (count : Nat)
  | expectedOpening (after : Keyword) (position : Nat)
  | misplacedKeyword (keyword expected : Keyword) (position : Nat)
  | expectedName (after : Keyword) (position : Nat)
  | unclosedPipe (position : Nat)
  | invalidNumber (text : String) (position : Nat)
  | nestingLimit (limit position : Nat)
  | incompleteConstruct (construct : Keyword)
deriving DecidableEq

namespace ParseError

def located (position : Nat) (text : String) : String :=
  "Error at " ++ toString position ++ ": " ++ text

def message : ParseError → String
  | .unknownOperator text position => located position ("Unknown operator '" ++ text ++ "'.")
  | .unclosedLiteral position => located position "Unclosed literal."
  | .unopenedBracket position => located position "Bracket not opened before closing."
  | .unclosedBracket count =>
    "Error at end of input: " ++ toString count ++ " bracket(s) left open."
  | .expectedOpening after position =>
    located position ("Expected '(' after '" ++ after.spelling ++ "'.")
  | .misplacedKeyword keyword expected position =>
    located position
      ("'" ++ keyword.spelling ++ "' must directly follow '" ++ expected.spelling ++ "'.")
  | .expectedName after position =>
    located position ("Expected a name after '" ++ after.spelling ++ "'.")
  | .unclosedPipe position => located position "Expected closing '|' after function parameter."
  | .invalidNumber text position => located position ("Invalid number '" ++ text ++ "'.")
  | .nestingLimit limit position =>
    located position ("Brackets nested deeper than " ++ toString limit ++ ".")
  | .incompleteConstruct construct =>
    "Error: Incomplete '" ++ construct.spelling ++ "' construct."

end ParseError

end Reader
end Bracket
