/-!
# Kinds

What a component or term of a model is: numbers, categories, an interaction, and so on. A kind that
the library does not know is kept by its name.
-/
namespace ModelFormula

inductive Kind where
  | numeric | categoric | offset | proportion | interaction | intercept
  | other (name : String)
deriving DecidableEq, Repr

namespace Kind

def text : Kind → String
  | numeric => "numeric"
  | categoric => "categoric"
  | offset => "offset"
  | proportion => "proportion"
  | interaction => "interaction"
  | intercept => "intercept"
  | other name => name

def ofText : String → Kind
  | "numeric" => numeric
  | "categoric" => categoric
  | "offset" => offset
  | "proportion" => proportion
  | "interaction" => interaction
  | "intercept" => intercept
  | name => other name

end Kind

end ModelFormula
