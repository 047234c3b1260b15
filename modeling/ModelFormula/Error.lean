import ModelFormula.Text.Quoted

/-!
# Faults

Every way in which reading a formula, resolving it or fitting it to data can stop. A fault belongs
to one category, and the faults that the library finds itself also have a wording; those of the
arithmetic below it (an operation that its operands do not support, an index out of range) have
none.
-/
namespace ModelFormula

/-- The kinds of faults that callers tell apart. -/
inductive Fault.Category where
  | scan | parse | resolve | call
  | value | type | key | attribute | index | unassigned | assertion | zeroDivision
deriving DecidableEq, Repr

/-- The place where a closing bracket is missing. -/
inductive Closing where
  | arguments | grouping | braces | level
deriving DecidableEq, Repr

/-- The causes, grouped by the part of the library that finds them. -/
inductive Fault where
  -- Reading a formula.
  | emptyFormula
  | unexpectedCharacter (c : Char)
  | unterminatedString
  | unterminatedName
  | malformedNumber
  | severalTildes
  | missingClosing (place : Closing)
  | invalidTarget
  | invalidLevel
  | nestedLevel
  | unexpectedToken (lexeme : String)
  -- Resolving a formula.
  | unresolvedBinary (kind : String)
  | unresolvedUnary (kind : String)
  | negatedTerm
  | uncallableBinary (kind : String)
  | uncallableUnary (kind : String)
  -- The algebra of terms.
  | groupWithoutIntercept
  | numericInteraction
  | numberInteraction
  | invalidExpression
  | invalidFactor
  | responseSize (count : Nat)
  | responseClass (className : String)
  | modelResponse
  | modelTerm
  | addedResponse
  | addedTerm (className : String)
  | invalidPower
  | componentType (owner className : String)
  -- Fitting.
  | encodingType (className : String)
  | variableTypeUnset
  | variableType (shown : String)
  | callTypeUnset
  | callType (shown : String)
  | strayProportion
  | offsetResponse
  | unseenLevels (levels : List String) (name : String)
  | responseNotProportion
  | unevaluatedMatrix
  -- Arguments of a design.
  | formulaNotText
  | formulaEmpty
  | dataNotFrame
  | dataEmpty
  | missingAction
  | incompleteRows (count : Nat)
  -- Contrasts and levels.
  | contrastShape
  | contrastMatrix
  | contrastLabels
  | contrastLabelItems
  | boxData
  | boxContrast
  | boxLevels
  | referenceLevel
  -- Transforms.
  | noSuccess (success : String)
  | successesCollection
  | trialsCollection
  | successesExceed
  | successesName
  | trialsName
  | offsetKind
  | offsetArgument
  | degreeType (className : String)
  | degreeNegative (degree : String)
  | noKnots
  | freedomType
  | freedomSmall (freedom degree intercept least : String)
  | freedomKnots (freedom degree knots provided : String)
  | boundsCrossed (lower upper : String)
  | knotsShape
  | knotsBelow (knots bound : String)
  | knotsAbove (knots bound : String)
  -- Scopes.
  | unknownName (name : String)
  | scopeDepth
  | scopeType
  -- Below the library's own checks.
  | unsupported
  | noAttribute
  | outOfRange
  | noValue
  | badValue
  | noKey
  | violation
  | divisionByZero
deriving DecidableEq, Repr

namespace Fault

def category : Fault → Category
  | emptyFormula | unexpectedCharacter _ | unterminatedString | severalTildes => .scan
  | missingClosing _ | invalidTarget | invalidLevel | nestedLevel | unexpectedToken _ => .parse
  | unresolvedBinary _ | unresolvedUnary _ | negatedTerm => .resolve
  | uncallableBinary _ | uncallableUnary _ => .call
  | numericInteraction | numberInteraction | scopeType | unsupported => .type
  | unknownName _ | noKey => .key
  | noAttribute => .attribute
  | unterminatedName | outOfRange => .index
  | noValue => .unassigned
  | violation => .assertion
  | divisionByZero => .zeroDivision
  | _ => .value

def closingMessage : Closing → String
  | .arguments => "Expect ')' after arguments."
  | .grouping => "Expect ')' after expression."
  | .braces => "Expect '\x7d' after expression."
  | .level => "Expect ']' after level name."

/-- The wording of a fault that the library finds itself. -/
def message? : Fault → Option String
  | emptyFormula => "'code' is a string of length 0."
  | unexpectedCharacter c => "Unexpected character: " ++ c.toString
  | unterminatedString => "Unterminated string."
  | severalTildes => "There is more than one '~' in model formula"
  | missingClosing place => closingMessage place
  | invalidTarget => "Invalid assignment target."
  | invalidLevel => "Subset notation only allows a string or an identifer."
  | nestedLevel => "Are you using nested brackets? Why?"
  | unexpectedToken lexeme => "Don't know how to parse '" ++ lexeme ++ "'"
  | unresolvedBinary kind => "Couldn't resolve BinaryExpr with otype '" ++ kind ++ "'"
  | unresolvedUnary kind => "Couldn't resolve UnaryExpr with otype '" ++ kind ++ "'"
  | negatedTerm => "Unary negation can only be applied to '0' or '1'"
  | uncallableBinary kind => "Can't resolve call with binary expression of type '" ++ kind ++ "'"
  | uncallableUnary kind => "Can't resolve call with unary expression of type '" ++ kind ++ "'"
  | groupWithoutIntercept => "At least include an intercept in '|' operation"
  | numericInteraction => "Interaction with numeric does not make sense."
  | numberInteraction => "Interaction with numbers does not make sense."
  | invalidExpression => "Invalid LHS expression for group specific term"
  | invalidFactor => "Invalid RHS expression for group specific term"
  | responseSize count =>
    "The response term must contain only one component, not " ++ toString count ++ "."
  | responseClass className => "The response term must be of class Term, not " ++ className ++ "."
  | modelResponse => "Response must be of class Response."
  | modelTerm => "There is a least one term of an unexpected class."
  | addedResponse => "not Response"
  | addedTerm className => "Can't add an object of class " ++ className ++ " to Model."
  | invalidPower => "Power must be a positive integer."
  | componentType owner className =>
    "Can't set type on " ++ owner ++ " because at least one of the components is of the unexpected "
      ++ "type " ++ className ++ "."
  | encodingType className => "Encoding is of unexpected type " ++ className ++ "."
  | variableTypeUnset => "Variable type is not set."
  | variableType shown => "Variable is of an unrecognized type (" ++ shown ++ ")."
  | callTypeUnset => "Call result type is not set."
  | callType shown => "Call result is of an unrecognized type (" ++ shown ++ ")."
  | strayProportion => "'proportion()' can only be used as a response term."
  | offsetResponse => "offset() cannot be used as a response term."
  | unseenLevels levels name =>
    "The levels " ++ ", ".intercalate levels ++ " in '" ++ name
      ++ "' are not present in the original data set."
  | responseNotProportion => "Can't evaluate response term with kind different to 'proportion'"
  | unevaluatedMatrix => "Can't evaluate new data on unevaluated matrix."
  | formulaNotText => "'formula' must be a string."
  | formulaEmpty => "'formula' cannot be an empty string."
  | dataNotFrame => "'data' must be a pandas.DataFrame."
  | dataEmpty => "'data' does not contain any observation."
  | missingAction => "'na_action' must be either 'drop', 'error' or 'pass'"
  | incompleteRows count => "'data' contains " ++ toString count ++ " incomplete rows."
  | contrastShape =>
    "The number of columns in the contrast matrix is not equal to the number of labels"
  | contrastMatrix => "The matrix argument must be a 2d numerical numpy array"
  | contrastLabels => "The labels argument must be a list or a tuple"
  | contrastLabelItems => "The items in the labels argument must be of type 'str'"
  | boxData => "The data argument must be one dimensional array-like"
  | boxContrast => "The contrast argument in must be an instance of Encoding"
  | boxLevels => "The levels beign assigned and the levels in the data differ"
  | referenceLevel => "reference not in levels"
  | noSuccess success => "No value in 'x' is equal to \"" ++ success ++ "\""
  | successesCollection => "'successes' must be a collection of integer numbers"
  | trialsCollection => "'trials' must be a collection of integer numbers"
  | successesExceed => "'successes' cannot be greater than 'trials'"
  | successesName => "'successes' must be a variable name."
  | trialsName => "'trials' must be a variable name or an integer."
  | offsetKind => "offset() can only be used with numeric variables."
  | offsetArgument => "'x' must be a variable name or a number."
  | degreeType className => "'degree' must be an integer, not " ++ className
  | degreeNegative degree => "'degree' must be greater than 0, not " ++ degree
  | noKnots => "Must specify either 'df' or 'knots'"
  | freedomType => "'df' must be either None or integer"
  | freedomSmall freedom degree intercept least =>
    "df=" ++ freedom ++ " is too small for degree=" ++ degree ++ " and intercept=" ++ intercept
      ++ "; it must be >= " ++ least
  | freedomKnots freedom degree knots provided =>
    "df=" ++ freedom ++ " with degree=" ++ degree ++ " implies " ++ knots ++ " knots; but "
      ++ provided ++ " were provided"
  | boundsCrossed lower upper =>
    "'lower_bound' > 'upper_bound' (" ++ lower ++ " > " ++ upper ++ ")"
  | knotsShape => "'knots' must be 1 dimensional"
  | knotsBelow knots bound => "Some knot values " ++ knots ++ " fall below lower bound " ++ bound
  | knotsAbove knots bound => "Some knot values " ++ knots ++ " fall above upper bound " ++ bound
  | unknownName name => Text.quoted name
  | scopeDepth => "call-stack is not that deep!"
  | scopeType => "'env' must be either an integer or an instance of Environment."
  | unterminatedName | malformedNumber | unsupported | noAttribute | outOfRange | noValue
  | badValue | noKey | violation | divisionByZero => none

end Fault

/-- The quoted form in which a class is shown. -/
def classText (name : String) : String := "<class '" ++ name ++ "'>"

end ModelFormula
