import ModelFormula.Scope
import ModelFormula.Value

/-!
# The library of names

The transforms and contrasts that every formula can use, behind the names of its caller.
-/
namespace ModelFormula

/-- The names of the library. -/
def library : List (String × Value) :=
  [("center", .function (.stateful .center)), ("scale", .function (.stateful .scale)),
    ("standardize", .function (.stateful .scale)), ("bs", .function (.stateful .spline)),
    ("poly", .function (.stateful .polynomial)), ("B", .function .binary),
    ("binary", .function .binary), ("C", .function .categorical), ("I", .function .identity),
    ("offset", .function .offset), ("p", .function .proportion), ("prop", .function .proportion),
    ("proportion", .function .proportion), ("S", .function .sumCoded),
    ("T", .function .treatmentCoded), ("Treatment", .contrastType false),
    ("Sum", .contrastType true)]

/-- A scope with the library behind it. -/
def Scope.withLibrary (scope : Scope Value) : Scope Value := scope.extend ⟨0, library⟩

end ModelFormula
