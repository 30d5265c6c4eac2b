import AffineFlow.Stmt

/-!
# Written statements
-/
namespace AffineFlow

def VarType.text : VarType → String
  | .int => "int"
  | .ptr => "ptr"
  | .arr => "arr"
  | .unknown => "unk"

def ArithOp.text : ArithOp → String
  | .add => "+"
  | .sub => "-"
  | .mul => "*"
  | .sdiv => "/"
  | .udiv => "/_u"
  | .srem => "%"
  | .urem => "%_u"

def BitwiseOp.text : BitwiseOp → String
  | .and => "&"
  | .or => "|"
  | .xor => "^"

/-- A form as an operand: in parentheses unless it is a constant or a variable. -/
def AffineForm.operandText (names : Naming) (e : AffineForm) : String :=
  if e.isAtomic then e.text names else "(" ++ e.text names ++ ")"

def Guard.text (names : Naming) : Guard → String
  | .constraint c => c.text names
  | .var v => names v

def commaSeparated (items : List String) : String := String.intercalate ", " items

def typedText (names : Naming) (p : TypedVar) : String := names p.1 ++ ":" ++ p.2.text

def CallSite.text (names : Naming) (site : CallSite) : String :=
  (match site.ret with
    | some p => typedText names p ++ " = "
    | none => "") ++
    "call " ++ names site.func ++ "(" ++ commaSeparated (site.args.map (typedText names)) ++ ")"

def Stmt.text (names : Naming) : Stmt → String
  | .assign lhs rhs => names lhs ++ " = " ++ rhs.text names
  | .havoc v => "havoc(" ++ names v ++ ")"
  | .assume c => "assume(" ++ c.text names ++ ")"
  | .arith op lhs a b =>
      names lhs ++ " = " ++ a.operandText names ++ " " ++ op.text ++ " " ++ b.operandText names
  | .bitwise op lhs a b =>
      names lhs ++ " = " ++ a.operandText names ++ " " ++ op.text ++ " " ++ b.operandText names
  | .select lhs guard onTrue onFalse =>
      names lhs ++ " = ite(" ++
        commaSeparated [guard.text names, onTrue.text names, onFalse.text names] ++ ")"
  | .arrayLoad lhs array index elemSize =>
      names lhs ++ " = array_load(" ++
        commaSeparated [names array, index.text names, Nat.repr elemSize] ++ ")"
  | .arrayStore array index value elemSize =>
      "array_store(" ++
        commaSeparated
          [names array, index.text names, value.text names, Nat.repr elemSize] ++ ")"
  | .arrayInit array values =>
      "array_init(" ++ names array ++ ", [" ++ commaSeparated (values.map decimal) ++ "])"
  | .assumeArray array value => "assume_array(" ++ names array ++ ", " ++ decimal value ++ ")"
  | .call site => site.text names
  | .ret v _ => "return " ++ names v
  | .unreachable => "unreachable"

end AffineFlow
