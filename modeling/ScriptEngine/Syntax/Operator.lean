import ScriptEngine.Text.Quoted

/-!
# Operator tokens

The operators of the language and their tokens. A token that names no operator is refused here,
before a tree is built.

## Main definitions

* `ScriptEngine.InfixOp`, `ScriptEngine.PrefixOp`, `ScriptEngine.PostfixOp`,
  `ScriptEngine.AssignOp`: the operators of the four positions;
* `ofToken?` in each of their namespaces: the operator that a token names;
* `ScriptEngine.UnknownOperator`: a token that names none.
-/

namespace ScriptEngine

/-- The position that an operator token was read for. -/
inductive OperatorKind where
  | infixOp
  | prefixOp
  | postfixOp
  | assignment
deriving DecidableEq, Repr

/-- The name of a position inside a message. -/
def OperatorKind.name : OperatorKind → String
  | .infixOp => "infix"
  | .prefixOp => "prefix"
  | .postfixOp => "postfix"
  | .assignment => "assignment"

/-- A token that names no operator of its position. -/
structure UnknownOperator where
  kind : OperatorKind
  token : String
deriving DecidableEq, Repr

def UnknownOperator.message (e : UnknownOperator) : String :=
  "unknown " ++ e.kind.name ++ " operator " ++ Text.quoted e.token

/-- The operators between two operands. -/
inductive InfixOp where
  | add | sub | mul | div | mod | pow
  | xor | shl | shr | bitAnd | bitOr
  | and | or
  | eq | ne | lt | le | gt | ge
deriving DecidableEq, Repr

namespace InfixOp

def token : InfixOp → String
  | .add => "+"
  | .sub => "-"
  | .mul => "*"
  | .div => "/"
  | .mod => "%"
  | .pow => "**"
  | .xor => "^"
  | .shl => "<<"
  | .shr => ">>"
  | .bitAnd => "&"
  | .bitOr => "|"
  | .and => "&&"
  | .or => "||"
  | .eq => "=="
  | .ne => "!="
  | .lt => "<"
  | .le => "<="
  | .gt => ">"
  | .ge => ">="

def name : InfixOp → String
  | add => "Add"
  | sub => "Sub"
  | mul => "Mul"
  | div => "Div"
  | mod => "Mod"
  | pow => "Pow"
  | xor => "Xor"
  | shl => "Shl"
  | shr => "Shr"
  | bitAnd => "BitAnd"
  | bitOr => "BitOr"
  | and => "And"
  | or => "Or"
  | eq => "Eq"
  | ne => "Ne"
  | lt => "Lt"
  | le => "Le"
  | gt => "Gt"
  | ge => "Ge"

/-- Every operator, in the order of their definition. -/
def all : List InfixOp :=
  [add, sub, mul, div, mod, pow, xor, shl, shr, bitAnd, bitOr, and, or, eq, ne, lt, le, gt, ge]

/-- The operator that a token names. -/
def ofToken? (token : String) : Except UnknownOperator InfixOp :=
  match all.find? (·.token == token) with
  | some op => .ok op
  | none => .error ⟨.infixOp, token⟩

/-- The operators that compare their operands. -/
def isComparison : InfixOp → Bool
  | .eq | .ne | .lt | .le | .gt | .ge => true
  | _ => false

@[simp] theorem mem_all (op : InfixOp) : op ∈ all := by
  cases op <;> simp [all]

end InfixOp

/-- The operators before their operand. -/
inductive PrefixOp where
  | neg
  | not
deriving DecidableEq, Repr

def PrefixOp.name : PrefixOp → String
  | neg => "Neg"
  | not => "Not"

/-- The operator that a token names. -/
def PrefixOp.ofToken? : String → Except UnknownOperator PrefixOp
  | "-" => .ok .neg
  | "!" => .ok .not
  | token => .error ⟨.prefixOp, token⟩

/-- The steps by one, written behind a name. -/
inductive PostfixOp where
  | inc
  | dec
deriving DecidableEq, Repr

def PostfixOp.name : PostfixOp → String
  | inc => "Inc"
  | dec => "Dec"

/-- The operator that a token names. -/
def PostfixOp.ofToken? : String → Except UnknownOperator PostfixOp
  | "++" => .ok .inc
  | "--" => .ok .dec
  | token => .error ⟨.postfixOp, token⟩

/-- Plain assignment and the four forms that combine it with an operation. -/
inductive AssignOp where
  | assign
  | add
  | sub
  | mul
  | div
deriving DecidableEq, Repr

namespace AssignOp

/-- The operator that a token names. -/
def ofToken? : String → Except UnknownOperator AssignOp
  | "=" => .ok .assign
  | "+=" => .ok .add
  | "-=" => .ok .sub
  | "*=" => .ok .mul
  | "/=" => .ok .div
  | token => .error ⟨.assignment, token⟩

/-- The operation that an assignment applies to the old value. -/
def operation? : AssignOp → Option InfixOp
  | .assign => none
  | .add => some .add
  | .sub => some .sub
  | .mul => some .mul
  | .div => some .div

/-- The name of the operator inside a message. -/
def name : AssignOp → String
  | .assign => "Assign"
  | .add => "Add"
  | .sub => "Sub"
  | .mul => "Mul"
  | .div => "Div"

end AssignOp

end ScriptEngine
