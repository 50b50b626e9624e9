import ScriptEngine.Number.Double
import ScriptEngine.Syntax.Operator

/-!
# Trees of the language

Expressions, statements and programs. A block is a list of statements, and so is a program.

## Main definitions

* `ScriptEngine.Expr`, `ScriptEngine.Statement`: the trees;
* `ScriptEngine.Statement.isExpression`: the statements that leave a value;
* `ScriptEngine.Block.endsWithReturn`: the blocks that end by returning.
-/

namespace ScriptEngine

mutual

/-- An expression. Blocks occur as the branches of `cond` and `switch` and as the bodies of
functions. -/
inductive Expr where
  | nil
  | bool (b : Bool)
  | int (n : Int64)
  | float (f : Double)
  | str (s : String)
  /-- A text with pieces that are computed. -/
  | template (pieces : List Fragment)
  | ident (name : String)
  | unary (op : PrefixOp) (operand : Expr)
  | binary (op : InfixOp) (left right : Expr)
  /-- The choice between two expressions. -/
  | ternary (condition ifTrue ifFalse : Expr)
  /-- The choice between two blocks, the second of which may be missing. -/
  | cond (condition : Expr) (consequence : List Statement)
      (alternative : Option (List Statement))
  | switch (subject : Expr) (cases : List Case) (default : Option (List Statement))
  | call (callee : Expr) (args : List Expr)
  /-- A call of an attribute of a value. -/
  | method (object : Expr) (name : String) (args : List Expr)
  | attr (object : Expr) (name : String)
  | index (object index : Expr)
  /-- The items between two bounds, each of which may be missing. -/
  | slice (object : Expr) (start stop : Option Expr)
  | list (items : List Expr)
  | map (entries : List (Expr × Expr))
  | set (items : List Expr)
  /-- Membership, or its opposite if `negated`. -/
  | contains (item container : Expr) (negated : Bool)
  /-- A value that is handed from stage to stage. -/
  | pipe (stages : List Expr)
  | func (f : Func)

/-- A piece of a template: a fixed text, or a place for a value that may be left empty. -/
inductive Fragment where
  | text (s : String)
  | hole (e : Option Expr)

/-- The case of a switch: the values it stands for and its body. -/
inductive Case where
  | mk (values : List Expr) (body : Option (List Statement))

/-- A parameter and its default. -/
inductive Param where
  | mk (name : String) (default : Option Expr)

/-- A function literal or declaration. -/
inductive Func where
  | mk (name : Option String) (params : List Param) (body : List Statement)

/-- A statement. -/
inductive Statement where
  | var (name : String) (value : Expr)
  | const (name : String) (value : Expr)
  /-- The declaration of several names by the items of one list. -/
  | multiVar (names : List String) (value : Expr)
  | assign (name : String) (op : AssignOp) (value : Expr)
  | assignIndex (object index : Expr) (op : AssignOp) (value : Expr)
  | setAttr (object : Expr) (name : String) (value : Expr)
  | step (name : String) (op : PostfixOp)
  | ret (value : Option Expr)
  | brk
  | cont
  | endlessLoop (body : List Statement)
  | whileLoop (condition : Expr) (body : List Statement)
  | forLoop (init : Option Statement) (condition : Option Expr) (post : Option Statement)
      (body : List Statement)
  /-- A loop over the entries of a value, which binds the key and the value of each. -/
  | rangeLoop (names : List String) (iterable : Expr) (body : List Statement)
  | func (f : Func)
  | expr (e : Expr)

end

/-- A statement list in its own scope. -/
abbrev Block := List Statement

/-- A batch of statements at the top level. -/
abbrev Program := List Statement

instance : Inhabited Expr := ⟨.nil⟩

namespace Param

def name : Param → String
  | mk name _ => name

def default : Param → Option Expr
  | mk _ default => default

end Param

namespace Func

def name : Func → Option String
  | mk name _ _ => name

def params : Func → List Param
  | mk _ params _ => params

def body : Func → Block
  | mk _ _ body => body

def paramNames (f : Func) : List String :=
  f.params.map Param.name

end Func

/-- **Expression statements** are the statements that leave a value behind. -/
def Statement.isExpression : Statement → Bool
  | .expr _ => true
  | _ => false

def Statement.isReturn : Statement → Bool
  | .ret _ => true
  | _ => false

/-- Whether the last statement of a block is a return. -/
def Block.endsWithReturn (b : Block) : Bool :=
  b.getLast?.any Statement.isReturn

end ScriptEngine
