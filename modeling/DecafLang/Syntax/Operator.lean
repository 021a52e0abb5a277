/-!
# Operators

The operators of the language, how they are written and which typing rule each follows.
-/

namespace DecafLang

/-- An operator between two operands. -/
inductive BinaryOp where
  | add | sub | mul | div | mod
  | less | lessEqual | greater | greaterEqual
  | equal | notEqual
  | and | or
deriving DecidableEq, Repr, Inhabited

/-- The typing rule an operator follows. -/
inductive OpClass where
  /-- Two ints or two doubles; the result has their type. -/
  | arithmetic
  /-- Two ints or two doubles; the result is a bool. -/
  | relational
  /-- Two operands of which one may stand for the other; the result is a bool. -/
  | equality
  /-- Two bools; the result is a bool. -/
  | logical
deriving DecidableEq, Repr

namespace BinaryOp

/-- Every operator, in the order of the precedence table. -/
def all : List BinaryOp :=
  [add, sub, mul, div, mod, less, lessEqual, greater, greaterEqual, equal, notEqual, and, or]

/-- The typing rule of the operator. -/
def opClass : BinaryOp → OpClass
  | add | sub | mul | div | mod => .arithmetic
  | less | lessEqual | greater | greaterEqual => .relational
  | equal | notEqual => .equality
  | and | or => .logical

/-- The operator as it is written. -/
def symbol : BinaryOp → String
  | add => "+"
  | sub => "-"
  | mul => "*"
  | div => "/"
  | mod => "%"
  | less => "<"
  | lessEqual => "<="
  | greater => ">"
  | greaterEqual => ">="
  | equal => "=="
  | notEqual => "!="
  | and => "&&"
  | or => "||"

/-- The operator that a symbol spells. -/
def ofSymbol? (s : String) : Option BinaryOp := all.find? (·.symbol == s)

end BinaryOp

/-- An operator in front of its operand. -/
inductive UnaryOp where
  | neg
  | not
deriving DecidableEq, Repr, Inhabited

namespace UnaryOp

/-- Both operators. -/
def all : List UnaryOp := [neg, not]

/-- The operator as it is written. -/
def symbol : UnaryOp → String
  | neg => "-"
  | not => "!"

/-- The operator that a symbol spells. -/
def ofSymbol? (s : String) : Option UnaryOp := all.find? (·.symbol == s)

end UnaryOp

/-- An operator behind a variable, which it changes by one. -/
inductive StepOp where
  | increment
  | decrement
deriving DecidableEq, Repr, Inhabited

namespace StepOp

/-- Both operators. -/
def all : List StepOp := [increment, decrement]

/-- The operator as it is written. -/
def symbol : StepOp → String
  | increment => "++"
  | decrement => "--"

/-- The operator that a symbol spells. -/
def ofSymbol? (s : String) : Option StepOp := all.find? (·.symbol == s)

end StepOp

end DecafLang
