import EntityMachines.Text

/-!
The operators that every expression can use, in six families, and their names.
-/
namespace EntityMachines

inductive ArithmeticOp where
  | add | subtract | multiply | divide | modulo | abs | min | max | floor | ceil | round | clamp
deriving DecidableEq, Repr

inductive ComparisonOp where
  | equal | notEqual | less | greater | lessEqual | greaterEqual | isMatch
deriving DecidableEq, Repr

inductive LogicOp where
  | and | or | not | choose
deriving DecidableEq, Repr

inductive ControlOp where
  | bind | sequence | when | lambda
deriving DecidableEq, Repr

inductive CollectionOp where
  | map | filter | find | count | sum | first | last | nth | concat | includes | empty
deriving DecidableEq, Repr

inductive EffectOp where
  | set | setDynamic | increment | decrement | emit | navigate | persist | notify | spawn | despawn
  | callService | renderUi
deriving DecidableEq, Repr

inductive CoreOp where
  | arithmetic (op : ArithmeticOp)
  | comparison (op : ComparisonOp)
  | logic (op : LogicOp)
  | control (op : ControlOp)
  | collection (op : CollectionOp)
  | effect (op : EffectOp)
deriving DecidableEq, Repr

def ArithmeticOp.name : ArithmeticOp → Text
  | add => "+"
  | subtract => "-"
  | multiply => "*"
  | divide => "/"
  | modulo => "%"
  | abs => "abs"
  | min => "min"
  | max => "max"
  | floor => "floor"
  | ceil => "ceil"
  | round => "round"
  | clamp => "clamp"

def ComparisonOp.name : ComparisonOp → Text
  | equal => "="
  | notEqual => "!="
  | less => "<"
  | greater => ">"
  | lessEqual => "<="
  | greaterEqual => ">="
  | isMatch => "matches"

def LogicOp.name : LogicOp → Text
  | and => "and"
  | or => "or"
  | not => "not"
  | choose => "if"

def ControlOp.name : ControlOp → Text
  | bind => "let"
  | sequence => "do"
  | when => "when"
  | lambda => "fn"

def CollectionOp.name : CollectionOp → Text
  | map => "map"
  | filter => "filter"
  | find => "find"
  | count => "count"
  | sum => "sum"
  | first => "first"
  | last => "last"
  | nth => "nth"
  | concat => "concat"
  | includes => "includes"
  | empty => "empty"

def EffectOp.name : EffectOp → Text
  | set => "set"
  | setDynamic => "set-dynamic"
  | increment => "increment"
  | decrement => "decrement"
  | emit => "emit"
  | navigate => "navigate"
  | persist => "persist"
  | notify => "notify"
  | spawn => "spawn"
  | despawn => "despawn"
  | callService => "call-service"
  | renderUi => "render-ui"

namespace CoreOp

def name : CoreOp → Text
  | arithmetic op => op.name
  | comparison op => op.name
  | logic op => op.name
  | control op => op.name
  | collection op => op.name
  | effect op => op.name

def arithmeticOps : List ArithmeticOp :=
  [.add, .subtract, .multiply, .divide, .modulo, .abs, .min, .max, .floor, .ceil, .round, .clamp]

def comparisonOps : List ComparisonOp :=
  [.equal, .notEqual, .less, .greater, .lessEqual, .greaterEqual, .isMatch]

def logicOps : List LogicOp := [.and, .or, .not, .choose]

def controlOps : List ControlOp := [.bind, .sequence, .when, .lambda]

def collectionOps : List CollectionOp :=
  [.map, .filter, .find, .count, .sum, .first, .last, .nth, .concat, .includes, .empty]

def effectOps : List EffectOp :=
  [.set, .setDynamic, .increment, .decrement, .emit, .navigate, .persist, .notify, .spawn, .despawn,
    .callService, .renderUi]

/-- All operators, family by family. -/
def all : List CoreOp :=
  arithmeticOps.map arithmetic ++ comparisonOps.map comparison ++ logicOps.map logic
    ++ controlOps.map control ++ collectionOps.map collection ++ effectOps.map effect

def table : List (Text × CoreOp) := all.map fun op => (op.name, op)

def ofName? (name : Text) : Option CoreOp := table.lookup name

/-- The number of the family of an operator, and the place of the operator in its family. -/
def place : CoreOp → Nat × Nat
  | arithmetic op => (0, arithmeticOps.idxOf op)
  | comparison op => (1, comparisonOps.idxOf op)
  | logic op => (2, logicOps.idxOf op)
  | control op => (3, controlOps.idxOf op)
  | collection op => (4, collectionOps.idxOf op)
  | effect op => (5, effectOps.idxOf op)

end CoreOp

end EntityMachines
