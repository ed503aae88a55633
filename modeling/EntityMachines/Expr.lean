import EntityMachines.Value.Path

/-!
Expressions are values. An array with a text at its front is a call of the operator of that
name, and a text after an `@` is a binding, which reads from the data around the expression.
-/
namespace EntityMachines

namespace Expr

def isCall : Value → Bool
  | .array (.string _ :: _) => true
  | _ => false

def operator? : Value → Option Text
  | .array (.string op :: _) => some op
  | _ => none

def arguments : Value → List Value
  | .array (.string _ :: args) => args
  | _ => []

def call (op : Text) (args : List Value) : Value := .array (.string op :: args)

def isBinding : Value → Bool
  | .string (b :: _) => b == '@'
  | _ => false

/-- A node of an expression, with the array around it and its place there. -/
structure Visit where
  node : Value
  parent : Option Value
  index : Nat

mutual

/-- The nodes of an expression, each before the items in it. Members of maps are not visited. -/
def walkFrom (parent : Option Value) (index : Nat) : Value → List Visit
  | .array items => ⟨.array items, parent, index⟩ :: walkItems (.array items) 0 items
  | v => [⟨v, parent, index⟩]

def walkItems (parent : Value) (index : Nat) : List Value → List Visit
  | [] => []
  | item :: rest => walkFrom (some parent) index item ++ walkItems parent (index + 1) rest

end

def walk (e : Value) : List Visit := walkFrom none 0 e

def bindings (e : Value) : List Text :=
  (walk e).filterMap fun visit =>
    match visit.node with
    | .string s => if isBinding (.string s) then some s else none
    | _ => none

end Expr

/-- Where a binding reads: from the data around an expression, or from a named entity. -/
inductive BindingKind where
  | core | entity
deriving DecidableEq, Repr

structure Binding where
  root : Text
  path : Path
  /-- The whole text, with the mark. -/
  written : Text
deriving DecidableEq, Repr

namespace Binding

def coreRoots : List Text :=
  ["entity", "payload", "state", "now", "config", "computed", "trait"].map Text.ofString

def isCoreRoot (root : Text) : Bool := coreRoots.contains root

def kind (b : Binding) : BindingKind := if isCoreRoot b.root then .core else .entity

/-- A binding is an `@`, a root that is not empty, and the keys of a path behind dots. -/
def ofText? (text : Text) : Option Binding :=
  match text with
  | mark :: rest =>
    if mark != '@' || rest.isEmpty then none
    else
      match Path.ofText rest with
      | [] => none
      | root :: path => if root.isEmpty then none else some ⟨root, path, text⟩
  | [] => none

/-- A binding that can mean something: named entities are read by field, the state and the time
have no parts. -/
def isValid (text : Text) : Bool :=
  match ofText? text with
  | none => false
  | some b =>
    match b.kind with
    | .entity => !b.path.isEmpty
    | .core => if b.root = "state" ∨ b.root = "now" then b.path.isEmpty else true

/-- A name without the mark of a binding. -/
def bareName (name : Text) : Text :=
  match name with
  | b :: rest => if b == '@' then rest else name
  | [] => []

end Binding

end EntityMachines
