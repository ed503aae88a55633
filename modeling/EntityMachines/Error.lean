import EntityMachines.Value.Printer

/-!
The ways in which reading, evaluating, defining and running can fail, as causes with the data
they name, and the message of each.
-/
namespace EntityMachines

/-- What is wrong with a text that should hold values. -/
inductive ParseFault where
  | endOfInput
  | trailing
  | strayBracket (b : Byte)
  | unterminatedArray
  | arraySeparator
  | unterminatedObject
  | objectKey
  | objectColon
  | objectSeparator
  | truncatedCodeUnit
  | invalidCodeUnit
  | unterminatedString
  | unterminatedEscape
  | unknownEscape
  | incompleteNumber
  | invalidNumber (token : Text)
  | numberOutOfRange (token : Text)
  | unknownLiteral (word : Text)
  | unexpectedByte (b : Byte)
deriving DecidableEq, Repr

namespace ParseFault

/-- The text broke off; more text might make it valid. -/
def isIncomplete : ParseFault → Bool
  | endOfInput | unterminatedArray | unterminatedObject | truncatedCodeUnit
  | unterminatedString | unterminatedEscape | incompleteNumber => true
  | _ => false

def message : ParseFault → Text
  | endOfInput => "unexpected end of input"
  | trailing => "trailing characters after value"
  | strayBracket b => "unexpected '" ++ [b] ++ "'"
  | unterminatedArray => "unterminated array"
  | arraySeparator => "expected ',' or ']' in array"
  | unterminatedObject => "unterminated object"
  | objectKey => "expected string key in object"
  | objectColon => "expected ':' after object key"
  | objectSeparator => "expected ',' or '\x7d' in object"
  | truncatedCodeUnit => "truncated \\u escape"
  | invalidCodeUnit => "invalid \\u escape"
  | unterminatedString => "unterminated string"
  | unterminatedEscape => "unterminated string escape"
  | unknownEscape => "unknown string escape"
  | incompleteNumber => "incomplete number"
  | invalidNumber token => "invalid number: " ++ token
  | numberOutOfRange token => "number out of range: " ++ token
  | unknownLiteral word => "unknown literal: " ++ word
  | unexpectedByte b => "unexpected character '" ++ [b] ++ "'"

end ParseFault

/-- A value of the wrong kind. -/
inductive TypeFault where
  | expected (kind : Kind) (got : Kind)
  | nullClosure
  | notInvocable (got : Kind)
  | notLambda (op : Text) (got : Kind)
  | bindingList
  | bindingPair
  | parameterName
  | parameterList
deriving DecidableEq, Repr

def TypeFault.message : TypeFault → Text
  | expected kind got => "expected " ++ kind.name ++ ", got " ++ got.name
  | nullClosure => "make_closure: null closure"
  | notInvocable got => "invoke: expected closure, got " ++ got.name
  | notLambda op got => op ++ ": expected lambda, got " ++ got.name
  | bindingList => "let: bindings must be an array of [name, expr] pairs"
  | bindingPair => "let: each binding must be [name, expr]"
  | parameterName => "fn: parameter names must be strings"
  | parameterList => "fn: parameters must be a name or an array of names"

/-- What a part of a document has to be. -/
inductive Shape where
  | text | list | object | textOrObject | number | positiveNumber | interval | sources
deriving DecidableEq, Repr

def Shape.describe : Shape → Text
  | text => "a string"
  | list => "an array"
  | object => "an object"
  | textOrObject => "a string or an object"
  | number => "a number"
  | positiveNumber => "a positive number of milliseconds"
  | interval => "'frame', a number or '@config.<name>'"
  | sources => "a state name, a list of names or '*'"

/-- What is wrong with a document that should define a behavior. -/
inductive DefinitionFault where
  | mustBe (subject : Text) (shape : Shape)
  | missingText (subject key : Text)
  | entriesNotTexts (subject : Text)
  | entryNotCall (subject : Text) (entry : Value)
  | entriesNotObjects (subject : Text)
  | emptyStateName
  | emptySources (subject : Text)
  | noStates
  | undeclaredInitial (state : Text)

def DefinitionFault.message : DefinitionFault → Text
  | mustBe subject shape => subject ++ " must be " ++ shape.describe
  | missingText subject key => subject ++ " requires a non-empty '" ++ key ++ "'"
  | entriesNotTexts subject => subject ++ " entries must be strings"
  | entryNotCall subject entry => subject ++ " entries must be calls, got " ++ entry.print
  | entriesNotObjects subject => subject ++ " entries must be objects"
  | emptyStateName => "state name cannot be empty"
  | emptySources subject => subject ++ " cannot be an empty list"
  | noStates => "state machine must have at least one state"
  | undeclaredInitial state => "initial state '" ++ state ++ "' is not declared"

/-- What is wrong with a configuration or with the use of an instance. -/
inductive BehaviorFault where
  | missingConfig (behavior field : Text)
  | disallowedConfig (behavior field : Text) (value : Value)
  | noDefinition (activity : Text)
  | notShared (activity : Text)

def BehaviorFault.message : BehaviorFault → Text
  | missingConfig behavior field => behavior ++ ": missing required config '" ++ field ++ "'"
  | disallowedConfig behavior field value =>
    behavior ++ ": config '" ++ field ++ "' does not allow " ++ value.print
  | noDefinition activity => activity ++ ": instance has no definition"
  | notShared activity => activity ++ ": instance must be owned by a std::shared_ptr"

/-- Why an operator cannot be added to the language. -/
inductive RegistrationFault where
  | emptyName
  | bindingName (name : Text)
  | coreName (name : Text)
  | alreadyDefined (name : Text)
  | emptyOperator (name : Text)
  | emptyFunction (name : Text)
deriving DecidableEq, Repr

def RegistrationFault.message : RegistrationFault → Text
  | emptyName => "name must not be empty"
  | bindingName name => "name must not look like a binding: " ++ name
  | coreName name => "cannot shadow core operator: " ++ name
  | alreadyDefined name => "operator already defined: " ++ name
  | emptyOperator name => "empty operator function for " ++ name
  | emptyFunction name => "empty function for " ++ name

/-- An argument that names nothing or makes no sense. -/
inductive ArgumentFault where
  | unknownDefinition (activity : Text)
  | unknownInstance (activity : Text)
  | tickerPeriod
  | emptyJob
  | unknownJob (id : Nat)
deriving DecidableEq, Repr

def ArgumentFault.message : ArgumentFault → Text
  | unknownDefinition activity => activity ++ ": unknown definition handle"
  | unknownInstance activity => activity ++ ": unknown instance handle"
  | tickerPeriod => "start_ticker: period must be positive"
  | emptyJob => "scheduler submit: empty job function"
  | unknownJob id => "take_result: unknown job " ++ Text.ofNat id

inductive Error where
  | parse (line column : Nat) (fault : ParseFault)
  | unknownOperator (op : Text)
  | missingArgument (op : Text) (position : Nat)
  | type (fault : TypeFault)
  | persistAction (action : Text)
  | repeatCount (count : Float)
  | timeout
  /-- A document defines no behavior; the name is empty where none is known yet. -/
  | definition (owner : Text) (fault : DefinitionFault)
  | notADocument
  | behavior (fault : BehaviorFault)
  | registration (activity : Text) (fault : RegistrationFault)
  | unreadableFile (path : Text)
  | argument (fault : ArgumentFault)
  | unsettledJob (id : Nat)
  /-- The surrounding program failed while it served a call. -/
  | outside (message : Text)
  /-- The surrounding program failed without saying how. -/
  | unnamed

def Error.message : Error → Text
  | parse line column fault =>
    "line " ++ Text.ofNat line ++ ", column " ++ Text.ofNat column ++ ": " ++ fault.message
  | unknownOperator op => "unknown operator: " ++ op
  | missingArgument op position => op ++ ": missing argument " ++ Text.ofNat position
  | type fault => fault.message
  | persistAction action =>
    "persist: action must be create, update or delete, got '" ++ action ++ "'"
  | repeatCount count => "str/repeat: invalid count " ++ Numeral.plain.write count
  | timeout => "Timeout exceeded"
  | definition owner fault =>
    (if owner.isEmpty then ("behavior" : Text) else owner) ++ ": " ++ fault.message
  | notADocument => "behavior document must be an object"
  | behavior fault => fault.message
  | registration activity fault => activity ++ ": " ++ fault.message
  | unreadableFile path => "failed to open file: " ++ path
  | argument fault => fault.message
  | unsettledJob id => "take_result: job " ++ Text.ofNat id ++ " has not settled"
  | outside message => message
  | unnamed => []

end EntityMachines
