import LiftedPomdp.Definition.Domain

/-!
# Errors

Every error names its cause.  Errors of one stage form one type with a function `message` that
words them, and `SimError` joins the stages.  A `Fault` is an error or an `Abort`: the end of a
computation that has no answer, not even an error.
-/

namespace LiftedPomdp

/-- Texts joined with a separator. -/
def joinTexts (separator : String) : List String → String
  | [] => ""
  | [s] => s
  | s :: ss => s ++ separator ++ joinTexts separator ss

/-- The reasons for which a default is refused. -/
structure DefaultMismatch where
  /-- The range of the default. -/
  found : Range
  /-- The range of the fluent. -/
  expected : Range
  deriving DecidableEq, Repr

namespace DefaultMismatch

/-- The wording of a mismatch. -/
def text (m : DefaultMismatch) : String :=
  m.found.text ++ " default for a " ++ m.expected.text ++ " fluent"

end DefaultMismatch

/-- The reasons for which an expression may not read a fluent. -/
inductive ReadRule where
  /-- The fluent has no value after the transition. -/
  | noNextValue
  /-- The function of a state fluent reads the value that it defines. -/
  | ownNextValue
  /-- The function of a state fluent reads the state after the transition. -/
  | snapshotOnly
  /-- A reward or a constraint reads the state after the transition. -/
  | currentOnly
  /-- The function of an observation reads the observation that it defines. -/
  | ownObservation
  /-- Something other than the function of an observation reads an observation. -/
  | observationHidden
  deriving DecidableEq, Repr

namespace ReadRule

/-- The wording of a rule. -/
def text : ReadRule → String
  | .noNextValue => "only state and observ fluents have next values"
  | .ownNextValue => "a CPF cannot read its own next value"
  | .snapshotOnly =>
    "state CPFs are evaluated against the pre-step snapshot and cannot read next values"
  | .currentOnly => "only current-step values are visible here"
  | .ownObservation => "an observation cannot read itself"
  | .observationHidden => "observations are only visible to other observ CPFs"

end ReadRule

/-- The ways in which an expression is ill-formed whatever it reads. -/
inductive Malformation where
  /-- A term outside a comparison of two terms. -/
  | strayTerm (term : Term)
  /-- Two terms compared by order. -/
  | orderedObjects
  /-- An aggregate without variables. -/
  | noVariables (op : AggregateOp)
  /-- A compared object that no type has. -/
  | unknownObject (object : String)
  deriving DecidableEq, Repr

namespace Malformation

/-- The wording of a malformation. -/
def text : Malformation → String
  | .strayTerm t =>
    "object term '" ++ t.text ++ "' may only appear in an equality comparison"
  | .orderedObjects => "objects only support == and ~="
  | .noVariables op => op.name ++ " binds no variables"
  | .unknownObject o => "unknown object '" ++ o ++ "'"

end Malformation

/-- What is wrong with a domain. -/
inductive ModelError where
  /-- A type that is not declared. -/
  | unknownType (typeName context : String)
  /-- A fluent that is not declared. -/
  | unknownFluent (name context : String)
  /-- A wrong number of arguments. -/
  | arityMismatch (fluent : String) (expected actual : Nat)
  /-- An argument that is no object of the type of the parameter. -/
  | objectOutOfDomain (fluent object typeName : String)
  /-- A variable that nothing binds. -/
  | unboundVariable (var context : String)
  /-- A variable of another type than the parameter that it stands for. -/
  | variableTypeMismatch (var fluent expected actual : String)
  /-- A second declaration of a name. -/
  | duplicate (kind name : String)
  /-- A name that is no identifier. -/
  | invalidIdentifier (name : String)
  /-- A state or observation fluent without a conditional probability function. -/
  | missingCpf (fluent : String)
  /-- A conditional probability function for another fluent. -/
  | unexpectedCpf (fluent : String)
  /-- A default outside the range of its fluent. -/
  | invalidDefault (fluent : String) (reason : DefaultMismatch)
  /-- A fluent that may not be read at this place. -/
  | illegalReference (fluent context : String) (reason : ReadRule)
  /-- An ill-formed expression. -/
  | invalidExpression (context : String) (reason : Malformation)
  /-- Observations that read each other in a circle. -/
  | cyclicDependency (cycle : List String)
  deriving DecidableEq, Repr

namespace ModelError

/-- The wording of an error in a domain. -/
def message : ModelError → String
  | .unknownType t c => "Unknown type '" ++ t ++ "' referenced by " ++ c
  | .unknownFluent f c => "Unknown fluent '" ++ f ++ "' referenced by " ++ c
  | .arityMismatch f expected actual =>
    "Fluent '" ++ f ++ "' expects " ++ Decimal.natText expected ++ " arguments, got " ++
      Decimal.natText actual
  | .objectOutOfDomain f o t =>
    "Object '" ++ o ++ "' is not in the domain of type '" ++ t ++ "' (argument of '" ++ f ++ "')"
  | .unboundVariable v c => "Variable '" ++ v ++ "' is not bound in " ++ c
  | .variableTypeMismatch v f expected actual =>
    "Variable '" ++ v ++ "' has type '" ++ actual ++ "' but '" ++ f ++ "' expects '" ++ expected ++
      "'"
  | .duplicate k n => "Duplicate " ++ k ++ " declaration '" ++ n ++ "'"
  | .invalidIdentifier n => "Invalid identifier '" ++ n ++ "'"
  | .missingCpf f => "Fluent '" ++ f ++ "' has no CPF"
  | .unexpectedCpf f =>
    "CPF declared for '" ++ f ++ "', which is not a state or observ fluent"
  | .invalidDefault f reason => "Invalid default for '" ++ f ++ "': " ++ reason.text
  | .illegalReference f c reason => c ++ " may not read '" ++ f ++ "': " ++ reason.text
  | .invalidExpression c reason => "Invalid expression in " ++ c ++ ": " ++ reason.text
  | .cyclicDependency cycle => "Cyclic CPF dependency: " ++ joinTexts " -> " cycle

end ModelError

/-- What is wrong with an instance. -/
inductive InstantiationError where
  /-- A type in use without objects. -/
  | emptyObjectDomain (typeName : String)
  /-- An instance of another domain. -/
  | domainMismatch («instance» expected actual : String)
  /-- An object declared twice. -/
  | duplicateObject (object : String)
  /-- An object whose name is no identifier. -/
  | invalidObjectName (object : String)
  /-- Objects of a type that the domain does not declare. -/
  | unknownObjectType (typeName : String)
  /-- A value outside the range of its fluent. -/
  | valueTypeMismatch (fluent : String) (expected actual : Range)
  /-- A value for a fluent that is not declared. -/
  | undeclaredFluent (fluent context : String)
  /-- A value for a fluent of the wrong kind. -/
  | wrongFluentKind (fluent context : String) (actual : FluentKind)
  /-- An episode without steps. -/
  | invalidHorizon
  /-- A discount outside the unit interval. -/
  | invalidDiscount (value : Float)
  deriving DecidableEq, Repr

namespace InstantiationError

/-- The wording of an error in an instance. -/
def message : InstantiationError → String
  | .emptyObjectDomain t => "Object domain for type '" ++ t ++ "' is empty"
  | .domainMismatch i expected actual =>
    "Instance '" ++ i ++ "' targets domain '" ++ expected ++ "', got '" ++ actual ++ "'"
  | .duplicateObject o => "Object '" ++ o ++ "' declared more than once"
  | .invalidObjectName o => "Invalid object name '" ++ o ++ "'"
  | .unknownObjectType t => "Objects declared for unknown type '" ++ t ++ "'"
  | .valueTypeMismatch f expected actual =>
    "Value for '" ++ f ++ "' has type " ++ actual.text ++ ", expected " ++ expected.text
  | .undeclaredFluent f c => c ++ " references undeclared fluent '" ++ f ++ "'"
  | .wrongFluentKind f c actual =>
    c ++ " references '" ++ f ++ "', which is a " ++ actual.text ++ " fluent"
  | .invalidHorizon => "Horizon must be > 0"
  | .invalidDiscount x => "Discount " ++ Decimal.realText x ++ " is out of range [0.0, 1.0]"

end InstantiationError

/-- Why an action is refused. -/
inductive ActionError where
  /-- Too many fluents differ from their defaults. -/
  | tooManyNonDefault (max actual : Nat)
  /-- A fluent that is not declared. -/
  | unknownFluent (fluent : String)
  /-- A fluent that is no action. -/
  | notAnAction (fluent : String)
  /-- A wrong number of arguments. -/
  | arityMismatch (fluent : String) (expected actual : Nat)
  /-- An argument that is no object of the type of the parameter. -/
  | unknownObject (fluent object typeName : String)
  /-- A value outside the range of its fluent. -/
  | valueTypeMismatch (fluent : String) (expected actual : Range)
  /-- A ground fluent assigned twice. -/
  | duplicateAssignment (fluent : String)
  /-- A constraint that does not hold. -/
  | constraintViolated (index : Nat)
  deriving DecidableEq, Repr

namespace ActionError

/-- The wording of a refusal. -/
def message : ActionError → String
  | .tooManyNonDefault max actual =>
    "Action has " ++ Decimal.natText actual ++ " non-default fluents, maximum is " ++
      Decimal.natText max
  | .unknownFluent f => "Unknown action fluent '" ++ f ++ "'"
  | .notAnAction f => "'" ++ f ++ "' is not an action fluent"
  | .arityMismatch f expected actual =>
    "Action '" ++ f ++ "' expects " ++ Decimal.natText expected ++ " arguments, got " ++
      Decimal.natText actual
  | .unknownObject f o t =>
    "Object '" ++ o ++ "' is not a valid '" ++ t ++ "' argument for action '" ++ f ++ "'"
  | .valueTypeMismatch f expected actual =>
    "Action '" ++ f ++ "' expects a " ++ expected.text ++ " value, got " ++ actual.text
  | .duplicateAssignment f => "Action '" ++ f ++ "' assigned more than once"
  | .constraintViolated i => "State-action constraint #" ++ Decimal.natText i ++ " is violated"

end ActionError

/-- Why an expression has no value. -/
inductive DomainError where
  /-- A probability outside the unit interval. -/
  | probabilityOutOfRange (value : Float) (context : String)
  /-- Bounds that are not finite or not in order. -/
  | invalidBounds (low high : Float) (context : String)
  /-- A value of the wrong range. -/
  | typeMismatch (expected found : Range) (context : String)
  | divisionByZero (context : String)
  deriving DecidableEq, Repr

namespace DomainError

/-- The wording of an error of evaluation. -/
def message : DomainError → String
  | .probabilityOutOfRange x c =>
    "Bernoulli probability " ++ Decimal.realText x ++ " is out of range [0.0, 1.0] in " ++ c
  | .invalidBounds low high c =>
    "Uniform bounds [" ++ Decimal.realText low ++ ", " ++ Decimal.realText high ++
      ") are invalid in " ++ c
  | .typeMismatch expected found c =>
    "Expected " ++ expected.text ++ ", found " ++ found.text ++ " in " ++ c
  | .divisionByZero c => "Division by zero in " ++ c

end DomainError

/-- Why a configuration is refused. -/
inductive ConfigError where
  /-- A number that must be positive is zero. -/
  | notPositive (field : String)
  /-- A discount outside the unit interval. -/
  | outsideUnit (field : String) (value : Float)
  deriving DecidableEq, Repr

namespace ConfigError

/-- The wording of a refused configuration. -/
def message : ConfigError → String
  | .notPositive field => "Invalid configuration '" ++ field ++ "': must be > 0"
  | .outsideUnit field x =>
    "Invalid configuration '" ++ field ++ "': " ++ Decimal.realText x ++ " is outside [0.0, 1.0]"

end ConfigError

/-- Why an episode takes no step. -/
inductive EpisodeEnded where
  /-- All steps have been taken. -/
  | horizonReached (horizon : Nat)
  /-- The episode has not begun. -/
  | notStarted
  deriving DecidableEq, Repr

namespace EpisodeEnded

/-- The wording of a refused step. -/
def message : EpisodeEnded → String
  | .horizonReached h => "Episode ended after " ++ Decimal.natText h ++ " steps"
  | .notStarted => "Episode has not been reset"

end EpisodeEnded

/-- Failures that no input should bring about, and unreadable documents. -/
inductive InternalError where
  /-- A document that is no definition of the wanted kind. -/
  | unreadable
  /-- A step begun inside a step. -/
  | reentered
  /-- Workers that stopped in the middle of an episode. -/
  | workersLost (count : Nat)
  /-- An episode without a result. -/
  | noResult (index : Nat)
  /-- A worker that could not be started, and why. -/
  | workerNotStarted (reason : String)
  /-- The episodes could not be handed out, and why. -/
  | feederNotStarted (reason : String)
  deriving DecidableEq, Repr

namespace InternalError

/-- The wording of an internal error. -/
def message : InternalError → String
  | .unreadable => "deserialize definition"
  | .reentered => "step re-entered while stepping"
  | .workersLost n => Decimal.natText n ++ " rollout thread(s) panicked"
  | .noResult i => "episode " ++ Decimal.natText i ++ " produced no result"
  | .workerNotStarted reason => "failed to spawn rollout worker: " ++ reason
  | .feederNotStarted reason => "failed to spawn rollout feeder: " ++ reason

end InternalError

/-- An error of any stage. -/
inductive SimError where
  /-- An error in a domain. -/
  | model (e : ModelError)
  /-- An error in an instance. -/
  | instantiation (e : InstantiationError)
  /-- A refused action. -/
  | action (e : ActionError)
  /-- An error of evaluation. -/
  | domain (e : DomainError)
  /-- A refused step. -/
  | episodeEnded (e : EpisodeEnded)
  /-- A refused configuration. -/
  | config (e : ConfigError)
  | internal (e : InternalError)
  deriving DecidableEq, Repr

namespace SimError

/-- The wording of an error, with the stage that it comes from. -/
def message : SimError → String
  | .model e => "Model error: " ++ e.message
  | .instantiation e => "Instantiation error: " ++ e.message
  | .action e => "Action error: " ++ e.message
  | .domain e => "Domain error: " ++ e.message
  | .episodeEnded e => e.message
  | .config e => "Configuration error: " ++ e.message
  | .internal e => "Internal error: " ++ e.message

/-- Whether the error arose while a model was built. -/
def isConstruction : SimError → Bool
  | .model _ | .instantiation _ => true
  | _ => false

/-- Whether an action was refused. -/
def isAction : SimError → Bool
  | .action _ => true
  | _ => false

/-- Whether an evaluation failed. -/
def isDomain : SimError → Bool
  | .domain _ => true
  | _ => false

/-- Whether the episode refused a step. -/
def isEpisodeEnded : SimError → Bool
  | .episodeEnded _ => true
  | _ => false

/-- Whether another step may be tried after the error. -/
def isRecoverable : SimError → Bool
  | .action _ | .domain _ | .episodeEnded .notStarted => true
  | _ => false

end SimError

/-- Why a computation has no answer: it stops before it has one, or it goes on for ever. -/
inductive Abort where
  /-- A place in a table that it does not have. -/
  | outOfRange (index : Nat)
  /-- A name that nothing declares or binds. -/
  | unknownName (name : String)
  /-- An interval whose length is beyond the doubles. -/
  | endlessInterval (low high : Float)
  /-- A draw from an interval that goes on for ever. -/
  | endlessDraw (low high : Float)
  /-- A policy that gives no action. -/
  | policyFailed
  /-- A count that does not have 64 bits. -/
  | overflow (count : Nat)
  /-- More items than there is memory for. -/
  | outOfMemory (items : Nat)
  deriving DecidableEq, Repr

/-- Whether the computation goes on for ever. -/
def Abort.isEndless : Abort → Bool
  | .endlessDraw _ _ => true
  | _ => false

/-- An error, or the end without one. -/
inductive Fault (ε : Type) where
  | error (e : ε)
  /-- No answer. -/
  | abort (a : Abort)
  deriving DecidableEq, Repr

namespace Fault

/-- Changes the error of a fault. -/
def map {ε ε' : Type} (f : ε → ε') : Fault ε → Fault ε'
  | .error e => .error (f e)
  | .abort a => .abort a

end Fault
end LiftedPomdp
