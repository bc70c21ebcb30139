import LiftedPomdp.Definition.Validation
import LiftedPomdp.Document.Domain
import LiftedPomdp.Document.Instance
import LiftedPomdp.Ground.Dependency
import LiftedPomdp.Ground.Model
import LiftedPomdp.Hash.Blake3
import LiftedPomdp.Json.Printer
import LiftedPomdp.Memory

/-!
# Grounding

`Model.ground` expands a domain over the objects of an instance.  It checks both definitions and
that they fit together, lays out the blocks of the fluents, fills the tables, and compiles all
expressions.  The first violation, in this order, is reported.
-/

namespace LiftedPomdp
namespace Grounding

/-- A computation that fails with an error of any stage or has no answer. -/
abbrev Attempt := Except (Fault SimError)

/-- An error in a domain as the end of a grounding. -/
def modelFault {α : Type} (e : ModelError) : Attempt α :=
  .error (.error (.model e))

/-- An error in an instance as the end of a grounding. -/
def instantiationFault {α : Type} (e : InstantiationError) : Attempt α :=
  .error (.error (.instantiation e))

/-- A check of a domain as a part of a grounding. -/
def ofModel {α : Type} : Except ModelError α → Attempt α
  | .ok a => .ok a
  | .error e => modelFault e

/-- A check of an instance as a part of a grounding. -/
def ofInstantiation {α : Type} : Except InstantiationError α → Attempt α
  | .ok a => .ok a
  | .error e => instantiationFault e

/-- A use of memory as a part of a grounding. -/
def ofMemory {α : Type} : Except Abort α → Attempt α
  | .ok a => .ok a
  | .error a => .error (.abort a)

/-- The objects that an instance declares for a type, in order. -/
def objectsOf (i : Instance) (typeName : String) : List String :=
  (i.objects.filter fun o => o.typeName == typeName).flatMap (·.objects)

/-- The types of a domain with the objects of an instance; every list of objects must be for a
declared type. -/
def objectTypes (d : Domain) (i : Instance) : Except InstantiationError (Array ObjectType) := do
  i.objects.forM fun o =>
    if d.types.contains o.typeName then pure () else throw (.unknownObjectType o.typeName)
  return (d.types.map fun name => { name, objects := objectsOf i name }).toArray

/-- The number of a declared type. -/
def typeNumber (types : Array ObjectType) (context name : String) : Except ModelError Nat :=
  match types.findIdx? fun t => t.name == name with
  | some n => .ok n
  | none => .error (.unknownType name context)

/-- The number of objects of a type. -/
def typeSize (types : Array ObjectType) (type : Nat) : Nat :=
  match types[type]? with
  | some t => t.size
  | none => 0

/-- The value that a fluent holds where nothing else is said: the declared default brought into
the range, or the zero of the range. -/
def defaultValue (f : FluentDecl) : Except ModelError Value :=
  match f.default with
  | none => .ok f.range.zero
  | some v =>
    match v.coerce f.range with
    | some v => .ok v
    | none => .error (.invalidDefault f.name { found := v.range, expected := f.range })

/-- The block of a fluent that starts at a place.  The counts of its layout and the place after it
must have 64 bits. -/
def place (types : Array ObjectType) (offset : Nat) (f : FluentDecl) : Attempt FluentBlock := do
  let params ← ofModel (f.params.mapM (typeNumber types ("pvariable '" ++ f.name ++ "'")))
  let sizes := params.map (typeSize types)
  (layoutCounts sizes).forM fun n => ofMemory (Memory.checkCount n)
  let default ← ofModel (defaultValue f)
  let size := tupleCount sizes
  ofMemory (Memory.checkCount (offset + size))
  return {
    name := f.name, kind := f.kind, range := f.range, params, default, offset
    strides := rowStrides sizes, size }

/-- The first free place of the table of a kind after some blocks. -/
def freePlace (kind : FluentKind) (placed : List FluentBlock) : Nat :=
  total ((placed.filter fun b => b.kind == kind).map (·.size))

/-- The blocks of some fluents after those already placed. -/
def placeAll (types : Array ObjectType) (placed : List FluentBlock) :
    List FluentDecl → Attempt (List FluentBlock)
  | [] => .ok []
  | f :: fs => do
    let b ← place types (freePlace f.kind placed) f
    let bs ← placeAll types (placed ++ [b]) fs
    return b :: bs

/-- The fluents of a domain sorted by name. -/
def sortedFluents (d : Domain) : List FluentDecl :=
  d.fluents.mergeSort fun f g => decide (f.name ≤ g.name)

/-- The blocks of all fluents of a domain. -/
def blocks (d : Domain) (types : Array ObjectType) : Attempt (Array FluentBlock) := do
  let bs ← placeAll types [] (sortedFluents d)
  return bs.toArray

/-- The types of the variables that an expression binds at its root. -/
def boundTypes : Expr → List String
  | .aggregate _ vars _ => vars.map (·.typeName)
  | _ => []

/-- The names of the types that must have objects: those of parameters and of variables. -/
def usedTypes (d : Domain) : List String :=
  d.fluents.flatMap (·.params) ++ d.exprs.flatMap fun e => e.parts.flatMap boundTypes

/-- Every type in use has an object; of several that have none, the one whose name comes first is
reported. -/
def checkInhabited (d : Domain) (types : Array ObjectType) : Except InstantiationError Unit :=
  let used := usedTypes d
  let bare := types.toList.filter fun t => t.objects.isEmpty && used.contains t.name
  match (bare.map (·.name)).mergeSort fun s t => decide (s ≤ t) with
  | [] => .ok ()
  | name :: _ => .error (.emptyObjectDomain name)

/-- How many places the table of a kind has. -/
def tableSize (blocks : Array FluentBlock) (kind : FluentKind) : Nat :=
  total ((blocks.toList.filter fun b => b.kind == kind).map (·.size))

/-- Asks for the memory of the table of a kind, which takes 16 bytes for a place. -/
def reserveTable (blocks : Array FluentBlock) (kind : FluentKind) : Attempt Unit :=
  ofMemory (Memory.reserve (tableSize blocks kind) 16)

/-- The table of the defaults of one kind. -/
def defaultTable (blocks : Array FluentBlock) (kind : FluentKind) : Table :=
  ((blocks.toList.filter fun b => b.kind == kind).flatMap fun b =>
    List.replicate b.size b.default).toArray

/-- The ordinals of the arguments of an assignment. -/
def argumentOrdinals (types : Array ObjectType) (fluent : String) :
    List Nat → List String → Except ModelError (List Nat)
  | type :: ts, o :: os =>
    match types[type]? with
    | none => .error (.objectOutOfDomain fluent o "")
    | some t =>
      match t.ordinal? o with
      | none => .error (.objectOutOfDomain fluent o t.name)
      | some n => do
        let ns ← argumentOrdinals types fluent ts os
        return n :: ns
  | _, _ => .ok []

/-- Writes one assignment into the table of a kind. -/
def assign (types : Array ObjectType) (blocks : Array FluentBlock) (kind : FluentKind)
    (context : String) (table : Table) (a : Assignment) : Attempt Table :=
  match blocks.find? fun b => b.name == a.fluent with
  | none => instantiationFault (.undeclaredFluent a.fluent context)
  | some b =>
    if b.kind ≠ kind then
      instantiationFault (.wrongFluentKind a.fluent context b.kind)
    else if b.params.length ≠ a.args.length then
      modelFault (.arityMismatch a.fluent b.params.length a.args.length)
    else do
      let ordinals ← ofModel (argumentOrdinals types a.fluent b.params a.args)
      match a.value.coerce b.range with
      | none => instantiationFault (.valueTypeMismatch a.fluent b.range a.value.range)
      | some v =>
        let i := b.index ordinals
        if h : i < table.size then return table.set i v
        else .error (.abort (.outOfRange i))

/-- Writes assignments into the table of a kind, the last one of several for a ground fluent
prevailing. -/
def assignAll (types : Array ObjectType) (blocks : Array FluentBlock) (kind : FluentKind)
    (context : String) (assignments : List Assignment) : Attempt Table := do
  reserveTable blocks kind
  assignments.foldlM (assign types blocks kind context) (defaultTable blocks kind)

/-- A compiled conditional probability function with the observations that it reads. -/
structure CpfEntry where
  /-- The function. -/
  cpf : Cpf
  /-- The numbers of the observations that it reads. -/
  reads : List Nat

/-- Compiles a conditional probability function. -/
def compileCpf (scope : Scope) (c : CpfDecl) : Except ModelError CpfEntry :=
  match scope.fluent? c.fluent with
  | none => .error (.unknownFluent c.fluent "cpfs")
  | some target =>
    match scope.blocks[target]? with
    | none => .error (.unknownFluent c.fluent "cpfs")
    | some b => do
      let (site, label) ← match b.kind with
        | .state => pure (Site.stateCpf target, b.name ++ "'")
        | .observation => pure (Site.observationCpf target, b.name)
        | .nonFluent => throw (.unexpectedCpf c.fluent)
        | .action => throw (.unexpectedCpf c.fluent)
      if c.params.length ≠ b.params.length then
        throw (.arityMismatch c.fluent b.params.length c.params.length)
      let params := List.zipWith Binding.mk c.params b.params
      let (body, reads) ← Compiler.compile { scope, site, label } params c.expr
      return { cpf := { target, body }, reads }

/-- The entry for a fluent. -/
def entryFor (entries : List CpfEntry) (fluent : Nat) : Option CpfEntry :=
  entries.find? fun e => e.cpf.target == fluent

/-- The numbers of the fluents of one kind. -/
def numbersOf (blocks : Array FluentBlock) (kind : FluentKind) : List Nat :=
  (List.range blocks.size).filter fun n =>
    match blocks[n]? with
    | some b => b.kind == kind
    | none => false

/-- Every state and observation fluent has a conditional probability function. -/
def checkComplete (blocks : Array FluentBlock) (entries : List CpfEntry) :
    Except ModelError Unit :=
  (List.range blocks.size).forM fun n =>
    match blocks[n]? with
    | some b =>
      if b.kind.isComputed && (entryFor entries n).isNone then throw (.missingCpf b.name)
      else pure ()
    | none => pure ()

/-- The functions of the observations in dependency order. -/
def orderObservations (blocks : Array FluentBlock) (entries : List CpfEntry) :
    Except ModelError (List Cpf) :=
  let reads := fun n =>
    match entryFor entries n with
    | some e => e.reads
    | none => []
  let name := fun n =>
    match blocks[n]? with
    | some b => b.name
    | none => ""
  match Dependency.order reads (numbersOf blocks .observation) with
  | .ok order => .ok (order.filterMap fun n => (entryFor entries n).map (·.cpf))
  | .error cycle => .error (.cyclicDependency (cycle.map name))

/-- Compiles the constraints, which are numbered from `n` on. -/
def compileConstraints (scope : Scope) (n : Nat) : List Expr → Except ModelError (List Compiled)
  | [] => .ok []
  | e :: es => do
    let label := "state-action-constraint #" ++ Decimal.natText n
    let (c, _) ← Compiler.compile { scope, site := .constraint, label } [] e
    let cs ← compileConstraints scope (n + 1) es
    return c :: cs

/-- A text with its length before it. -/
def section64 (cs : List Char) : List UInt8 :=
  let bytes := cs.flatMap String.utf8EncodeChar
  Bytes.littleEndian 8 bytes.length ++ bytes

/-- The bytes that the fingerprint of a model hashes: the documents of the domain and of the
instance without blanks. -/
def fingerprintBytes (d : Domain) (i : Instance) : List UInt8 :=
  section64 d.toJson.compactChars ++ section64 i.toJson.compactChars

/-- The fingerprint of a model. -/
def fingerprint (d : Domain) (i : Instance) : List UInt8 :=
  Blake3.hash (fingerprintBytes d i)

end Grounding

namespace Model

open Grounding

/-- Expands a domain over the objects of an instance, with its fluents laid out in some way. -/
def groundBy (layout : Domain → Array ObjectType → Attempt (Array FluentBlock)) (d : Domain)
    (i : Instance) : Except (Fault SimError) Model := do
  ofModel d.validate
  ofInstantiation i.validate
  if i.domain ≠ d.name then
    instantiationFault (.domainMismatch i.name i.domain d.name)
  let types ← ofInstantiation (objectTypes d i)
  let blocks ← layout d types
  ofInstantiation (checkInhabited d types)
  let nonFluents ← assignAll types blocks .nonFluent "non-fluents" i.nonFluents
  let initialState ← assignAll types blocks .state "init-state" i.initState
  let scope : Scope := { types, blocks }
  let entries ← ofModel (d.cpfs.mapM (compileCpf scope))
  ofModel (checkComplete blocks entries)
  let observationCpfs ← ofModel (orderObservations blocks entries)
  let stateCpfs :=
    (numbersOf blocks .state).filterMap fun n => (entryFor entries n).map (·.cpf)
  let (reward, _) ←
    ofModel (Compiler.compile { scope, site := .reward, label := "reward" } [] d.reward)
  let constraints ← ofModel (compileConstraints scope 0 d.constraints)
  reserveTable blocks .action
  reserveTable blocks .observation
  return {
    domainName := d.name, instanceName := i.name, types, blocks, nonFluents, initialState
    defaultAction := defaultTable blocks .action
    defaultObservation := defaultTable blocks .observation
    stateCpfs, observationCpfs, reward, constraints
    horizon := i.horizon, discount := i.discount
    maxNonDefaultActions := i.maxNonDefaultActions
    fingerprint := Grounding.fingerprint d i }

/-- Expands a domain over the objects of an instance. -/
def ground (d : Domain) (i : Instance) : Except (Fault SimError) Model :=
  groundBy Grounding.blocks d i

end Model
end LiftedPomdp
