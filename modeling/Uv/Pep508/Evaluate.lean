import Uv.Pep508.Interner

/-!
# Evaluating markers

A marker is evaluated in an environment by walking down from its node: the
value of a node's variable selects the child to go on with.
-/

namespace Uv.Pep508

open Uv.Core Uv.Pep440

/-- The marker values of a Python interpreter that the variables refer to. -/
structure MarkerEnvironment where
  implementationName : Text
  implementationVersion : ValidVersion
  osName : Text
  platformMachine : Text
  platformPythonImplementation : Text
  platformRelease : Text
  platformSystem : Text
  platformVersion : Text
  pythonFullVersion : ValidVersion
  sysPlatform : Text

def MarkerEnvironment.getVersion (env : MarkerEnvironment) :
    CanonicalMarkerValueVersion → ValidVersion
  | .implementationVersion => env.implementationVersion
  | .pythonFullVersion => env.pythonFullVersion

def MarkerEnvironment.getString (env : MarkerEnvironment) :
    CanonicalMarkerValueString → Text
  | .implementationName => env.implementationName
  | .osName => env.osName
  | .platformMachine => env.platformMachine
  | .platformPythonImplementation => env.platformPythonImplementation
  | .platformRelease => env.platformRelease
  | .platformSystem => env.platformSystem
  | .platformVersion => env.platformVersion
  | .sysPlatform => env.sysPlatform

/-- The extras and groups a marker is evaluated with. -/
inductive ExtrasEnvironment where
  | extras (names : List Text)
  | pep751 (names groups : List Text)

namespace ExtrasEnvironment

def extra : ExtrasEnvironment → List Text
  | .extras names => names
  | .pep751 _ _ => []

def extrasList : ExtrasEnvironment → List Text
  | .extras _ => []
  | .pep751 names _ => names

def dependencyGroups : ExtrasEnvironment → List Text
  | .extras _ => []
  | .pep751 _ groups => groups

end ExtrasEnvironment

/-- The truth value of a boolean variable. -/
def MarkerEnvironment.test (env : MarkerEnvironment)
    (extras : ExtrasEnvironment) : Variable → Bool
  | .isIn key value => decide (env.getString key <:+: value)
  | .contains key value => decide (value <:+: env.getString key)
  | .extra name => extras.extra.contains name
  | .list (.extras name) => extras.extrasList.contains name
  | .list (.dependencyGroup name) => extras.dependencyGroups.contains name
  | _ => false

/-- The child that evaluation goes on with.  A malformed list marker has none:
it is false, whatever its children are. -/
def MarkerEnvironment.child (env : MarkerEnvironment)
    (extras : ExtrasEnvironment) (var : Variable) (children : Edges) :
    Option NodeId :=
  match var, children with
  | .version key, .version edges =>
      (edges.find? fun (range, _) => range.contains (env.getVersion key)).map
        Prod.snd
  | .string key, .string edges =>
      (edges.find? fun (range, _) => range.contains (env.getString key)).map
        Prod.snd
  | .list (.arbitrary _ _), _ => none
  | var, .boolean high low => some (if env.test extras var then high else low)
  | _, _ => none

namespace Interner

def evaluateFuel (interner : Interner) (env : MarkerEnvironment)
    (extras : ExtrasEnvironment) : ℕ → NodeId → Bool
  | 0, _ => false
  | fuel + 1, id =>
      if id.isTrue then true
      else if id.isFalse then false
      else
        match interner.node id with
        | none => false
        | some node =>
            match env.child extras node.var node.children with
            | none => false
            | some child =>
                evaluateFuel interner env extras fuel (child.negate id)

/-- Does this marker apply in the given environment? -/
def evaluate (interner : Interner) (env : MarkerEnvironment)
    (extras : ExtrasEnvironment) (id : NodeId) : Bool :=
  interner.evaluateFuel env extras (id.rank + 1) id

end Interner

end Uv.Pep508
