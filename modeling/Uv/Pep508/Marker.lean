import Uv.Core.Intervals
import Uv.Pep440.VersionRanges

/-!
# Marker expressions and variables

The expressions a marker is built from, and the variables of its decision
diagram.  Several keys of the marker language are one variable: deprecated
spellings are dropped and `python_version` is read as a range of
`python_full_version`.  The order of the variables is the order of the diagram.

Texts are lists of characters.
-/

namespace Uv.Pep508

open Uv.Core Uv.Core.Order

abbrev Text := List Char

/-- `Ord for str`. -/
instance : OrdKey Text where
  compare left right := List.compareLex compare left right
  Key := List Char
  key := id
  compare_eq left right := compareLex_eq left right

/-! ## Keys and operators -/

/-- Environment markers with a PEP 440 version as value. -/
inductive MarkerValueVersion where
  | implementationVersion
  | pythonFullVersion
  | pythonVersion
  deriving DecidableEq

/-- Environment markers with an arbitrary string as value. -/
inductive MarkerValueString where
  | implementationName
  | osName
  | osNameDeprecated
  | platformMachine
  | platformMachineDeprecated
  | platformPythonImplementation
  | platformPythonImplementationDeprecated
  | pythonImplementationDeprecated
  | platformRelease
  | platformSystem
  | platformVersion
  | platformVersionDeprecated
  | sysPlatform
  | sysPlatformDeprecated
  deriving DecidableEq

/-- Markers with exclusively `in` and `not in` operators. -/
inductive MarkerValueList where
  | extras
  | dependencyGroups
  deriving DecidableEq

inductive CanonicalMarkerValueVersion where
  | implementationVersion
  | pythonFullVersion
  deriving DecidableEq

/-- The string keys, those involved in incompatible pairs first. -/
inductive CanonicalMarkerValueString where
  | osName
  | sysPlatform
  | platformSystem
  | platformMachine
  | platformPythonImplementation
  | platformRelease
  | platformVersion
  | implementationName
  deriving DecidableEq

def MarkerValueString.canonical :
    MarkerValueString → CanonicalMarkerValueString
  | .implementationName => .implementationName
  | .osName => .osName
  | .osNameDeprecated => .osName
  | .platformMachine => .platformMachine
  | .platformMachineDeprecated => .platformMachine
  | .platformPythonImplementation => .platformPythonImplementation
  | .platformPythonImplementationDeprecated => .platformPythonImplementation
  | .pythonImplementationDeprecated => .platformPythonImplementation
  | .platformRelease => .platformRelease
  | .platformSystem => .platformSystem
  | .platformVersion => .platformVersion
  | .platformVersionDeprecated => .platformVersion
  | .sysPlatform => .sysPlatform
  | .sysPlatformDeprecated => .sysPlatform

def CanonicalMarkerValueVersion.toMarkerValue :
    CanonicalMarkerValueVersion → MarkerValueVersion
  | .implementationVersion => .implementationVersion
  | .pythonFullVersion => .pythonFullVersion

def CanonicalMarkerValueString.toMarkerValue :
    CanonicalMarkerValueString → MarkerValueString
  | .implementationName => .implementationName
  | .osName => .osName
  | .platformMachine => .platformMachine
  | .platformPythonImplementation => .platformPythonImplementation
  | .platformRelease => .platformRelease
  | .platformSystem => .platformSystem
  | .platformVersion => .platformVersion
  | .sysPlatform => .sysPlatform

/-- How to compare key and value. -/
inductive MarkerOperator where
  | equal
  | notEqual
  | greaterThan
  | greaterEqual
  | lessThan
  | lessEqual
  | tildeEqual
  | isIn
  | notIn
  | contains
  | notContains
  deriving DecidableEq

/-- The operator of opposite meaning; `~=` has none. -/
def MarkerOperator.negate : MarkerOperator → Option MarkerOperator
  | .equal => some .notEqual
  | .notEqual => some .equal
  | .tildeEqual => none
  | .lessThan => some .greaterEqual
  | .lessEqual => some .greaterThan
  | .greaterThan => some .lessEqual
  | .greaterEqual => some .lessThan
  | .isIn => some .notIn
  | .notIn => some .isIn
  | .contains => some .notContains
  | .notContains => some .contains

inductive ExtraOperator where
  | equal
  | notEqual
  deriving DecidableEq

def ExtraOperator.negate : ExtraOperator → ExtraOperator
  | .equal => .notEqual
  | .notEqual => .equal

inductive ContainerOperator where
  | isIn
  | notIn
  deriving DecidableEq

/-- The value of an `extra` marker; invalid names are kept as they are. -/
inductive MarkerValueExtra where
  | extra (name : Text)
  | arbitrary (name : Text)
  deriving DecidableEq

/-- A key-value pair for `<value> in <key>`, where the key is a list. -/
inductive CanonicalMarkerListPair where
  | extras (name : Text)
  | dependencyGroup (name : Text)
  | arbitrary (key : MarkerValueList) (value : Text)
  deriving DecidableEq

def CanonicalMarkerListPair.isArbitrary : CanonicalMarkerListPair → Bool
  | .arbitrary _ _ => true
  | _ => false

/-- A single marker expression. -/
inductive MarkerExpression where
  | version (key : MarkerValueVersion) (specifier : Pep440.VersionSpecifier)
  | versionIn (key : MarkerValueVersion) (versions : List Pep440.ValidVersion)
      (operator : ContainerOperator)
  | string (key : MarkerValueString) (operator : MarkerOperator) (value : Text)
  | list (pair : CanonicalMarkerListPair) (operator : ContainerOperator)
  | extra (name : MarkerValueExtra) (operator : ExtraOperator)
  deriving DecidableEq

/-! ## Variables -/

/-- A variable of the decision diagram. -/
inductive Variable where
  | string (key : CanonicalMarkerValueString)
  | version (key : CanonicalMarkerValueVersion)
  | isIn (key : CanonicalMarkerValueString) (value : Text)
  | contains (key : CanonicalMarkerValueString) (value : Text)
  | extra (name : Text)
  | list (pair : CanonicalMarkerListPair)
  deriving DecidableEq

def CanonicalMarkerValueString.rank : CanonicalMarkerValueString → ℕ
  | .osName => 0
  | .sysPlatform => 1
  | .platformSystem => 2
  | .platformMachine => 3
  | .platformPythonImplementation => 4
  | .platformRelease => 5
  | .platformVersion => 6
  | .implementationName => 7

def CanonicalMarkerValueVersion.rank : CanonicalMarkerValueVersion → ℕ
  | .implementationVersion => 0
  | .pythonFullVersion => 1

def MarkerValueList.rank : MarkerValueList → ℕ
  | .extras => 0
  | .dependencyGroups => 1

/-- Whether the marker is involved in at least one conflicting pair. -/
def CanonicalMarkerValueString.isConflicting
    (key : CanonicalMarkerValueString) : Bool :=
  key.rank ≤ platformSystem.rank

namespace Variable

/-- The fields the derived order compares, one after the other. -/
def fields : Variable → ℕ × ℕ × ℕ × Text
  | .string key => (0, key.rank, 0, [])
  | .version key => (1, key.rank, 0, [])
  | .isIn key value => (2, key.rank, 0, value)
  | .contains key value => (3, key.rank, 0, value)
  | .extra name => (4, 0, 0, name)
  | .list (.extras name) => (5, 0, 0, name)
  | .list (.dependencyGroup name) => (5, 1, 0, name)
  | .list (.arbitrary key value) => (5, 2, key.rank, value)

/-- `Ord for Variable`. -/
def cmp (left right : Variable) : Ordering :=
  let (kind, first, second, text) := left.fields
  let (kind', first', second', text') := right.fields
  (compare kind kind').then <| (compare first first').then <|
    (compare second second').then <| List.compareLex compare text text'

def isConflictingVariable : Variable → Bool
  | .string key => key.isConflicting
  | _ => false

theorem fields_injective : Function.Injective fields := by
  have hstring : ∀ {key key' : CanonicalMarkerValueString},
      key.rank = key'.rank → key = key' := by
    intro key key'
    cases key <;> cases key' <;> simp [CanonicalMarkerValueString.rank]
  have hversion : ∀ {key key' : CanonicalMarkerValueVersion},
      key.rank = key'.rank → key = key' := by
    intro key key'
    cases key <;> cases key' <;> simp [CanonicalMarkerValueVersion.rank]
  have hlist : ∀ {key key' : MarkerValueList},
      key.rank = key'.rank → key = key' := by
    intro key key'
    cases key <;> cases key' <;> simp [MarkerValueList.rank]
  have hpair : ∀ {pair pair' : CanonicalMarkerListPair},
      fields (.list pair) = fields (.list pair') → pair = pair' := by
    intro pair pair' heq
    cases pair <;> cases pair' <;> simp_all [fields]
    exact hlist heq.1
  intro left right heq
  cases left with
  | list pair =>
      cases right with
      | list pair' => rw [hpair heq]
      | _ => cases pair <;> simp [fields] at heq
  | string key =>
      cases right with
      | list pair => cases pair <;> simp [fields] at heq
      | _ => simp_all [fields]; try exact hstring heq
  | version key =>
      cases right with
      | list pair => cases pair <;> simp [fields] at heq
      | _ => simp_all [fields]; try exact hversion heq
  | isIn key value =>
      cases right with
      | list pair => cases pair <;> simp [fields] at heq
      | _ => simp_all [fields]; try exact hstring heq.1
  | contains key value =>
      cases right with
      | list pair => cases pair <;> simp [fields] at heq
      | _ => simp_all [fields]; try exact hstring heq.1
  | extra name =>
      cases right with
      | list pair => cases pair <;> simp [fields] at heq
      | _ => simp_all [fields]

/-- The key of a variable in the order. -/
def key (var : Variable) : ℕ ×ₗ ℕ ×ₗ ℕ ×ₗ List Char :=
  toLex (var.fields.1, toLex (var.fields.2.1,
    toLex (var.fields.2.2.1, var.fields.2.2.2)))

theorem key_injective : Function.Injective key := by
  intro left right heq
  apply fields_injective
  simpa [key, Prod.ext_iff] using heq

/-- The order of the diagram. -/
instance : LinearOrder Variable := LinearOrder.lift' key key_injective

theorem lt_iff {left right : Variable} : left < right ↔ left.key < right.key :=
  Iff.rfl

theorem cmp_eq_linearCmp (left right : Variable) :
    left.cmp right = linearCmp left.key right.key := by
  unfold cmp key
  rw [linearCmp_toLex, linearCmp_toLex, linearCmp_toLex, linearCmp_eq_compare,
    linearCmp_eq_compare, linearCmp_eq_compare, ← compareLex_eq]

theorem cmp_eq_lt {left right : Variable} :
    left.cmp right = .lt ↔ left < right := by
  rw [cmp_eq_linearCmp, linearCmp_eq_lt, lt_iff]

theorem cmp_eq_gt {left right : Variable} :
    left.cmp right = .gt ↔ right < left := by
  rw [cmp_eq_linearCmp, linearCmp_eq_gt, lt_iff]

theorem cmp_eq_eq {left right : Variable} :
    left.cmp right = .eq ↔ left = right := by
  rw [cmp_eq_linearCmp, linearCmp_eq_eq, key_injective.eq_iff]

end Variable

end Uv.Pep508
