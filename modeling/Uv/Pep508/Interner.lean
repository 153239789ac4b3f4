import Uv.Pep508.Edges

/-!
# The node interner

Markers are decision diagrams whose nodes live in one table.  Equal nodes are
stored once, conjunctions are memoized, and known incompatible markers are kept
as one diagram that is built the first time it is needed.

The state is passed explicitly; `none` stands for a panic or for fuel that ran
out.  The map from nodes to identifiers, which the source keeps beside the
table, holds exactly the entries of the table, so it is a search in the table.
The cache is an association list with the newest entry first.
-/

namespace Uv.Pep508

open Uv.Core Uv.Pep440

/-- The interner: the table of nodes and what is stored behind the lock. -/
structure Interner where
  nodes : List Node
  cache : List ((NodeId × NodeId) × NodeId)
  exclusions : Option NodeId

/-- The interner at the start. -/
def Interner.default : Interner := ⟨[], [], none⟩

abbrev InternerM := StateT Interner Option

namespace Interner

/-- The node for an identifier; terminals have none. -/
def node (interner : Interner) (id : NodeId) : Option Node :=
  id.index.bind fun index => interner.nodes[index]?

/-- The memoized conjunction of two nodes. -/
def cached (interner : Interner) (xi yi : NodeId) : Option NodeId :=
  interner.cache.lookup (xi, yi)

end Interner

/-- Creates a decision node with the given variable and children. -/
def createNode (var : Variable) (children : Edges) : InternerM NodeId :=
  fun interner =>
    match children.nodes with
    | [] => none
    | first :: _ =>
        -- The first child edge is never complemented.
        let flipped := first.isComplement
        let node : Node :=
          if flipped then Node.not ⟨var, children⟩ else ⟨var, children⟩
        let first := if flipped then first.not else first
        if node.children.nodes.all (· == first) then
          some (if flipped then first.not else first, interner)
        else
          match interner.nodes.findIdx? (·.beq node) with
          | some index => some (NodeId.new index flipped, interner)
          | none =>
              some (NodeId.new interner.nodes.length flipped,
                { interner with nodes := interner.nodes ++ [node] })

section Operations

variable [RangeOps ValidVersion] [RangeOps Text]

/-- The variable and the edges of an expression, or the constant it stands
for. -/
def expressionEdges :
    MarkerExpression → Option (Except NodeId (Variable × Edges))
  | .version key specifier =>
      match key with
      | .implementationVersion => do
          let edges ← Edges.fromSpecifier specifier
          some (.ok (.version .implementationVersion, edges))
      | .pythonFullVersion => do
          let edges ← Edges.fromSpecifier specifier
          some (.ok (.version .pythonFullVersion, edges))
      | .pythonVersion => do
          match ← Edges.pythonVersionToFullVersion specifier.onlyRelease with
          | .ok specifier =>
              let edges ← Edges.fromSpecifier specifier
              some (.ok (.version .pythonFullVersion, edges))
          | .error node => some (.error node)
  | .versionIn key versions operator =>
      match key with
      | .implementationVersion =>
          some (.ok (.version .implementationVersion,
            Edges.fromVersions versions operator))
      | .pythonFullVersion =>
          some (.ok (.version .pythonFullVersion,
            Edges.fromVersions versions operator))
      | .pythonVersion => do
          match ← Edges.fromPythonVersions versions operator with
          | .ok edges => some (.ok (.version .pythonFullVersion, edges))
          | .error node => some (.error node)
  | .string key .isIn value =>
      some (.ok (.isIn key.canonical value, Edges.fromBool true))
  | .string key .notIn value =>
      some (.ok (.isIn key.canonical value, Edges.fromBool false))
  | .string key .contains value =>
      some (.ok (.contains key.canonical value, Edges.fromBool true))
  | .string key .notContains value =>
      some (.ok (.contains key.canonical value, Edges.fromBool false))
  | .string key operator value =>
      -- `platform_system` is normalized to `sys_platform` where the values are
      -- known to be equivalent.
      let (key, value) : CanonicalMarkerValueString × Text :=
        if key = .platformSystem then
          if value = "Windows".toList then (.sysPlatform, "win32".toList)
          else if value = "Darwin".toList then (.sysPlatform, "darwin".toList)
          else if value = "Linux".toList then (.sysPlatform, "linux".toList)
          else if value = "AIX".toList then (.sysPlatform, "aix".toList)
          else if value = "Emscripten".toList then
            (.sysPlatform, "emscripten".toList)
          else if value = "Android".toList then (.sysPlatform, "android".toList)
          else (key.canonical, value)
        else (key.canonical, value)
      (Edges.fromString operator value).map fun edges => .ok (.string key, edges)
  | .list pair operator =>
      some (.ok (.list pair, Edges.fromBool (operator == .isIn)))
  | .extra (.extra name) .equal => some (.ok (.extra name, Edges.fromBool true))
  | .extra (.extra name) .notEqual =>
      some (.ok (.extra name, Edges.fromBool false))
  | .extra (.arbitrary _) _ => some (.error .FALSE)

/-- A decision node for a single marker expression. -/
def expression (expr : MarkerExpression) : InternerM NodeId :=
  match expressionEdges expr with
  | none => failure
  | some (.error node) => pure node
  | some (.ok (var, children)) => createNode var children

/-! ## Conjunction -/

/-- Read a node.  The source panics on a terminal. -/
def readNode (id : NodeId) : InternerM Node := fun interner =>
  (interner.node id).map fun node => (node, interner)

/-- Memoize the result of a conjunction. -/
def memoize (xi yi result : NodeId) : InternerM NodeId := fun interner =>
  some (result, { interner with cache := ((xi, yi), result) :: interner.cache })

/-- Shannon expansion of the higher-order variable. -/
def expand (recurse : NodeId → NodeId → InternerM NodeId) (xi yi : NodeId)
    (x y : Node) : InternerM (Variable × Edges) :=
  match x.var.cmp y.var with
  | .lt => do
      let children ← x.children.map xi fun node => recurse node yi
      pure (x.var, children)
  | .gt => do
      let children ← y.children.map yi fun node => recurse node xi
      pure (y.var, children)
  | .eq => do
      let children ← x.children.apply xi y.children yi recurse
      pure (x.var, children)

/-- The conjunction of two nodes; `finish` is applied to a new result before it
is memoized. -/
def combine (finish : Node → Node → NodeId → InternerM NodeId) :
    ℕ → NodeId → NodeId → InternerM NodeId
  | 0, _, _ => failure
  | fuel + 1, xi, yi =>
      if xi.isTrue then pure yi
      else if yi.isTrue then pure xi
      else if xi = yi then pure xi
      else if xi.isFalse || yi.isFalse then pure .FALSE
      else if xi.not = yi then pure .FALSE
      else do
        let interner ← get
        match interner.cached xi yi with
        | some result => pure result
        | none => do
            let x ← readNode xi
            let y ← readNode yi
            let (func, children) ← expand (combine finish fuel) xi yi x y
            let node ← createNode func children
            let node ← finish x y node
            memoize xi yi node

/-- The conjunction without knowledge from outside the marker algebra. -/
def conjunction (xi yi : NodeId) : InternerM NodeId :=
  combine (fun _ _ node => pure node) (xi.rank + yi.rank + 1) xi yi

def disjunction (xi yi : NodeId) : InternerM NodeId := do
  let node ← conjunction xi.not yi.not
  pure node.not

/-! ## Disjointness and exclusions -/

/-- Whether there is no environment in which both trees can apply, without the
check for incompatible markers. -/
def disjointness (interner : Interner) : ℕ → NodeId → NodeId → Option Bool
  | 0, _, _ => none
  | fuel + 1, xi, yi =>
      if xi.isFalse || yi.isFalse then some true
      else if xi.isTrue || yi.isTrue then some false
      else if xi = yi then some false
      else if xi.not = yi then some true
      else do
        let x ← interner.node xi
        let y ← interner.node yi
        match x.var.cmp y.var with
        | .lt =>
            x.children.nodes.allM fun node =>
              disjointness interner fuel (node.negate xi) yi
        | .gt =>
            y.children.nodes.allM fun node =>
              disjointness interner fuel (node.negate yi) xi
        | .eq =>
            x.children.isDisjoint xi y.children yi (disjointness interner fuel)

/-- `<key> == '<value>'`. -/
def equals (key : MarkerValueString) (value : String) : InternerM NodeId :=
  expression (.string key .equal value.toList)

/-- The disjunction of known incompatible conditions, built once. -/
def exclusions : InternerM NodeId := do
  let interner ← get
  match interner.exclusions with
  | some exclusions => pure exclusions
  | none => do
      let osNameNt ← equals .osName "nt"
      let osNamePosix ← equals .osName "posix"
      let sysPlatformLinux ← equals .sysPlatform "linux"
      let sysPlatformDarwin ← equals .sysPlatform "darwin"
      let sysPlatformIos ← equals .sysPlatform "ios"
      let sysPlatformWin32 ← equals .sysPlatform "win32"
      let platformSystemFreebsd ← equals .platformSystem "FreeBSD"
      let platformSystemNetbsd ← equals .platformSystem "NetBSD"
      let platformSystemOpenbsd ← equals .platformSystem "OpenBSD"
      let platformSystemSunos ← equals .platformSystem "SunOS"
      let platformSystemIos ← equals .platformSystem "iOS"
      let platformSystemIpados ← equals .platformSystem "iPadOS"
      let sysPlatformAix ← equals .sysPlatform "aix"
      let sysPlatformAndroid ← equals .sysPlatform "android"
      let sysPlatformEmscripten ← equals .sysPlatform "emscripten"
      let sysPlatformCygwin ← equals .sysPlatform "cygwin"
      let sysPlatformWasi ← equals .sysPlatform "wasi"
      let pairs :=
        [(osNameNt, sysPlatformLinux), (osNameNt, sysPlatformDarwin),
          (osNameNt, sysPlatformIos), (osNamePosix, sysPlatformWin32)] ++
        [platformSystemFreebsd, platformSystemNetbsd, platformSystemOpenbsd,
          platformSystemSunos, platformSystemIos, platformSystemIpados].flatMap
            fun platformSystem =>
          ([sysPlatformAix, sysPlatformAndroid, sysPlatformEmscripten,
            sysPlatformIos, sysPlatformLinux, sysPlatformDarwin,
            sysPlatformWin32, sysPlatformCygwin, sysPlatformWasi].filter
              fun sysPlatform => !(sysPlatform == sysPlatformIos &&
                (platformSystem == platformSystemIos ||
                  platformSystem == platformSystemIpados))).map
            fun sysPlatform => (platformSystem, sysPlatform)
      let tree ← pairs.foldlM (fun tree (a, b) => do
        let aAndB ← conjunction a b
        disjunction tree aAndB) NodeId.FALSE
      modify fun interner => { interner with exclusions := some tree }
      pure tree

/-- If the node includes known incompatibilities, map it to `false`. -/
def checkExclusions (x y : Node) (node : NodeId) : InternerM NodeId :=
  if x.var.isConflictingVariable && y.var.isConflictingVariable then do
    let exclusions ← exclusions
    let interner ← get
    match disjointness interner (node.rank + exclusions.not.rank + 1) node
        exclusions.not with
    | none => failure
    | some true => pure .FALSE
    | some false => pure node
  else pure node

/-- The conjunction of two nodes. -/
def and (xi yi : NodeId) : InternerM NodeId :=
  combine checkExclusions (xi.rank + yi.rank + 1) xi yi

/-- The disjunction of two nodes, by De Morgan. -/
def or (xi yi : NodeId) : InternerM NodeId := do
  let node ← and xi.not yi.not
  pure node.not

/-- Whether there is no environment in which both trees can apply. -/
def isDisjoint (xi yi : NodeId) : InternerM Bool :=
  if xi.isFalse || yi.isFalse then pure true
  else if xi.isTrue || yi.isTrue then pure false
  else if xi = yi then pure false
  else if xi.not = yi then pure true
  else do
    let x ← readNode xi
    let y ← readNode yi
    if x.var.isConflictingVariable && y.var.isConflictingVariable then do
      let node ← and xi yi
      pure node.isFalse
    else do
      let interner ← get
      -- The fuel covers every descent from the two nodes.
      match disjointness interner (xi.rank + yi.rank + 1) xi yi with
      | none => failure
      | some result => pure result

/-! ## Restricting variables -/

/-- Restrict the output of boolean variables; `f` gives the value of those that
are restricted. -/
def restrict (f : Variable → Option Bool) : ℕ → NodeId → InternerM NodeId
  | 0, _ => failure
  | fuel + 1, i =>
      if i.isTrue || i.isFalse then pure i
      else do
        let node ← readNode i
        match node.children, f node.var with
        | .boolean high low, some value =>
            restrict f fuel ((if value then high else low).negate i)
        | children, _ => do
            let children ← children.map i (restrict f fuel)
            createNode node.var children

/-- Remove the extras the predicate holds for, read as provided. -/
def simplifyExtrasWith (isExtra : Text → Bool) (i : NodeId) : InternerM NodeId :=
  restrict (fun
    | .extra name => if isExtra name then some true else none
    | _ => none) (i.rank + 1) i

/-- Remove the extras the predicate holds for, read as absent. -/
def simplifyNotExtrasWith (isExtra : Text → Bool) (i : NodeId) :
    InternerM NodeId :=
  restrict (fun
    | .extra name => if isExtra name then some false else none
    | _ => none) (i.rank + 1) i

/-- The disjunction of all children. -/
def anyChild (i : NodeId) (node : Node) : InternerM NodeId :=
  node.children.nodes.foldlM (fun tree child => or tree (child.negate i))
    NodeId.FALSE

def isExtraVariable : Variable → Bool
  | .extra _ => true
  | _ => false

/-- Assume that all nodes whose variable the predicate drops can take any
value. -/
def withoutVariables (drop : Variable → Bool) : ℕ → NodeId → InternerM NodeId
  | 0, _ => failure
  | fuel + 1, i =>
      if i.isTrue || i.isFalse then pure i
      else do
        let node ← readNode i
        if drop node.var then do
          let tree ← anyChild i node
          if tree.isTrue then pure .TRUE else withoutVariables drop fuel tree
        else do
          let children ← node.children.map i (withoutVariables drop fuel)
          createNode node.var children

/-- A tree where only non-`extra` nodes remain. -/
def withoutExtras (fuel : ℕ) (i : NodeId) : InternerM NodeId :=
  withoutVariables isExtraVariable fuel i

/-- A tree where only `extra` nodes remain. -/
def onlyExtras (fuel : ℕ) (i : NodeId) : InternerM NodeId :=
  withoutVariables (fun var => !isExtraVariable var) fuel i

/-! ## Python versions -/

/-- Replace the range of the first edge. -/
def setFirst (edges : List (Ranges ValidVersion × NodeId))
    (range : Ranges ValidVersion) : List (Ranges ValidVersion × NodeId) :=
  match edges with
  | [] => []
  | (_, node) :: rest => (range, node) :: rest

/-- Replace the range of the last edge. -/
def setLast (edges : List (Ranges ValidVersion × NodeId))
    (range : Ranges ValidVersion) : List (Ranges ValidVersion × NodeId) :=
  match edges.getLast? with
  | none => []
  | some (_, node) => edges.dropLast ++ [(range, node)]

/-- The edges of a `python_full_version` node inside the given bounds, the first
and the last one extended to infinity. -/
def simplifyEdges (edges : List (Ranges ValidVersion × NodeId))
    (pyRange : Ranges ValidVersion) :
    Option (List (Ranges ValidVersion × NodeId)) := do
  let new := edges.filterMap fun (range, node) =>
    let overlap := RangeOps.intersection range pyRange
    if overlap.isEmpty then none else some (overlap, node)
  let (firstRange, _) ← new.head?
  let (_, firstUpper) ← firstRange.boundingRange
  let new := setFirst new (.fromRangeBounds .unbounded firstUpper)
  let (lastRange, _) ← new.getLast?
  let (lastLower, _) ← lastRange.boundingRange
  some (setLast new (.fromRangeBounds lastLower .unbounded))

/-- Simplify a tree by assuming that the given Python version range is true. -/
def simplifyPythonVersionsFuel (pyLower pyUpper : Bound ValidVersion) :
    ℕ → NodeId → InternerM NodeId
  | 0, _ => failure
  | fuel + 1, i =>
      if i.isTrue || i.isFalse || (pyLower.isUnbounded && pyUpper.isUnbounded)
      then pure i
      else do
        let node ← readNode i
        match node.var, node.children with
        | .version .pythonFullVersion, .version edges =>
            let pyRange := Ranges.fromRangeBounds pyLower pyUpper
            if pyRange.isEmpty then pure .FALSE
            else
              match simplifyEdges edges pyRange with
              | none => failure
              | some new => do
                  let node ← createNode node.var (.version new)
                  pure (node.negate i)
        | _, _ => do
            let children ← node.children.map i
              (simplifyPythonVersionsFuel pyLower pyUpper fuel)
            createNode node.var children

def simplifyPythonVersions (i : NodeId) (pyLower pyUpper : Bound ValidVersion) :
    InternerM NodeId :=
  simplifyPythonVersionsFuel pyLower pyUpper (i.rank + 1) i

/-- Clip the first edge at the lower Python bound; below it there is only
`exclude`. -/
def complexifyLower (pyLower : Bound ValidVersion) (exclude : NodeId)
    (new : List (Ranges ValidVersion × NodeId)) :
    Option (List (Ranges ValidVersion × NodeId)) :=
  if pyLower.isUnbounded then some new
  else do
    let (firstRange, firstNode) ← new.head?
    let (_, firstUpper) ← firstRange.boundingRange
    if exclude = firstNode then
      some (setFirst new (.fromRangeBounds .unbounded firstUpper))
    else
      some ((RangeOps.complement (.fromRangeBounds pyLower .unbounded),
        exclude) :: setFirst new (.fromRangeBounds pyLower firstUpper))

/-- Clip the last edge at the upper Python bound; above it there is only
`exclude`. -/
def complexifyUpper (pyUpper : Bound ValidVersion) (exclude : NodeId)
    (new : List (Ranges ValidVersion × NodeId)) :
    Option (List (Ranges ValidVersion × NodeId)) :=
  if pyUpper.isUnbounded then some new
  else do
    let (lastRange, lastNode) ← new.getLast?
    let (lastLower, _) ← lastRange.boundingRange
    if exclude = lastNode then
      some (setLast new (.fromRangeBounds lastLower .unbounded))
    else
      some (setLast new (.fromRangeBounds lastLower pyUpper) ++
        [(RangeOps.complement (.fromRangeBounds .unbounded pyUpper), exclude)])

/-- The edges of a `python_full_version` node that are false outside the given
bounds. -/
def complexifyEdges (edges : List (Ranges ValidVersion × NodeId))
    (pyLower pyUpper : Bound ValidVersion) (exclude : NodeId) :
    Option (List (Ranges ValidVersion × NodeId)) := do
  let pyRange := Ranges.fromRangeBounds pyLower pyUpper
  let new := edges.filter fun (range, _) =>
    !(RangeOps.intersection pyRange range).isEmpty
  if new.isEmpty then none
  else
    let new ← complexifyLower pyLower exclude new
    complexifyUpper pyUpper exclude new

/-- Complexify a tree by requiring the given Python version range. -/
def complexifyPythonVersionsFuel (pyLower pyUpper : Bound ValidVersion) :
    ℕ → NodeId → InternerM NodeId
  | 0, _ => failure
  | fuel + 1, i =>
      if i.isFalse || (pyLower.isUnbounded && pyUpper.isUnbounded) then pure i
      else
        let pyRange := Ranges.fromRangeBounds pyLower pyUpper
        if pyRange.isEmpty then pure .FALSE
        else if i.isTrue then do
          let node ← createNode (.version .pythonFullVersion)
            (.version (Edges.fromRange pyRange))
          pure (node.negate i)
        else do
          let node ← readNode i
          match node.var, node.children with
          | .version .pythonFullVersion, .version edges =>
              match complexifyEdges edges pyLower pyUpper
                  (NodeId.FALSE.negate i) with
              | none => failure
              | some new => do
                  let node ← createNode node.var (.version new)
                  pure (node.negate i)
          | _, _ => do
              let children ← node.children.map i
                (complexifyPythonVersionsFuel pyLower pyUpper fuel)
              createNode node.var children

def complexifyPythonVersions (i : NodeId)
    (pyLower pyUpper : Bound ValidVersion) : InternerM NodeId :=
  complexifyPythonVersionsFuel pyLower pyUpper (i.rank + 1) i

end Operations

end Uv.Pep508
