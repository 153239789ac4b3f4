import Uv.Pep508.Marker

/-!
# Decision nodes

A node tests one variable.  The edges of a version or string variable are
intervals that cover the output space; those of a boolean variable are the two
truth values.  The lowest bit of a node's identifier marks a complemented edge:
the complement of a diagram is the diagram with that bit flipped.
-/

namespace Uv.Pep508

open Uv.Core Uv.Pep440

/-! ## Identifiers -/

/-- A reference to a decision node. -/
structure NodeId where
  raw : ℕ
  deriving DecidableEq

namespace NodeId

/-- The terminal node that is always true. -/
def TRUE : NodeId := ⟨0⟩

/-- The terminal node that is always false. -/
def FALSE : NodeId := ⟨1⟩

def new (index : ℕ) (complement : Bool) : NodeId :=
  ⟨2 * (index + 1) + complement.toNat⟩

/-- The index of the node, ignoring the complemented edge; terminals have
none. -/
def index (id : NodeId) : Option ℕ :=
  if id.raw / 2 = 0 then none else some (id.raw / 2 - 1)

def isComplement (id : NodeId) : Bool := id.raw % 2 == 1

/-- Toggle the lowest bit. -/
def not (id : NodeId) : NodeId :=
  ⟨if id.raw % 2 = 0 then id.raw + 1 else id.raw - 1⟩

/-- The complement of this node, if its parent is complemented. -/
def negate (id parent : NodeId) : NodeId :=
  if parent.isComplement then id.not else id

def isFalse (id : NodeId) : Bool := id == FALSE

def isTrue (id : NodeId) : Bool := id == TRUE

/-- Terminals have rank zero, nodes one more than their index. -/
def rank (id : NodeId) : ℕ := id.raw / 2

theorem ext {id id' : NodeId} (hraw : id.raw = id'.raw) : id = id' := by
  cases id
  cases id'
  exact congrArg NodeId.mk hraw

@[simp]
theorem not_not (id : NodeId) : id.not.not = id := by
  apply ext
  simp only [not]
  split <;> split <;> omega

@[simp]
theorem rank_not (id : NodeId) : id.not.rank = id.rank := by
  simp only [rank, not]
  split <;> omega

@[simp]
theorem isComplement_not (id : NodeId) :
    id.not.isComplement = !id.isComplement := by
  simp only [isComplement, not]
  rcases Nat.mod_two_eq_zero_or_one id.raw with heven | hodd
  · simp [heven, Nat.add_mod]
  · have hraw : (id.raw - 1) % 2 = 0 := by omega
    simp [hodd, hraw]

theorem not_injective : Function.Injective not :=
  Function.LeftInverse.injective not_not

@[simp]
theorem not_inj {id id' : NodeId} : id.not = id'.not ↔ id = id' :=
  not_injective.eq_iff

@[simp]
theorem not_true : TRUE.not = FALSE := rfl

@[simp]
theorem not_false : FALSE.not = TRUE := rfl

@[simp]
theorem false_ne_true : FALSE ≠ TRUE := by decide

@[simp]
theorem index_not (id : NodeId) : id.not.index = id.index := by
  have hrank := rank_not id
  simp only [rank] at hrank
  simp only [index, hrank]

@[simp]
theorem rank_negate (id parent : NodeId) : (id.negate parent).rank = id.rank := by
  unfold negate
  split <;> simp

@[simp]
theorem negate_negate (id parent : NodeId) :
    (id.negate parent).negate parent = id := by
  unfold negate
  split <;> simp

theorem negate_not_parent (id parent : NodeId) :
    id.negate parent.not = (id.negate parent).not := by
  unfold negate
  cases hparent : parent.isComplement <;> simp [hparent]

theorem negate_injective (parent : NodeId) :
    Function.Injective fun id : NodeId => id.negate parent := by
  intro id id' heq
  by_cases hparent : parent.isComplement = true
  · simpa [negate, hparent] using heq
  · simpa [negate, hparent] using heq

theorem isTrue_iff {id : NodeId} : id.isTrue = true ↔ id = TRUE := by
  simp [isTrue]

theorem isFalse_iff {id : NodeId} : id.isFalse = true ↔ id = FALSE := by
  simp [isFalse]

@[simp]
theorem index_new (index : ℕ) (complement : Bool) :
    (new index complement).index = some index := by
  cases complement <;> (simp [new, NodeId.index]; try omega)

@[simp]
theorem rank_new (index : ℕ) (complement : Bool) :
    (new index complement).rank = index + 1 := by
  cases complement <;> (simp [new, rank]; try omega)

@[simp]
theorem isComplement_new (index : ℕ) (complement : Bool) :
    (new index complement).isComplement = complement := by
  cases complement <;> simp [new, isComplement]

/-- A reference is a terminal or points to a node. -/
theorem cases_index (id : NodeId) :
    id = TRUE ∨ id = FALSE ∨ ∃ index, id = new index id.isComplement := by
  rcases Nat.lt_or_ge id.raw 2 with hlt | hge
  · have hraw : id.raw = 0 ∨ id.raw = 1 := by omega
    rcases hraw with hraw | hraw
    · exact .inl (ext hraw)
    · exact .inr (.inl (ext hraw))
  · refine .inr (.inr ⟨id.raw / 2 - 1, ext ?_⟩)
    rcases Nat.mod_two_eq_zero_or_one id.raw with heven | hodd
    · simp [new, isComplement, heven]
      omega
    · simp [new, isComplement, hodd]
      omega

end NodeId

/-! ## Edges -/

/-- The edges of a decision node. -/
inductive Edges where
  | version (edges : List (Ranges ValidVersion × NodeId))
  | string (edges : List (Ranges Text × NodeId))
  | boolean (high low : NodeId)

/-- A decision node. -/
structure Node where
  var : Variable
  children : Edges

/-- Compares the start of two ranges that are known to be disjoint.  The source
panics on an empty range. -/
def compareDisjointRangeStart {T : Type} [OrdKey T] (range1 range2 : Ranges T) :
    Ordering :=
  match range1.boundingRange, range2.boundingRange with
  | some (start1, _), some (start2, _) =>
      match start1, start2 with
      | .unbounded, _ => .lt
      | _, .unbounded => .gt
      | .included v1, .excluded v2 =>
          if compare v1 v2 = .eq then .lt else compare v1 v2
      | .excluded v1, .included v2 =>
          if compare v1 v2 = .eq then .gt else compare v1 v2
      | .included v1, .included v2 => compare v1 v2
      | .excluded v1, .excluded v2 => compare v1 v2
  | _, _ => .eq

/-- Whether two disjoint ranges can be conjoined without introducing a gap. -/
def canConjoin {T : Type} [OrdKey T] (range1 range2 : Ranges T) : Bool :=
  match range1.boundingRange, range2.boundingRange with
  | some (_, .included v1), some (.excluded v2, _) => compare v1 v2 == .eq
  | some (_, .excluded v1), some (.included v2, _) => compare v1 v2 == .eq
  | _, _ => false

namespace Edges

def fromBool (complemented : Bool) : Edges :=
  if complemented then .boolean .TRUE .FALSE else .boolean .FALSE .TRUE

section Ranges

variable {T : Type} [OrdKey T] [RangeOps T]

/-- Edges where values in the given range are true: the intervals of the range
and those of its complement, sorted. -/
def fromRange (range : Ranges T) : List (Ranges T × NodeId) :=
  let edges :=
    (range.segments.map fun (start, stop) =>
      (Ranges.fromRangeBounds start stop, NodeId.TRUE)) ++
    (RangeOps.complement range).segments.map fun (start, stop) =>
      (Ranges.fromRangeBounds start stop, NodeId.FALSE)
  edges.insertionSort fun (range1, _) (range2, _) =>
    compareDisjointRangeStart range1 range2 ≠ .gt

/-- Append an edge, merging it into the last one if that leads to the same
node. -/
def pushMerged (combined : List (Ranges T × NodeId)) (intersection : Ranges T)
    (node : NodeId) : List (Ranges T × NodeId) :=
  match combined.getLast? with
  | some (range, prev) =>
      if prev = node ∧ canConjoin range intersection then
        combined.dropLast ++ [(RangeOps.union range intersection, prev)]
      else combined ++ [(intersection, node)]
  | none => [(intersection, node)]

variable {m : Type → Type} [Monad m]

/-- The inner loop of `apply_ranges`: one left edge against the right edges. -/
def applyRight (apply : NodeId → NodeId → m NodeId) (leftRange : Ranges T)
    (leftChild : NodeId) (rightParent : NodeId) :
    List (Ranges T × NodeId) → List (Ranges T × NodeId) →
      m (List (Ranges T × NodeId))
  | [], combined => pure combined
  | (rightRange, rightChild) :: rest, combined =>
      let intersection := RangeOps.intersection rightRange leftRange
      if intersection.isEmpty then
        applyRight apply leftRange leftChild rightParent rest combined
      else do
        let node ← apply leftChild (rightChild.negate rightParent)
        applyRight apply leftRange leftChild rightParent rest
          (pushMerged combined intersection node)

/-- The outer loop of `apply_ranges`. -/
def applyLeft (apply : NodeId → NodeId → m NodeId) (leftParent : NodeId)
    (rightEdges : List (Ranges T × NodeId)) (rightParent : NodeId) :
    List (Ranges T × NodeId) → List (Ranges T × NodeId) →
      m (List (Ranges T × NodeId))
  | [], combined => pure combined
  | (leftRange, leftChild) :: rest, combined => do
      let combined ← applyRight apply leftRange (leftChild.negate leftParent)
        rightParent rightEdges combined
      applyLeft apply leftParent rightEdges rightParent rest combined

/-- Merge two range maps, applying the given operation to all disjoint,
intersecting ranges. -/
def applyRanges (leftEdges : List (Ranges T × NodeId)) (leftParent : NodeId)
    (rightEdges : List (Ranges T × NodeId)) (rightParent : NodeId)
    (apply : NodeId → NodeId → m NodeId) : m (List (Ranges T × NodeId)) :=
  applyLeft apply leftParent rightEdges rightParent leftEdges []

/-- Whether all intersecting ranges in two range maps are disjoint. -/
def isDisjointRanges (leftEdges : List (Ranges T × NodeId))
    (leftParent : NodeId) (rightEdges : List (Ranges T × NodeId))
    (rightParent : NodeId) (disjointness : NodeId → NodeId → m Bool) : m Bool :=
  leftEdges.allM fun (leftRange, leftChild) =>
    rightEdges.allM fun (rightRange, rightChild) =>
      if RangeOps.isDisjoint rightRange leftRange then pure true
      else
        disjointness (leftChild.negate leftParent)
          (rightChild.negate rightParent)

omit [RangeOps T] in
/-- `map` on the edges of a range variable. -/
def mapRanges (edges : List (Ranges T × NodeId)) (parent : NodeId)
    (f : NodeId → m NodeId) : m (List (Ranges T × NodeId)) :=
  edges.mapM fun (range, node) => do
    let node ← f (node.negate parent)
    pure (range, node)

end Ranges

/-- All direct children, in order. -/
def nodes : Edges → List NodeId
  | .version edges => edges.map Prod.snd
  | .string edges => edges.map Prod.snd
  | .boolean high low => [high, low]

/-- The complement: every child is complemented. -/
def not : Edges → Edges
  | .version edges => .version (edges.map fun (range, node) => (range, node.not))
  | .string edges => .string (edges.map fun (range, node) => (range, node.not))
  | .boolean high low => .boolean high.not low.not

section Range

variable {T : Type} [OrdKey T]

/-- Equality of range maps. -/
def beqRanges (left right : List (Ranges T × NodeId)) : Bool :=
  left.length == right.length &&
    (left.zip right).all fun (left, right) =>
      left.1.beq right.1 && left.2 == right.2

end Range

/-- `PartialEq for Edges`. -/
def beq : Edges → Edges → Bool
  | .version left, .version right => beqRanges left right
  | .string left, .string right => beqRanges left right
  | .boolean high low, .boolean high' low' => high == high' && low == low'
  | _, _ => false

variable [RangeOps ValidVersion] [RangeOps Text]

/-- Merge two edges, applying the given operation to all intersecting edges.
Edges of different kinds cannot be merged. -/
def apply {σ : Type} (edges : Edges) (parent : NodeId) (rightEdges : Edges)
    (rightParent : NodeId) (apply : NodeId → NodeId → StateT σ Option NodeId) :
    StateT σ Option Edges :=
  match edges, rightEdges with
  | .version edges, .version rightEdges => do
      let edges ← applyRanges edges parent rightEdges rightParent apply
      pure (.version edges)
  | .string edges, .string rightEdges => do
      let edges ← applyRanges edges parent rightEdges rightParent apply
      pure (.string edges)
  | .boolean high low, .boolean rightHigh rightLow => do
      let high ← apply (high.negate parent) (rightHigh.negate rightParent)
      let low ← apply (low.negate parent) (rightLow.negate rightParent)
      pure (.boolean high low)
  | _, _ => failure

/-- Whether two edges are disjoint. -/
def isDisjoint (edges : Edges) (parent : NodeId) (rightEdges : Edges)
    (rightParent : NodeId) (disjointness : NodeId → NodeId → Option Bool) :
    Option Bool :=
  match edges, rightEdges with
  | .version edges, .version rightEdges =>
      isDisjointRanges edges parent rightEdges rightParent disjointness
  | .string edges, .string rightEdges =>
      isDisjointRanges edges parent rightEdges rightParent disjointness
  | .boolean high low, .boolean rightHigh rightLow => do
      let high ← disjointness (high.negate parent) (rightHigh.negate rightParent)
      if high then
        disjointness (low.negate parent) (rightLow.negate rightParent)
      else pure false
  | _, _ => failure

omit [RangeOps ValidVersion] [RangeOps Text] in
/-- Apply the given function to all direct children. -/
def map {m : Type → Type} [Monad m] (edges : Edges) (parent : NodeId)
    (f : NodeId → m NodeId) : m Edges :=
  match edges with
  | .version edges => do
      let edges ← mapRanges edges parent f
      pure (.version edges)
  | .string edges => do
      let edges ← mapRanges edges parent f
      pure (.string edges)
  | .boolean high low => do
      let low ← f (low.negate parent)
      let high ← f (high.negate parent)
      pure (.boolean high low)

/-! ## Edges of expressions -/

/-- Edges for a string expression.  `in`, `contains` and `~=` do not get
here. -/
def fromString (operator : MarkerOperator) (value : Text) : Option Edges :=
  let range : Option (Ranges Text) :=
    match operator with
    | .equal => some (.singleton value)
    | .notEqual => some (RangeOps.complement (.singleton value))
    | .greaterThan => some (.strictlyHigherThan value)
    | .greaterEqual => some (.higherThan value)
    | .lessThan => some (.strictlyLowerThan value)
    | .lessEqual => some (.lowerThan value)
    | _ => none
  range.map fun range => .string (fromRange range)

def fromSpecifier (specifier : VersionSpecifier) : Option Edges :=
  (specifier.onlyRelease.releaseSpecifierToRange true).map fun range =>
    .version (fromRange range)

/-- The equivalent `python_full_version` specifier for a `python_version`
specifier, or a constant node where the comparison is always true or always
false. -/
def pythonVersionToFullVersion (specifier : VersionSpecifier) :
    Option (Except NodeId VersionSpecifier) :=
  let release := specifier.version.val.release
  if specifier.operator.isStar then
    match release with
    | [_] => some (.ok specifier)
    | major :: minor :: rest =>
        if rest.all (· == 0) then
          match VersionSpecifier.fromVersion specifier.operator
              (.new [major, minor]) with
          | .ok specifier => some (.ok specifier)
          | .error _ => none
        else some (.error .FALSE)
    | [] => some (.error .FALSE)
  else if specifier.operator = .tildeEqual then
    match release with
    | [_, _] => some (.ok specifier)
    | major :: minor :: rest =>
        if rest.all (· == 0) then
          some (.ok (.equalsStarVersion (.new [major, minor])))
        else some (.error .FALSE)
    | _ => some (.error .FALSE)
  else
    let majorMinor :=
      match specifier.version.onlyReleaseTrimmed.val.release with
      | [major] => some (major, 0)
      | [major, minor] => some (major, minor)
      | _ => none
    match majorMinor with
    | some (major, minor) =>
        let version := ValidVersion.new [major, minor]
        let next := ValidVersion.new [major, u64Succ minor]
        match specifier.operator with
        | .equal | .exactEqual => some (.ok (.equalsStarVersion version))
        | .notEqual => some (.ok (.notEqualsStarVersion version))
        | .greaterThan => some (.ok (.greaterThanEqualVersion next))
        | .lessThan => some (.ok specifier)
        | .greaterThanEqual => some (.ok specifier)
        | .lessThanEqual => some (.ok (.lessThanVersion next))
        | .equalStar | .notEqualStar | .tildeEqual => none
    | none =>
        match release with
        | major :: minor :: _ =>
            let next := ValidVersion.new [major, u64Succ minor]
            match specifier.operator with
            | .equal | .exactEqual => some (.error .FALSE)
            | .notEqual => some (.error .TRUE)
            | .lessThan | .lessThanEqual => some (.ok (.lessThanVersion next))
            | .greaterThan | .greaterThanEqual =>
                some (.ok (.greaterThanEqualVersion next))
            | .equalStar | .notEqualStar | .tildeEqual => none
        | _ => none

/-- The intervals of `python_full_version` for one `python_version`. -/
def pythonVersionSegments (version : ValidVersion) :
    Option (Except NodeId (List (Bound ValidVersion × Bound ValidVersion))) := do
  match ← pythonVersionToFullVersion (.equalsVersion version.onlyRelease) with
  | .error node => some (.error node)
  | .ok specifier =>
      let range ← specifier.releaseSpecifierToRange true
      some (.ok range.segments)

/-- Collect the intervals of all versions, up to the first constant. -/
def pythonVersionsSegments :
    List ValidVersion →
      Option (Except NodeId (List (Bound ValidVersion × Bound ValidVersion)))
  | [] => some (.ok [])
  | first :: rest => do
      match ← pythonVersionSegments first with
      | .error node => some (.error node)
      | .ok segments =>
          match ← pythonVersionsSegments rest with
          | .error node => some (.error node)
          | .ok more => some (.ok (segments ++ more))

def negatedIf (operator : ContainerOperator) (range : Ranges ValidVersion) :
    Ranges ValidVersion :=
  if operator = .notIn then RangeOps.complement range else range

def fromPythonVersions (versions : List ValidVersion)
    (operator : ContainerOperator) : Option (Except NodeId Edges) := do
  match ← pythonVersionsSegments versions with
  | .error node => some (.error node)
  | .ok segments =>
      let range := RangeOps.collect segments
      some (.ok (.version (fromRange (negatedIf operator range))))

def fromVersions (versions : List ValidVersion) (operator : ContainerOperator) :
    Edges :=
  let range := RangeOps.collect
    (versions.map fun version => (.included version, .included version))
  .version (fromRange (negatedIf operator range))

end Edges

/-- Equality of nodes; variables of different name are different. -/
def Node.beq (left right : Node) : Bool :=
  left.var == right.var && left.children.beq right.children

def Node.not (node : Node) : Node := { node with children := node.children.not }

end Uv.Pep508
