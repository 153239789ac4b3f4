import Uv.Pep508.Operations

/-!
# Reachable interner states

Markers are only made by the public operations, in any order and on any markers
that exist already.  What every operation keeps holds in every state, whatever
has been computed before: the edges of a node split its order into intervals,
and evaluation turns the operations of the algebra into those of the booleans.
-/

namespace Uv.Pep508

open Uv.Core Uv.Pep440

section Reachable

variable [RangeOps ValidVersion] [RangeOps Text]

/-- A public marker operation that uses the interner.  `negate` does not: it
flips a bit of the reference. -/
inductive Operation where
  | expression (expr : MarkerExpression)
  | and (x y : NodeId)
  | or (x y : NodeId)
  | isDisjoint (x y : NodeId)
  | simplifyExtrasWith (isExtra : Text → Bool) (i : NodeId)
  | simplifyNotExtrasWith (isExtra : Text → Bool) (i : NodeId)
  | withoutExtras (fuel : ℕ) (i : NodeId)
  | onlyExtras (fuel : ℕ) (i : NodeId)
  | simplifyPythonVersions (i : NodeId) (pyLower pyUpper : Bound ValidVersion)
  | complexifyPythonVersions (i : NodeId) (pyLower pyUpper : Bound ValidVersion)

namespace Operation

/-- The markers the operation works on. -/
def arguments : Operation → List NodeId
  | expression _ => []
  | and x y => [x, y]
  | or x y => [x, y]
  | isDisjoint x y => [x, y]
  | simplifyExtrasWith _ i => [i]
  | simplifyNotExtrasWith _ i => [i]
  | withoutExtras _ i => [i]
  | onlyExtras _ i => [i]
  | simplifyPythonVersions i _ _ => [i]
  | complexifyPythonVersions i _ _ => [i]

/-- The new marker, if the operation makes one. -/
def perform : Operation → InternerM (Option NodeId)
  | expression expr => some <$> Pep508.expression expr
  | and x y => some <$> Pep508.and x y
  | or x y => some <$> Pep508.or x y
  | isDisjoint x y => (fun _ => none) <$> Pep508.isDisjoint x y
  | simplifyExtrasWith isExtra i => some <$> Pep508.simplifyExtrasWith isExtra i
  | simplifyNotExtrasWith isExtra i =>
      some <$> Pep508.simplifyNotExtrasWith isExtra i
  | withoutExtras fuel i => some <$> Pep508.withoutExtras fuel i
  | onlyExtras fuel i => some <$> Pep508.onlyExtras fuel i
  | simplifyPythonVersions i pyLower pyUpper =>
      some <$> Pep508.simplifyPythonVersions i pyLower pyUpper
  | complexifyPythonVersions i pyLower pyUpper =>
      some <$> Pep508.complexifyPythonVersions i pyLower pyUpper

end Operation

namespace Interner

variable {s s' : Interner} {below : Variable → Variable → Prop}

/-- What an operation leaves behind: a sound state and a marker of it. -/
def Leaves (s : Interner) (result : Option NodeId) : Prop :=
  ∀ r, result = some r → s.Valid r

omit [RangeOps ValidVersion] [RangeOps Text] in
private theorem allows_some {action : InternerM NodeId}
    {post : Interner → NodeId → Prop} (haction : Allows (Sound below) action s post)
    (hvalid : ∀ {s r}, post s r → s.Valid r) :
    Allows (Sound below) (some <$> action) s Leaves := by
  rw [map_eq_pure_bind]
  refine Allows.bind haction fun r s' hsound' hle hpost => Allows.pure hsound' ?_
  rintro _ ⟨⟩
  exact hvalid hpost

/-- Every operation keeps the state sound, if requiring a Python range does. -/
theorem perform_allows {op : Operation} (hsound : Sound below s)
    (hvalid : ∀ id ∈ op.arguments, s.Valid id)
    (hadmits : ∀ i pyLower pyUpper, op = .complexifyPythonVersions i pyLower pyUpper →
      Restricts pyLower pyUpper → Admits below s i) :
    Allows (Sound below) op.perform s Leaves := by
  cases op with
  | expression expr =>
      have hallows : Allows (Sound below) (Pep508.expression expr) s
          fun s' r => s'.Valid r := by
        cases hresult : expressionEdges expr with
        | none =>
            intro r s' hrun
            simp only [Pep508.expression, hresult] at hrun
            cases hrun
        | some result => exact .of_ensures (expression_ensures hsound hresult)
      exact allows_some hallows id
  | and x y =>
      exact allows_some (.of_ensures (and_ensures hsound (hvalid x (by
        simp [Operation.arguments])) (hvalid y (by simp [Operation.arguments]))))
        Conj.valid
  | or x y =>
      exact allows_some (.of_ensures (or_ensures hsound (hvalid x (by
        simp [Operation.arguments])) (hvalid y (by simp [Operation.arguments]))))
        Disj.valid
  | isDisjoint x y =>
      rw [Operation.perform, map_eq_pure_bind]
      refine Allows.bind (.of_ensures (isDisjoint_ensures hsound (hvalid x (by
        simp [Operation.arguments])) (hvalid y (by simp [Operation.arguments]))))
        fun _ s' hsound' _ _ => Allows.pure hsound' ?_
      rintro _ ⟨⟩
  | simplifyExtrasWith isExtra i =>
      exact allows_some (.of_ensures (restrict_ensures hsound (hvalid i (by
        simp [Operation.arguments])) (Nat.lt_succ_self _))) Restricted.valid
  | simplifyNotExtrasWith isExtra i =>
      exact allows_some (.of_ensures (restrict_ensures hsound (hvalid i (by
        simp [Operation.arguments])) (Nat.lt_succ_self _))) Restricted.valid
  | withoutExtras fuel i =>
      exact allows_some (withoutVariables_allows hsound (hvalid i (by
        simp [Operation.arguments]))) Dropped.valid
  | onlyExtras fuel i =>
      exact allows_some (withoutVariables_allows hsound (hvalid i (by
        simp [Operation.arguments]))) Dropped.valid
  | simplifyPythonVersions i pyLower pyUpper =>
      exact allows_some (.of_ensures (simplifyPythonVersions_ensures hsound
        (hvalid i (by simp [Operation.arguments])) pyLower pyUpper))
        Simplified.valid
  | complexifyPythonVersions i pyLower pyUpper =>
      exact allows_some (.of_ensures (complexifyPythonVersions_ensures hsound
        (hvalid i (by simp [Operation.arguments])) pyLower pyUpper
        (hadmits i pyLower pyUpper rfl))) Complexified.valid

/-- The states any sequence of public operations leads to. -/
inductive Reachable : Interner → Prop where
  | default : Reachable default
  | step {s s' : Interner} {result : Option NodeId} (op : Operation)
      (hreach : Reachable s) (hvalid : ∀ id ∈ op.arguments, s.Valid id)
      (hrun : op.perform.run s = some (result, s')) : Reachable s'

/-- Perform operations one after the other, each on markers that exist. -/
def performAll : List Operation → Interner → Option Interner
  | [], s => some s
  | op :: ops, s =>
      if op.arguments.all fun id => decide (s.Valid id) then
        (op.perform.run s).bind fun (_, s') => performAll ops s'
      else none

theorem Reachable.performAll {ops : List Operation} (hreach : Reachable s)
    (hrun : performAll ops s = some s') : Reachable s' := by
  induction ops generalizing s with
  | nil =>
      cases hrun
      exact hreach
  | cons op ops ih =>
      simp only [Interner.performAll] at hrun
      split at hrun
      · rename_i hvalid
        obtain ⟨⟨result, next⟩, hop, hrest⟩ := Option.bind_eq_some_iff.mp hrun
        refine ih (.step op hreach (fun id hid => ?_) hop) hrest
        exact of_decide_eq_true (List.all_eq_true.mp hvalid id hid)
      · cases hrun

omit [RangeOps ValidVersion] [RangeOps Text] in
theorem admits_below (hwf : s.WellFormed) {i : NodeId} (hvalid : s.Valid i) :
    Admits Variable.Below s i := by
  induction i, hvalid using Valid.induct hwf with
  | true => exact .true
  | false => exact .false
  | @step id node hnode ih =>
      exact .node hnode (.inr rfl) fun child hchild parent =>
        ih child hchild parent (hwf.valid_step hnode hchild)

/-- Every reachable state is sound, with only the Python version out of order. -/
theorem Reachable.sound (hreach : Reachable s) : Sound Variable.Below s := by
  induction hreach with
  | default => exact sound_default strata_below
  | step op _ hvalid hrun ih =>
      refine (perform_allows ih hvalid ?_ _ _ hrun).1
      rintro i pyLower pyUpper rfl -
      exact admits_below ih.wellFormed (hvalid i (by simp [Operation.arguments]))

end Interner

end Reachable

/-! ## The edges of a node -/

section Partition

variable {T : Type} [OrdKey T] {edges : List (Ranges T × NodeId)}

/-- The ranges of the edges are intervals, in order, that split the order. -/
structure Partition (edges : List (Ranges T × NodeId)) : Prop where
  single : ∀ edge ∈ edges, ∃ start stop, edge.1.segments = [(start, stop)] ∧
    Bound.validSegment start stop = true
  sorted : edges.Pairwise fun left right => left.1.hull.2 ≤ right.1.hull.1
  disjoint : edges.Pairwise fun left right =>
    ∀ position, ¬ (left.1.Mem position ∧ right.1.Mem position)
  covers : ∀ position, ∃! edge, edge ∈ edges ∧ edge.1.Mem position
  routes : ∀ value, ∃! edge, edge ∈ edges ∧ edge.1.contains value = true

theorem Spans.sorted {start stop : WithTop (Cut T)} (hspans : Spans start stop edges) :
    edges.Pairwise fun left right => left.1.hull.2 ≤ right.1.hull.1 := by
  induction edges generalizing start with
  | nil => exact .nil
  | cons edge rest ih =>
      obtain ⟨-, -, hrest⟩ := spans_cons.mp hspans
      exact .cons (fun next hnext => (hrest.le_of_mem hnext).1) (ih hrest)

theorem Cover.partition (hcover : Cover edges) : Partition edges := by
  have hspans : Spans ((⊥ : Cut T) : WithTop (Cut T)) ⊤ edges :=
    ⟨hcover.interval, hcover.tiles⟩
  have hmem : ∀ edge ∈ edges, ∀ position, edge.1.Mem position ↔
      Between edge.1.hull position := fun edge hedge =>
    (hcover.interval edge hedge).mem_iff
  have hdisjoint : edges.Pairwise fun left right =>
      ∀ position, ¬ (left.1.Mem position ∧ right.1.Mem position) := by
    refine (List.Pairwise.and_mem.mp hspans.sorted).imp ?_
    rintro left right ⟨hleft, hright, hsorted⟩ position ⟨hinLeft, hinRight⟩
    rw [hmem left hleft] at hinLeft
    rw [hmem right hright] at hinRight
    exact absurd (hinLeft.2.trans_le (hsorted.trans
      (WithTop.coe_le_coe.mpr hinRight.1))) (lt_irrefl _)
  have hcovers : ∀ position, ∃! edge, edge ∈ edges ∧ edge.1.Mem position := by
    intro position
    obtain ⟨child, honEdge⟩ := hcover.exists_onEdge (.ofPosition position)
    obtain ⟨edge, hedge, -, hin⟩ := onEdge_iff.mp honEdge
    have hinEdge := (hmem edge hedge position).mpr (Point.ofPosition_in.mp hin)
    refine ⟨edge, ⟨hedge, hinEdge⟩, fun other ⟨hother, hinOther⟩ => ?_⟩
    by_contra hne
    have hsymm : Std.Symm fun left right : Ranges T × NodeId =>
        ∀ position, ¬ (left.1.Mem position ∧ right.1.Mem position) :=
      ⟨fun _ _ hnot position hboth => hnot position hboth.symm⟩
    exact hdisjoint.forall hother hedge hne position ⟨hinOther, hinEdge⟩
  refine ⟨fun edge hedge => ?_, hspans.sorted, hdisjoint, hcovers, fun value => ?_⟩
  · have hinterval := hcover.interval edge hedge
    obtain ⟨⟨start, stop⟩, hsegments, hcuts⟩ := hinterval.exists_segment
    refine ⟨start, stop, hsegments, Bound.validSegment_iff.mpr ?_⟩
    have hnonempty := hinterval.nonempty
    rwa [← hcuts] at hnonempty
  · simp only [Ranges.contains_iff]
    exact hcovers _

end Partition

/-- Version and string edges split their order. -/
def Edges.Partitioned : Edges → Prop
  | .version edges => Partition edges
  | .string edges => Partition edges
  | .boolean _ _ => True

theorem Edges.Fits.partitioned {var : Variable} {edges : Edges}
    (hfits : edges.Fits var) : edges.Partitioned := by
  unfold Edges.Fits at hfits
  cases hdomain : var.domain <;> cases edges <;> simp only [hdomain] at hfits
  · exact hfits.partition
  · exact hfits.partition
  · trivial

section Reachable

variable [RangeOps ValidVersion] [RangeOps Text] {s : Interner}

/-- In every reachable state the edges of every node split the order of its
variable, and changing the Python context of a marker never fails. -/
theorem Interner.Reachable.edges_partitioned (hreach : Reachable s) :
    (∀ node ∈ s.nodes, node.children.Partitioned) ∧
      ∀ id, s.Valid id → ∀ pyLower pyUpper,
        (∃ r s', (simplifyPythonVersions id pyLower pyUpper).run s =
          some (r, s')) ∧
        ∃ r s', (complexifyPythonVersions id pyLower pyUpper).run s =
          some (r, s') := by
  have hsound := hreach.sound
  have hwf := hsound.wellFormed
  refine ⟨fun node hmem => ?_, fun id hvalid pyLower pyUpper => ⟨?_, ?_⟩⟩
  · obtain ⟨index, hget⟩ := List.mem_iff_getElem?.mp hmem
    exact (hwf.node hget).fits.partitioned
  · obtain ⟨r, s', hrun, -⟩ := simplifyPythonVersions_ensures hsound hvalid
      pyLower pyUpper
    exact ⟨r, s', hrun⟩
  · obtain ⟨r, s', hrun, -⟩ := complexifyPythonVersions_ensures hsound hvalid
      pyLower pyUpper fun _ => admits_below hwf hvalid
    exact ⟨r, s', hrun⟩

end Reachable

/-- After `os_name == 'nt'` there is one node, and it splits its order. -/
theorem Interner.Reachable.edges_partitioned_osName :
    ∃ s : Interner, s.nodes.length = 1 ∧
      ∀ node ∈ s.nodes, node.children.Partitioned := by
  have hrun : ∃ result s', (Operation.expression
      (.string .osName .equal "nt".toList)).perform.run Interner.default =
        some (result, s') ∧ s'.nodes.length = 1 := by
    refine ⟨_, _, rfl, ?_⟩
    rfl
  obtain ⟨result, s', hrun, hlength⟩ := hrun
  exact ⟨s', hlength, (Reachable.step _ .default (by simp [Operation.arguments])
    hrun).edges_partitioned.1⟩

end Uv.Pep508
