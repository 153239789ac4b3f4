import Uv.Core.BoundingRange
import Uv.Resolver.RequiresPython

/-!
# Bounds of a marker

A marker that applies follows a path to the terminal that is true, and the
Python version lies on the last Python edge of that path.  The range of that
edge is collected, so the version lies inside the bounding range of all of them.

The bounds are reduced to releases.  That keeps the version inside when they are
releases already, as the bounds of specifiers and of Python requirements are.
-/

namespace Uv.Resolver

open Uv.Core Uv.Core.Order Uv.Pep440 Uv.Pep508 Uv.Pep508.Interner

/-! ## Releases -/

/-- The version is one of its release alone. -/
def IsRelease (version : ValidVersion) : Prop :=
  compare version.onlyReleaseTrimmed version = .eq

instance (version : ValidVersion) : Decidable (IsRelease version) :=
  inferInstanceAs (Decidable (_ = _))

/-- A bound at a release. -/
def IsReleaseBound : Bound ValidVersion → Prop
  | .included version => IsRelease version
  | .excluded version => IsRelease version
  | .unbounded => True

/-- Versions that compare as equal have the same release. -/
theorem key_onlyReleaseTrimmed {version other : ValidVersion}
    (hkey : OrdKey.key version = OrdKey.key other) :
    version.onlyReleaseTrimmed = other.onlyReleaseTrimmed := by
  have hrelease : trimZeros version.val.release = trimZeros other.val.release := by
    have hparts : version.val.makeFull.key = other.val.makeFull.key := hkey
    simp only [VersionFull.key, toLex_inj, Prod.mk.injEq] at hparts
    simpa only [Version.release_eq] using hparts.2.1
  rw [onlyReleaseTrimmed_eq, onlyReleaseTrimmed_eq, hrelease]

theorem IsRelease.key_eq {version other : ValidVersion} (hrelease : IsRelease version)
    (hkey : OrdKey.key other = OrdKey.key version) :
    OrdKey.key other.onlyReleaseTrimmed = OrdKey.key other := by
  rw [key_onlyReleaseTrimmed hkey, hkey]
  exact Bound.compare_eq_eq.mp hrelease

/-- Reducing a bound to a release does not move one that lies at a release. -/
theorem trimBound_lowerCut {bound other : Bound ValidVersion} (hrelease : IsReleaseBound bound)
    (hcut : other.lowerCut = bound.lowerCut) :
    (trimBound other).lowerCut = other.lowerCut := by
  cases other with
  | unbounded => rfl
  | included version =>
      cases bound with
      | included version' =>
          exact Cut.before_eq_before.mpr (hrelease.key_eq (Cut.before_eq_before.mp hcut))
      | excluded version' => exact (Cut.before_ne_after hcut).elim
      | unbounded => exact ((Cut.bot_lt_before version).ne' hcut).elim
  | excluded version =>
      cases bound with
      | included version' => exact (Cut.before_ne_after hcut.symm).elim
      | excluded version' =>
          exact Cut.after_eq_after.mpr (hrelease.key_eq (Cut.after_eq_after.mp hcut))
      | unbounded => exact ((Cut.bot_lt_after version).ne' hcut).elim

theorem trimBound_upperCut {bound other : Bound ValidVersion} (hrelease : IsReleaseBound bound)
    (hcut : other.upperCut = bound.upperCut) :
    (trimBound other).upperCut = other.upperCut := by
  cases other with
  | unbounded => rfl
  | included version =>
      cases bound with
      | included version' =>
          have hkey := Cut.after_eq_after.mp (WithTop.coe_inj.mp hcut)
          exact WithTop.coe_inj.mpr (Cut.after_eq_after.mpr (hrelease.key_eq hkey))
      | excluded version' => exact (Cut.before_ne_after (WithTop.coe_inj.mp hcut.symm)).elim
      | unbounded => exact (WithTop.coe_ne_top hcut).elim
  | excluded version =>
      cases bound with
      | included version' => exact (Cut.before_ne_after (WithTop.coe_inj.mp hcut)).elim
      | excluded version' =>
          have hkey := Cut.before_eq_before.mp (WithTop.coe_inj.mp hcut)
          exact WithTop.coe_inj.mpr (Cut.before_eq_before.mpr (hrelease.key_eq hkey))
      | unbounded => exact (WithTop.coe_ne_top hcut).elim

/-! ## Collected ranges -/

/-- An interval between two releases. -/
structure ReleaseRange (range : Ranges ValidVersion) : Prop where
  interval : range.IsInterval range.hull
  lower : ∃ bound, IsReleaseBound bound ∧ range.hull.1 = bound.lowerCut
  upper : ∃ bound, IsReleaseBound bound ∧ range.hull.2 = bound.upperCut

/-- The edges of every Python node of the marker lie between releases. -/
inductive ReleaseEdges (s : Interner) : NodeId → Prop where
  | true : ReleaseEdges s .TRUE
  | false : ReleaseEdges s .FALSE
  | node {id : NodeId} {node : Pep508.Node} (hnode : s.node id = some node)
      (hpython : node.var = .version .pythonFullVersion → ∀ edges,
        node.children = .version edges → ∀ edge ∈ edges, ReleaseRange edge.1)
      (hchildren : ∀ child ∈ node.children.nodes, ReleaseEdges s (child.negate id)) :
      ReleaseEdges s id

theorem releaseRange_single {lower upper : Bound ValidVersion}
    (hvalid : Bound.validSegment lower upper = true) (hlower : IsReleaseBound lower)
    (hupper : IsReleaseBound upper) : ReleaseRange ⟨[(lower, upper)]⟩ := by
  have hinterval : (⟨[(lower, upper)]⟩ : Ranges ValidVersion).IsInterval
      (cutsOf (lower, upper)) := ⟨rfl, Bound.validSegment_iff.mp hvalid⟩
  refine ⟨?_, ⟨lower, hlower, ?_⟩, ⟨upper, hupper, ?_⟩⟩ <;> rw [hinterval.hull_eq]
  · exact hinterval
  · rfl
  · rfl

theorem releaseRange_full : ReleaseRange .full :=
  releaseRange_single rfl trivial trivial

variable {s : Interner} {tree : NodeId} {range : Ranges ValidVersion} {fuel : ℕ}

theorem releaseRange_collectPythonMarkers (hedges : ReleaseEdges s tree)
    (hrange : ReleaseRange range) :
    ∀ part ∈ collectPythonMarkers s fuel tree range, ReleaseRange part := by
  induction fuel generalizing tree range with
  | zero => simp [collectPythonMarkers]
  | succ fuel ih =>
      intro part hpart
      cases hedges with
      | true =>
          rw [collectPythonMarkers, if_pos (by rfl), List.mem_singleton] at hpart
          rwa [hpart]
      | false => simp [collectPythonMarkers, NodeId.isTrue, NodeId.isFalse] at hpart
      | @node _ node hnode hpython hchildren =>
          simp only [collectPythonMarkers, isTrue_of_node hnode, isFalse_of_node hnode, hnode,
            Bool.false_eq_true, if_false] at hpart
          split at hpart
          · rename_i edges hvar hnodeChildren
            obtain ⟨edge, hedge, hpart⟩ := List.mem_flatMap.mp hpart
            refine ih (hchildren edge.2 ?_) (hpython hvar edges hnodeChildren edge hedge) part
              hpart
            rw [hnodeChildren]
            exact List.mem_map_of_mem hedge
          · obtain ⟨child, hchild, hpart⟩ := List.mem_flatMap.mp hpart
            exact ih (hchildren child hchild) hrange part hpart

/-- A marker that applies has a collected range around the Python version. -/
theorem exists_collectPythonMarkers (hwf : s.WellFormed) {env : MarkerEnvironment}
    {extras : ExtrasEnvironment} (hfuel : tree.rank < fuel)
    (hrange : range.contains env.pythonFullVersion = true)
    (haccepts : Accepts s (env.valuation extras) tree) :
    ∃ part ∈ collectPythonMarkers s fuel tree range,
      part.contains env.pythonFullVersion = true := by
  induction fuel generalizing tree range with
  | zero => omega
  | succ fuel ih =>
      cases haccepts with
      | true =>
          refine ⟨range, ?_, hrange⟩
          rw [collectPythonMarkers, if_pos (by rfl), List.mem_singleton]
      | @node _ node child hnode hvar hpick hchild =>
          have hrank := hwf.rank_step hnode hpick.mem
          have hfits := hwf.fits hnode
          simp only [collectPythonMarkers, isTrue_of_node hnode, isFalse_of_node hnode, hnode,
            Bool.false_eq_true, if_false]
          split
          · rename_i edges hvar hchildren
            rw [hvar, hchildren] at hpick hfits
            obtain ⟨edge, hedge, rfl, hin⟩ := onEdge_iff.mp hpick
            have hcover : Cover edges := hfits
            have hcontains : edge.1.contains env.pythonFullVersion = true := by
              rw [Ranges.contains_iff_has, (hcover.interval edge hedge).has_iff]
              exact hin
            obtain ⟨part, hpart, hcontains⟩ :=
              ih (by omega) hcontains hchild
            exact ⟨part, List.mem_flatMap.mpr ⟨edge, hedge, hpart⟩, hcontains⟩
          · obtain ⟨part, hpart, hcontains⟩ :=
              ih (by omega) hrange hchild
            exact ⟨part, List.mem_flatMap.mpr ⟨child, hpick.mem, hpart⟩, hcontains⟩

section Union

variable [RangeOps ValidVersion]

theorem foldl_union {parts : List (Ranges ValidVersion)} {start : Ranges ValidVersion}
    (hstart : start.Valid) (hparts : ∀ part ∈ parts, part.Valid) :
    (parts.foldl RangeOps.union start).Valid ∧ ∀ position,
      (parts.foldl RangeOps.union start).Mem position ↔
        start.Mem position ∨ ∃ part ∈ parts, part.Mem position := by
  induction parts generalizing start with
  | nil => exact ⟨hstart, by simp⟩
  | cons part parts ih =>
      rw [List.forall_mem_cons] at hparts
      obtain ⟨hvalid, hmem⟩ := ih (RangeOps.valid_union hstart hparts.1) hparts.2
      refine ⟨hvalid, fun position => ?_⟩
      rw [List.foldl_cons, hmem, RangeOps.mem_union hstart hparts.1, List.exists_mem_cons_iff,
        or_assoc]

/-- The bounds a marker puts on the Python version hold wherever it applies. -/
theorem requiresPython_between [RangeOps Text] (hreach : Reachable s) (hvalid : s.Valid tree)
    (hedges : ReleaseEdges s tree) {bounds : RequiresPythonRange}
    (hbounds : requiresPython s tree = some bounds) {env : MarkerEnvironment}
    {extras : ExtrasEnvironment} (happlies : s.evaluate env extras tree = true) :
    bounds.Between env.pythonFullVersion := by
  have hwf := hreach.sound.wellFormed
  have hcollected : ∀ part ∈ collectPythonMarkers s (tree.rank + 1) tree .full,
      ReleaseRange part := releaseRange_collectPythonMarkers hedges releaseRange_full
  rw [evaluate_iff_accepts hwf hvalid] at happlies
  obtain ⟨part, hpart, hcontains⟩ := exists_collectPythonMarkers hwf (Nat.lt_succ_self _)
    (show (Ranges.full : Ranges ValidVersion).contains env.pythonFullVersion = true from rfl)
    happlies
  simp only [requiresPython] at hbounds
  split at hbounds
  · cases hbounds
  split at hbounds
  · cases hbounds
  obtain ⟨⟨lower, upper⟩, hbounding, rfl⟩ := Option.map_eq_some_iff.mp hbounds
  have hempty : (Ranges.empty : Ranges ValidVersion).Valid := separated_nil
  obtain ⟨hunion, hmem⟩ := foldl_union hempty fun part hpart =>
    (hcollected part hpart).interval.valid
  have hmem' : ∀ position, Ranges.Mem _ position ↔
      ∃ part ∈ collectPythonMarkers s (tree.rank + 1) tree .full, part.Mem position :=
    fun position => (hmem position).trans (or_iff_right (by simp [Ranges.Mem, Ranges.empty]))
  have hbounded := Ranges.bounded_of_boundingRange hunion hbounding
  obtain ⟨⟨first, hfirst, hlower⟩, last, hlast, hupper⟩ := hbounded.exists_ends
    (fun part hpart => (hcollected part hpart).interval) hmem'
  have hinside := hbounded.inside _ ((hmem' _).mpr
    ⟨part, hpart, Ranges.contains_iff.mp hcontains⟩)
  obtain ⟨bound, hrelease, hcut⟩ := (hcollected first hfirst).lower
  obtain ⟨bound', hrelease', hcut'⟩ := (hcollected last hlast).upper
  constructor
  · rw [Bound.isBelow_iff, trimBound_lowerCut hrelease (hlower.symm.trans hcut)]
    exact hinside.1
  · rw [Bound.isAbove_iff, trimBound_upperCut hrelease' (hupper.symm.trans hcut')]
    exact hinside.2

end Union

/-! ## Concrete markers -/

/-- `python_full_version >= '3.8'`. -/
private def atLeast : Operation :=
  .expression (.version .pythonFullVersion ⟨.greaterThanEqual, .new [3, 8], by decide⟩)

private def atLeastState : Interner where
  nodes := [⟨.version .pythonFullVersion,
    .version [(.strictlyLowerThan (.new [3, 8]), .TRUE), (.higherThan (.new [3, 8]), .FALSE)]⟩]
  cache := []
  exclusions := none

theorem requiresPython_between_atLeast : ∃ bounds,
    requiresPython atLeastState (.new 0 true) = some bounds ∧
      bounds.Between linuxEnvironment.pythonFullVersion := by
  have hrun : atLeast.perform.run Interner.default = some (some (.new 0 true), atLeastState) := by
    rfl
  have hreach : Reachable atLeastState := .step _ .default (by simp [atLeast, Operation.arguments])
    hrun
  have hrelease : IsRelease (.new [3, 8]) := by decide
  have hedges : ReleaseEdges atLeastState (.new 0 true) := by
    refine .node rfl ?_ ?_
    · rintro - edges hchildren edge hedge
      rw [← Edges.version.inj hchildren] at hedge
      simp only [List.mem_cons, List.not_mem_nil, or_false] at hedge
      rcases hedge with rfl | rfl
      · exact releaseRange_single rfl trivial hrelease
      · exact releaseRange_single rfl hrelease trivial
    · simp only [Edges.nodes, List.map_cons, List.map_nil, List.forall_mem_cons]
      exact ⟨.false, .true, by simp⟩
  obtain ⟨bounds, hbounds⟩ := Option.isSome_iff_exists.mp
    (show (requiresPython atLeastState (.new 0 true)).isSome = true by decide +kernel)
  have happlies : atLeastState.evaluate linuxEnvironment (.extras []) (.new 0 true) = true := by
    decide +kernel
  exact ⟨bounds, hbounds, requiresPython_between hreach (by decide) hedges hbounds happlies⟩

/-- Linux with Python 3.8. -/
private def python38 : MarkerEnvironment :=
  { linuxEnvironment with pythonFullVersion := .new [3, 8] }

/-- `python_full_version > '3.8a1'`, as a Python context whose bound is no release. -/
private def aboveAlpha : Operation :=
  .complexifyPythonVersions .TRUE
    (.excluded ((ValidVersion.new [3, 8]).withPre (some ⟨.alpha, 1⟩))) .unbounded

/-- The bound is reduced to `> 3.8`, although the marker applies to 3.8. -/
theorem not_requiresPython_between : ∃ (s : Interner) (tree : NodeId)
    (bounds : RequiresPythonRange) (env : MarkerEnvironment), Reachable s ∧ s.Valid tree ∧
      requiresPython s tree = some bounds ∧ IsRelease env.pythonFullVersion ∧
        s.evaluate env (.extras []) tree = true ∧ ¬ bounds.Between env.pythonFullVersion := by
  have hrun : ((performAll [aboveAlpha] Interner.default).bind fun s =>
      (requiresPython s (.new 0 true)).map fun bounds =>
        (decide (s.Valid (.new 0 true)) && s.evaluate python38 (.extras []) (.new 0 true) &&
          !bounds.lower.isBelow python38.pythonFullVersion)) = some true := by
    decide +kernel
  obtain ⟨s, hperform, hrun⟩ := Option.bind_eq_some_iff.mp hrun
  obtain ⟨bounds, hbounds, hcheck⟩ := Option.map_eq_some_iff.mp hrun
  simp only [Bool.and_eq_true, decide_eq_true_eq, Bool.not_eq_true'] at hcheck
  refine ⟨s, .new 0 true, bounds, python38, Reachable.default.performAll hperform, hcheck.1.1,
    hbounds, by decide, hcheck.1.2, fun hbetween => ?_⟩
  have hbelow := hbetween.1
  rw [hcheck.2] at hbelow
  cases hbelow

end Uv.Resolver
