import Uv.Pep508.Algebra
import Uv.Pep508.Lowering

/-!
# Python requirements

The Python versions a resolution is for, as bounds and as a marker, and the
bounds that a marker puts on the Python version.  Of a requirement only the
range of its target matters here.
-/

namespace Uv.Resolver

open Uv.Core Uv.Pep440 Uv.Pep508 Uv.Pep508.Interner

/-! ## Bounds -/

/-- `LowerBound::new` and `UpperBound::new`: only releases are compared. -/
def trimBound : Bound ValidVersion → Bound ValidVersion
  | .included version => .included version.onlyReleaseTrimmed
  | .excluded version => .excluded version.onlyReleaseTrimmed
  | .unbounded => .unbounded

/-- `Ord for LowerBound`. -/
def compareLowerBound : Bound ValidVersion → Bound ValidVersion → Ordering
  | .unbounded, .unbounded => .eq
  | .included _, .unbounded => .gt
  | .excluded _, .unbounded => .gt
  | .unbounded, .included _ => .lt
  | .included left, .included right => compare left right
  | .excluded left, .included right =>
      match compare left right with
      | .lt => .lt
      | .eq => .gt
      | .gt => .gt
  | .unbounded, .excluded _ => .lt
  | .included left, .excluded right =>
      match compare left right with
      | .lt => .lt
      | .eq => .lt
      | .gt => .gt
  | .excluded left, .excluded right => compare left right

structure RequiresPythonRange where
  lower : Bound ValidVersion
  upper : Bound ValidVersion

/-- `release_specifiers_to_ranges`; `none` stands for a panic. -/
def releaseSpecifiersToRanges [RangeOps ValidVersion] (specifiers : List VersionSpecifier) :
    Option (Ranges ValidVersion) :=
  specifiers.foldlM (fun range specifier => do
    let next ← specifier.releaseSpecifierToRange false
    pure (RangeOps.intersection range next)) .full

/-- The range of `RequiresPython::from_specifiers`.  Specifiers that no version satisfies
have no bounds. -/
def RequiresPythonRange.fromSpecifiers [RangeOps ValidVersion]
    (specifiers : List VersionSpecifier) : Option RequiresPythonRange := do
  let range ← releaseSpecifiersToRanges specifiers
  match range.boundingRange with
  | some (lower, upper) => pure ⟨trimBound lower, trimBound upper⟩
  | none => pure ⟨.unbounded, .unbounded⟩

/-- The target of a `PythonRequirement`. -/
structure PythonRequirement where
  target : RequiresPythonRange

namespace PythonRequirement

/-- Whether the bounds start above those of the requirement. -/
def raises (requirement : PythonRequirement) (target : RequiresPythonRange) :
    Bool :=
  compareLowerBound target.lower requirement.target.lower == .gt

section Marker

variable [RangeOps ValidVersion] [RangeOps Text]

/-- `python_full_version` compared with a version. -/
def compareMarker (operator : Operator) (version : ValidVersion)
    (hoperator : operator ≠ .tildeEqual) : InternerM NodeId :=
  expression (.version .pythonFullVersion
    ⟨operator, version, fun htilde => (hoperator htilde).elim⟩)

def lowerMarker : Bound ValidVersion → InternerM NodeId
  | .included lower => compareMarker .greaterThanEqual lower (by decide)
  | .excluded lower => compareMarker .greaterThan lower (by decide)
  | .unbounded => pure .TRUE

def upperMarker : Bound ValidVersion → InternerM NodeId
  | .included upper => compareMarker .lessThanEqual upper (by decide)
  | .excluded upper => compareMarker .lessThan upper (by decide)
  | .unbounded => pure .TRUE

/-- The marker for the versions between the bounds. -/
def toMarkerTree (requirement : PythonRequirement) : InternerM NodeId := do
  match requirement.target.lower, requirement.target.upper with
  | .unbounded, .unbounded => pure .TRUE
  | .unbounded, upper => upperMarker upper
  | lower, .unbounded => lowerMarker lower
  | lower, upper => do
      let lower ← lowerMarker lower
      let upper ← upperMarker upper
      Pep508.and lower upper

end Marker

end PythonRequirement

/-! ## Python bounds of a marker -/

/-- The Python range on every path to the terminal that is true. -/
def collectPythonMarkers (interner : Interner) :
    ℕ → NodeId → Ranges ValidVersion → List (Ranges ValidVersion)
  | 0, _, _ => []
  | fuel + 1, tree, range =>
      if tree.isTrue then [range]
      else if tree.isFalse then []
      else
        match interner.node tree with
        | none => []
        | some node =>
            match node.var, node.children with
            | .version .pythonFullVersion, .version edges =>
                edges.flatMap fun (range, child) =>
                  collectPythonMarkers interner fuel (child.negate tree) range
            | _, children =>
                children.nodes.flatMap fun child =>
                  collectPythonMarkers interner fuel (child.negate tree) range

/-- The bounding Python versions that can satisfy the marker, if it is
constrained. -/
def requiresPython [RangeOps ValidVersion] (interner : Interner) (tree : NodeId) :
    Option RequiresPythonRange :=
  if tree.isTrue || tree.isFalse then none
  else
    let markers := collectPythonMarkers interner (tree.rank + 1) tree .full
    if markers.all fun range =>
        match range.boundingRange with
        | none => true
        | some (lower, upper) => lower.isUnbounded && upper.isUnbounded then none
    else
      let range := markers.foldl RangeOps.union .empty
      range.boundingRange.map fun (lower, upper) =>
        ⟨trimBound lower, trimBound upper⟩

/-! ## What the marker of a requirement is -/

section Marker

variable [RangeOps ValidVersion] [RangeOps Text] {s : Interner}
  {below : Variable → Variable → Prop}

namespace PythonRequirement

theorem compareMarker_ensures {operator : Operator} {version : ValidVersion}
    (hoperator : operator ≠ .tildeEqual) (hstar : operator.isStar = false)
    (hsound : Sound below s) :
    Ensures (Sound below) (compareMarker operator version hoperator) s Named := by
  have hedges : ∃ edges, expressionEdges (.version .pythonFullVersion
      ⟨operator, version, fun htilde => (hoperator htilde).elim⟩) =
        some (.ok (.version .pythonFullVersion, edges)) := by
    cases operator with
    | tildeEqual => exact (hoperator rfl).elim
    | equalStar => cases hstar
    | notEqualStar => cases hstar
    | _ => exact ⟨_, rfl⟩
  obtain ⟨edges, hedges⟩ := hedges
  have hsimple := expressionEdges_describes hedges
  simp only [compareMarker, expression, hedges]
  apply (createSimple_ensures hsound hsimple).weaken
  rintro r s' - - ⟨hvalid, hrep⟩
  exact ⟨hvalid, hrep.allVars_simple hsimple rfl⟩

theorem lowerMarker_ensures (bound : Bound ValidVersion) (hsound : Sound below s) :
    Ensures (Sound below) (lowerMarker bound) s Named := by
  cases bound with
  | included version => exact compareMarker_ensures (by decide) rfl hsound
  | excluded version => exact compareMarker_ensures (by decide) rfl hsound
  | unbounded => exact Ensures.pure hsound named_true

theorem upperMarker_ensures (bound : Bound ValidVersion) (hsound : Sound below s) :
    Ensures (Sound below) (upperMarker bound) s Named := by
  cases bound with
  | included version => exact compareMarker_ensures (by decide) rfl hsound
  | excluded version => exact compareMarker_ensures (by decide) rfl hsound
  | unbounded => exact Ensures.pure hsound named_true

/-- The marker of a requirement can always be made. -/
theorem toMarkerTree_ensures (requirement : PythonRequirement)
    (hsound : Sound below s) :
    Ensures (Sound below) requirement.toMarkerTree s Named := by
  unfold toMarkerTree
  split
  · exact Ensures.pure hsound named_true
  · exact upperMarker_ensures _ hsound
  · exact lowerMarker_ensures _ hsound
  · apply Ensures.bind (lowerMarker_ensures _ hsound)
    intro lower s₁ hsound₁ _ hlower
    apply Ensures.bind (upperMarker_ensures _ hsound₁)
    intro upper s₂ hsound₂ hle hupper
    apply (and_ensures hsound₂ (hlower.valid.mono hle) hupper.valid).weaken
    intro r s₃ _ hle₃ hconj
    exact hconj.named ((hlower.mono hle).mono hle₃) (hupper.mono hle₃)

omit [RangeOps ValidVersion] [RangeOps Text] in
theorem onlyReleaseTrimmed_onlyRelease (version : ValidVersion) :
    version.onlyRelease.onlyReleaseTrimmed = version.onlyReleaseTrimmed := by
  have hrelease := release_onlyRelease version
  change ValidVersion.mk _ _ = ValidVersion.mk _ _
  simp only [Version.onlyReleaseTrimmed, hrelease]

/-- The versions that an expression about the Python version holds for. -/
theorem expression_evaluate {expr : MarkerExpression} {range : Ranges ValidVersion}
    (hedges : expressionEdges expr =
      some (.ok (.version .pythonFullVersion, .version (Edges.fromRange range))))
    (hvalid : range.Valid) (hsound : Sound below s) :
    Ensures (Sound below) (expression expr) s fun s' r =>
      Named s' r ∧ OnlyPython s' r ∧ ∀ env extras,
        s'.evaluate env extras r = range.contains env.pythonFullVersion := by
  have hsimple := Edges.simple_version .pythonFullVersion hvalid
  simp only [expression, hedges]
  apply (createSimple_ensures hsound hsimple).weaken
  rintro r s' hsound' - ⟨hr, hrep⟩
  have hnamed : Named s' r := ⟨hr, hrep.allVars_simple hsimple rfl⟩
  refine ⟨hnamed, hrep.allVars_simple hsimple rfl, ?_⟩
  intro env extras
  obtain ⟨child, hpick⟩ := (env.valuation extras).exists_picks hsimple.fits
  rw [Bool.eq_iff_iff, evaluate_iff_holds hsound'.wellFormed hnamed.valid hnamed.wellNamed,
    hrep.holds_iff hsound'.wellFormed hpick, Ranges.contains_iff_has]
  rcases onEdge_fromRange_iff_has hvalid hpick with ⟨rfl, hhas⟩ | ⟨rfl, hhas⟩
  · exact iff_of_true holds_true hhas
  · exact iff_of_false not_holds_false hhas

/-- The versions that the marker of a comparison holds for. -/
theorem compareMarker_evaluate {operator : Operator} {version : ValidVersion}
    {range : Ranges ValidVersion} (hoperator : operator ≠ .tildeEqual)
    (hrange : (VersionSpecifier.onlyRelease ⟨operator, version,
      fun htilde => (hoperator htilde).elim⟩).releaseSpecifierToRange true = some range)
    (hsound : Sound below s) :
    Ensures (Sound below) (compareMarker operator version hoperator) s fun s' r =>
      Named s' r ∧ OnlyPython s' r ∧ ∀ env extras,
        s'.evaluate env extras r = range.contains env.pythonFullVersion := by
  have hedges : expressionEdges (.version .pythonFullVersion
      ⟨operator, version, fun htilde => (hoperator htilde).elim⟩) =
        some (.ok (.version .pythonFullVersion, .version (Edges.fromRange range))) := by
    change (Option.map _ (VersionSpecifier.releaseSpecifierToRange _ true)).bind _ = _
    rw [hrange]
    rfl
  exact expression_evaluate hedges (valid_releaseSpecifierToRange hrange) hsound

/-- The marker of a comparison with a trimmed version, for the versions on one side of it. -/
theorem compareMarker_trimmed {operator : Operator} {version : ValidVersion}
    (hoperator : operator ≠ .tildeEqual) (hversion : version.onlyReleaseTrimmed = version)
    (range : ValidVersion → Ranges ValidVersion) (holds : ValidVersion → Bool)
    (hrange : (VersionSpecifier.onlyRelease ⟨operator, version,
      fun htilde => (hoperator htilde).elim⟩).releaseSpecifierToRange true =
        some (range version.onlyRelease.onlyReleaseTrimmed))
    (hcontains : ∀ other, (range version).contains other = holds other)
    (hsound : Sound below s) :
    Ensures (Sound below) (compareMarker operator version hoperator) s fun s' r =>
      Named s' r ∧ OnlyPython s' r ∧ ∀ env extras,
        s'.evaluate env extras r = holds env.pythonFullVersion := by
  rw [onlyReleaseTrimmed_onlyRelease, hversion] at hrange
  apply (compareMarker_evaluate hoperator hrange hsound).weaken
  intro r s' _ _ hmarker
  obtain ⟨hnamed, hvars, hevaluate⟩ := hmarker
  refine ⟨hnamed, hvars, ?_⟩
  intro env extras
  rw [hevaluate, hcontains]

theorem lowerMarker_evaluate {bound : Bound ValidVersion} (hbound : trimBound bound = bound)
    (hsound : Sound below s) : Ensures (Sound below) (lowerMarker bound) s fun s' r =>
      Named s' r ∧ OnlyPython s' r ∧ ∀ env extras,
        s'.evaluate env extras r = bound.isBelow env.pythonFullVersion := by
  cases bound with
  | included version =>
      have hversion : version.onlyReleaseTrimmed = version := Bound.included.inj hbound
      apply compareMarker_trimmed (by decide) hversion .higherThan _ rfl ?_ hsound
      intro other
      simp [Ranges.higherThan, Ranges.contains, Bound.isAbove]
  | excluded version =>
      have hversion : version.onlyReleaseTrimmed = version := Bound.excluded.inj hbound
      apply compareMarker_trimmed (by decide) hversion .strictlyHigherThan _ rfl ?_ hsound
      intro other
      simp [Ranges.strictlyHigherThan, Ranges.contains, Bound.isAbove]
  | unbounded => exact Ensures.pure hsound ⟨named_true, .true, fun _ _ => rfl⟩

theorem upperMarker_evaluate {bound : Bound ValidVersion} (hbound : trimBound bound = bound)
    (hsound : Sound below s) : Ensures (Sound below) (upperMarker bound) s fun s' r =>
      Named s' r ∧ OnlyPython s' r ∧ ∀ env extras,
        s'.evaluate env extras r = bound.isAbove env.pythonFullVersion := by
  cases bound with
  | included version =>
      have hversion : version.onlyReleaseTrimmed = version := Bound.included.inj hbound
      apply compareMarker_trimmed (by decide) hversion .lowerThan _ rfl ?_ hsound
      intro other
      simp [Ranges.lowerThan, Ranges.contains, Bound.isBelow]
  | excluded version =>
      have hversion : version.onlyReleaseTrimmed = version := Bound.excluded.inj hbound
      apply compareMarker_trimmed (by decide) hversion .strictlyLowerThan _ rfl ?_ hsound
      intro other
      simp [Ranges.strictlyLowerThan, Ranges.contains, Bound.isBelow]
  | unbounded => exact Ensures.pure hsound ⟨named_true, .true, fun _ _ => rfl⟩

end PythonRequirement

namespace RequiresPythonRange

/-- Bounds as `LowerBound` and `UpperBound` have them. -/
structure Trimmed (range : RequiresPythonRange) : Prop where
  lower : trimBound range.lower = range.lower
  upper : trimBound range.upper = range.upper

omit [RangeOps ValidVersion] [RangeOps Text] in
theorem trimBound_trimBound (bound : Bound ValidVersion) :
    trimBound (trimBound bound) = trimBound bound := by
  have htrim : ∀ version : ValidVersion,
      version.onlyReleaseTrimmed.onlyReleaseTrimmed = version.onlyReleaseTrimmed := by
    intro version
    have hrelease : ∀ numbers : List ℕ, (Version.new numbers).release = numbers := by
      intro numbers
      rw [Version.release_eq, Version.makeFull_new]
      rfl
    have hval : version.val.onlyReleaseTrimmed.onlyReleaseTrimmed =
        version.val.onlyReleaseTrimmed := by
      by_cases hany : version.val.release.any (· != 0) = true
      · have hval : version.val.onlyReleaseTrimmed =
            Version.new (Order.trimZeros version.val.release) := if_pos hany
        obtain ⟨count, hsplit, _⟩ := Order.trimZeros_append_replicate version.val.release
        have hany' : (Order.trimZeros version.val.release).any (· != 0) = true := by
          rw [hsplit, List.any_append] at hany
          simpa using hany
        rw [hval, Version.onlyReleaseTrimmed, hrelease, if_pos hany']
        exact congrArg Version.new (List.rdropWhile_idempotent _ _)
      · have hval : version.val.onlyReleaseTrimmed = Version.new [0] := if_neg hany
        rw [hval, Version.onlyReleaseTrimmed, hrelease]
        rfl
    change ValidVersion.mk _ _ = ValidVersion.mk _ _
    simp only [ValidVersion.onlyReleaseTrimmed, hval]
  cases bound with
  | included version => exact congrArg Bound.included (htrim version)
  | excluded version => exact congrArg Bound.excluded (htrim version)
  | unbounded => rfl

omit [RangeOps Text] in
theorem trimmed_fromSpecifiers {specifiers : List VersionSpecifier} {range : RequiresPythonRange}
    (hrange : fromSpecifiers specifiers = some range) : range.Trimmed := by
  obtain ⟨ranges, _, hbounds⟩ := Option.bind_eq_some_iff.mp hrange
  cases hbounding : ranges.boundingRange with
  | none =>
      rw [hbounding] at hbounds
      cases hbounds
      exact ⟨rfl, rfl⟩
  | some bounds =>
      rw [hbounding] at hbounds
      cases hbounds
      exact ⟨trimBound_trimBound _, trimBound_trimBound _⟩

omit [RangeOps Text] in
/-- Only an empty release has no range. -/
theorem exists_fromSpecifiers {specifiers : List VersionSpecifier}
    (hreleases : ∀ specifier ∈ specifiers, specifier.version.val.release ≠ []) :
    ∃ range, fromSpecifiers specifiers = some range := by
  have hfold : ∀ start : Ranges ValidVersion, ∃ ranges,
      specifiers.foldlM (fun range specifier => do
        let next ← specifier.releaseSpecifierToRange false
        pure (RangeOps.intersection range next)) start = some ranges := by
    induction specifiers with
    | nil => exact fun start => ⟨start, rfl⟩
    | cons specifier rest ih =>
        intro start
        obtain ⟨next, hnext⟩ : ∃ next, specifier.releaseSpecifierToRange false = some next :=
          releaseSpecifierToRange_isSome false (hreleases specifier List.mem_cons_self)
        obtain ⟨ranges, hranges⟩ := ih
          (fun other hother => hreleases other (List.mem_cons_of_mem _ hother))
          (RangeOps.intersection start next)
        refine ⟨ranges, ?_⟩
        rw [List.foldlM_cons, hnext]
        exact hranges
  obtain ⟨ranges, hranges⟩ := hfold .full
  have hrelease : releaseSpecifiersToRanges specifiers = some ranges := hranges
  cases hbounding : ranges.boundingRange with
  | none => exact ⟨⟨.unbounded, .unbounded⟩, by simp [fromSpecifiers, hrelease, hbounding]⟩
  | some bounds =>
      exact ⟨⟨trimBound bounds.1, trimBound bounds.2⟩, by
        simp [fromSpecifiers, hrelease, hbounding]⟩

/-- The version lies between the bounds. -/
def Between (range : RequiresPythonRange) (version : ValidVersion) : Prop :=
  range.lower.isBelow version = true ∧ range.upper.isAbove version = true

end RequiresPythonRange

/-- The marker of a requirement holds for the versions between its bounds. -/
theorem PythonRequirement.toMarkerTree_evaluate {range : RequiresPythonRange}
    (hrange : range.Trimmed) (hsound : Sound below s) :
    Ensures (Sound below) (toMarkerTree ⟨range⟩) s fun s' r =>
      Named s' r ∧ OnlyPython s' r ∧ ∀ env extras,
        s'.evaluate env extras r = true ↔ range.Between env.pythonFullVersion := by
  obtain ⟨lower, upper⟩ := range
  obtain ⟨hlower, hupper⟩ := hrange
  have hboth : ∀ lower upper, trimBound lower = lower → trimBound upper = upper →
      Ensures (Sound below) (do
        let lower ← lowerMarker lower
        let upper ← upperMarker upper
        Pep508.and lower upper) s fun s' r =>
          Named s' r ∧ OnlyPython s' r ∧ ∀ env extras,
            s'.evaluate env extras r = true ↔
              RequiresPythonRange.Between ⟨lower, upper⟩ env.pythonFullVersion := by
    intro lower upper hlower hupper
    apply Ensures.bind (lowerMarker_evaluate hlower hsound)
    rintro x s₁ hsound₁ - ⟨hx, hvarsX, hevaluateX⟩
    apply Ensures.bind (upperMarker_evaluate hupper hsound₁)
    rintro y s₂ hsound₂ hle₂ ⟨hy, hvarsY, hevaluateY⟩
    apply (and_ensures hsound₂ (hx.valid.mono hle₂) hy.valid).weaken
    rintro r s₃ hsound₃ hle₃ hconj
    have hx₂ := hx.mono hle₂
    have hvarsY₃ : OnlyPython s₃ y := hvarsY.mono hle₃
    refine ⟨hconj.named (hx₂.mono hle₃) (hy.mono hle₃),
      hconj.vars _ ((hvarsX.mono hle₂).mono hle₃) hvarsY₃, fun env extras => ?_⟩
    rw [hconj.evaluate_onlyPython hsound₃.wellFormed (.inr hvarsY₃),
      hx₂.evaluate_mono hsound₂.wellFormed hsound₃.wellFormed hle₃,
      hx.evaluate_mono hsound₁.wellFormed hsound₂.wellFormed hle₂,
      hy.evaluate_mono hsound₂.wellFormed hsound₃.wellFormed hle₃, hevaluateX, hevaluateY,
      Bool.and_eq_true, RequiresPythonRange.Between]
  have hbelow : ∀ version : ValidVersion, (Bound.unbounded : Bound ValidVersion).isBelow version =
      true := fun _ => rfl
  have habove : ∀ version : ValidVersion, (Bound.unbounded : Bound ValidVersion).isAbove version =
      true := fun _ => rfl
  cases lower with
  | unbounded =>
      cases upper with
      | unbounded =>
          exact Ensures.pure hsound ⟨named_true, .true, fun _ _ =>
            iff_of_true rfl ⟨rfl, rfl⟩⟩
      | _ =>
          apply (upperMarker_evaluate hupper hsound).weaken
          rintro r s' - - ⟨hnamed, hvars, hevaluate⟩
          exact ⟨hnamed, hvars, fun env extras => by
            simp [hevaluate, RequiresPythonRange.Between, hbelow]⟩
  | _ =>
      cases upper with
      | unbounded =>
          apply (lowerMarker_evaluate hlower hsound).weaken
          rintro r s' - - ⟨hnamed, hvars, hevaluate⟩
          exact ⟨hnamed, hvars, fun env extras => by
            simp [hevaluate, RequiresPythonRange.Between, habove]⟩
      | _ => exact hboth _ _ hlower hupper

end Marker

end Uv.Resolver
