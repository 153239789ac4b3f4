import Uv.Pep508.Reachable

/-!
# Evaluation of the marker algebra

Evaluation in an environment follows one edge of every node.  For markers
without malformed list names it therefore decides the meaning of the diagram at
the environment's valuation, and the operations of the algebra become those of
the booleans.

A malformed name makes the rest of a marker false, so a marker and its
complement can both evaluate to false; such markers are left out.
-/

namespace Uv.Pep508

open Uv.Core Uv.Pep440

/-- The environment satisfies an incompatible pair. -/
def MarkerEnvironment.isExcluded (env : MarkerEnvironment) : Bool :=
  incompatiblePairs.any fun pair =>
    env.getString pair.1.1 == pair.1.2.toList &&
      env.getString pair.2.1 == pair.2.2.toList

theorem MarkerEnvironment.is_valuation_iff {env : MarkerEnvironment}
    {extras : ExtrasEnvironment} {key : CanonicalMarkerValueString} {value : String} :
    (env.valuation extras).Is key value ↔ env.getString key = value.toList := by
  unfold Valuation.Is MarkerEnvironment.valuation
  rw [Point.ofPosition_in]
  constructor
  · rintro ⟨hle, hlt⟩
    rw [cutsOf, Bound.upperCut, WithTop.coe_lt_coe, Cut.before_lt_after] at hlt
    rw [cutsOf, Bound.lowerCut, ← not_lt, Cut.before_lt_before, not_lt] at hle
    exact le_antisymm hlt hle
  · intro heq
    rw [heq]
    exact ⟨le_rfl, WithTop.coe_lt_coe.mpr (Cut.before_lt_after.mpr le_rfl)⟩

theorem MarkerEnvironment.excluded_valuation_iff {env : MarkerEnvironment}
    {extras : ExtrasEnvironment} :
    (env.valuation extras).Excluded ↔ env.isExcluded = true := by
  simp only [Valuation.Excluded, isExcluded, is_valuation_iff, List.any_eq_true,
    Bool.and_eq_true, beq_iff_eq]

namespace Interner

/-- A marker without malformed list names. -/
abbrev WellNamed (s : Interner) (id : NodeId) : Prop :=
  AllVars s (·.isArbitrary = false) id

variable {s s' : Interner} {x y r : NodeId} {env : MarkerEnvironment}
  {extras : ExtrasEnvironment}

/-- Evaluation is the meaning at the environment, in any later state. -/
theorem WellNamed.evaluate_iff (hwf : s.WellFormed) (hwf' : s'.WellFormed)
    (hle : s ≤ s') (hx : s.Valid x) (hnames : s.WellNamed x) :
    s.evaluate env extras x = true ↔ Holds s' (env.valuation extras) x := by
  rw [evaluate_iff_holds hwf hx hnames, holds_mono hwf hwf' hle hx]

/-! ## Evaluating combined markers -/

/-- A marker of the interner without malformed list names. -/
structure Named (s : Interner) (id : NodeId) : Prop where
  valid : s.Valid id
  wellNamed : s.WellNamed id

theorem named_true : Named s .TRUE := ⟨valid_true, .true⟩

namespace Named

theorem mono (hle : s ≤ s') (hx : Named s x) : Named s' x :=
  ⟨hx.valid.mono hle, hx.wellNamed.mono hle⟩

theorem not (hx : Named s x) : Named s x.not :=
  ⟨valid_not.mpr hx.valid, hx.wellNamed.not⟩

theorem evaluate_mono (hwf : s.WellFormed) (hwf' : s'.WellFormed) (hle : s ≤ s')
    (hx : Named s x) : s'.evaluate env extras x = s.evaluate env extras x := by
  rw [Bool.eq_iff_iff, hx.wellNamed.evaluate_iff hwf hwf' hle hx.valid]
  exact evaluate_iff_holds hwf' (hx.valid.mono hle) (hx.wellNamed.mono hle)

theorem evaluate_not (hwf : s.WellFormed) (hx : Named s x) :
    s.evaluate env extras x.not = !s.evaluate env extras x := by
  rw [Bool.eq_iff_iff, Bool.not_eq_true', ← Bool.not_eq_true,
    evaluate_iff_holds hwf hx.not.valid hx.not.wellNamed,
    evaluate_iff_holds hwf hx.valid hx.wellNamed]
  exact holds_not hwf hx.valid

end Named

theorem not_excluded_valuation (henv : env.isExcluded = false) :
    ¬ (env.valuation extras).Excluded := by
  rw [MarkerEnvironment.excluded_valuation_iff, henv]
  exact Bool.false_ne_true

theorem Conj.named (hx : Named s x) (hy : Named s y) (hconj : Conj s x y r) :
    Named s r :=
  ⟨hconj.valid, hconj.vars _ hx.wellNamed hy.wellNamed⟩

theorem Conj.evaluate (hwf : s.WellFormed) (hx : Named s x) (hy : Named s y)
    (hconj : Conj s x y r) (henv : env.isExcluded = false) :
    s.evaluate env extras r =
      (s.evaluate env extras x && s.evaluate env extras y) := by
  have hr := hconj.named hx hy
  rw [Bool.eq_iff_iff, Bool.and_eq_true,
    evaluate_iff_holds hwf hr.valid hr.wellNamed,
    evaluate_iff_holds hwf hx.valid hx.wellNamed,
    evaluate_iff_holds hwf hy.valid hy.wellNamed]
  constructor
  · exact hconj.sound _
  · rintro ⟨hholdsX, hholdsY⟩
    exact hconj.complete _ (.inr (not_excluded_valuation henv)) hholdsX hholdsY

/-- Neither exclusions nor malformed names matter if one of the two is about the Python
version alone. -/
theorem Conj.evaluate_onlyPython (hwf : s.WellFormed) (hconj : Conj s x y r)
    (hpython : OnlyPython s x ∨ OnlyPython s y) :
    s.evaluate env extras r =
      (s.evaluate env extras x && s.evaluate env extras y) := by
  rw [Bool.eq_iff_iff, Bool.and_eq_true, evaluate_iff_accepts hwf hconj.valid,
    evaluate_iff_accepts hwf hconj.left, evaluate_iff_accepts hwf hconj.right]
  exact hconj.accepts hpython _

theorem Disj.named (hx : Named s x) (hy : Named s y) (hdisj : Disj s x y r) :
    Named s r :=
  ⟨hdisj.valid, hdisj.vars _ hx.wellNamed hy.wellNamed⟩

theorem Disj.evaluate (hwf : s.WellFormed) (hx : Named s x) (hy : Named s y)
    (hdisj : Disj s x y r) (henv : env.isExcluded = false) :
    s.evaluate env extras r =
      (s.evaluate env extras x || s.evaluate env extras y) := by
  have hr := hdisj.named hx hy
  rw [Bool.eq_iff_iff, Bool.or_eq_true,
    evaluate_iff_holds hwf hr.valid hr.wellNamed,
    evaluate_iff_holds hwf hx.valid hx.wellNamed,
    evaluate_iff_holds hwf hy.valid hy.wellNamed]
  constructor
  · exact hdisj.sound _ (.inr (not_excluded_valuation henv))
  · exact hdisj.complete _

section Algebra

variable [RangeOps ValidVersion] [RangeOps Text]

/-- Disjoint markers are never true together. -/
theorem isDisjoint_evaluate {below : Variable → Variable → Prop}
    (hsound : Sound below s) (hx : Named s x) (hy : Named s y) :
    Ensures (Sound below) (isDisjoint x y) s fun s' answer => answer = true →
      ∀ env extras, env.isExcluded = false → s'.evaluate env extras x = true →
        s'.evaluate env extras y = false := by
  apply (isDisjoint_ensures hsound hx.valid hy.valid).weaken
  intro answer s' hsound' hle hdisjoint htrue env extras henv hevaluate
  have hwf' := hsound'.wellFormed
  have hx' := hx.mono hle
  have hy' := hy.mono hle
  rw [← Bool.not_eq_true, evaluate_iff_holds hwf' hy'.valid hy'.wellNamed]
  rw [evaluate_iff_holds hwf' hx'.valid hx'.wellNamed] at hevaluate
  intro hholds
  exact hdisjoint htrue _ (.inr (not_excluded_valuation henv)) ⟨hevaluate, hholds⟩

/-- In every reachable state and every environment that no incompatible pair
rules out, the operations evaluate as those of the booleans. -/
theorem Reachable.evaluate_algebra (hreach : Reachable s) (hx : s.Valid x)
    (hy : s.Valid y) (hnamesX : s.WellNamed x) (hnamesY : s.WellNamed y)
    (henv : env.isExcluded = false) :
    (∃ r s', (and x y).run s = some (r, s') ∧ s'.evaluate env extras r =
      (s.evaluate env extras x && s.evaluate env extras y)) ∧
    (∃ r s', (or x y).run s = some (r, s') ∧ s'.evaluate env extras r =
      (s.evaluate env extras x || s.evaluate env extras y)) ∧
    s.evaluate env extras x.not = !s.evaluate env extras x := by
  have hsound := hreach.sound
  have hwf := hsound.wellFormed
  have hx : Named s x := ⟨hx, hnamesX⟩
  have hy : Named s y := ⟨hy, hnamesY⟩
  refine ⟨?_, ?_, ?_⟩
  · obtain ⟨r, s', hrun, hsound', hle, hconj⟩ :=
      and_ensures hsound hx.valid hy.valid
    have hwf' := hsound'.wellFormed
    refine ⟨r, s', hrun, ?_⟩
    rw [hconj.evaluate hwf' (hx.mono hle) (hy.mono hle) henv,
      hx.evaluate_mono hwf hwf' hle, hy.evaluate_mono hwf hwf' hle]
  · obtain ⟨r, s', hrun, hsound', hle, hdisj⟩ :=
      or_ensures hsound hx.valid hy.valid
    have hwf' := hsound'.wellFormed
    refine ⟨r, s', hrun, ?_⟩
    rw [hdisj.evaluate hwf' (hx.mono hle) (hy.mono hle) henv,
      hx.evaluate_mono hwf hwf' hle, hy.evaluate_mono hwf hwf' hle]
  · exact hx.evaluate_not hwf

omit [RangeOps ValidVersion] [RangeOps Text] in
theorem inPython_valuation_iff {pyLower pyUpper : Bound ValidVersion} :
    InPython pyLower pyUpper (env.valuation extras) ↔
      (Ranges.fromRangeBounds pyLower pyUpper).contains env.pythonFullVersion =
        true := by
  by_cases hempty : (Ranges.fromRangeBounds pyLower pyUpper).isEmpty = true
  · refine ⟨fun hin => (not_inPython_of_isEmpty hempty hin).elim, fun hcontains => ?_⟩
    rw [Ranges.isEmpty, List.isEmpty_iff] at hempty
    simp [Ranges.contains, hempty] at hcontains
  · have hinterval := Ranges.isInterval_fromRangeBounds
      (validSegment_of_not_isEmpty hempty)
    rw [Ranges.contains_iff_has, hinterval.has_iff]
    rfl

/-- Requiring a Python range adds it to a marker, assuming it changes nothing
inside it, and one after the other add it as well. -/
theorem Reachable.evaluate_pythonVersions (hreach : Reachable s) (hx : s.Valid x)
    (hnames : s.WellNamed x) (pyLower pyUpper : Bound ValidVersion) :
    (∃ r s', (complexifyPythonVersions x pyLower pyUpper).run s = some (r, s') ∧
      s'.evaluate env extras r = (s.evaluate env extras x &&
        (Ranges.fromRangeBounds pyLower pyUpper).contains
          env.pythonFullVersion)) ∧
    ∃ r s', (simplifyPythonVersions x pyLower pyUpper).run s = some (r, s') ∧
      ((Ranges.fromRangeBounds pyLower pyUpper).contains env.pythonFullVersion =
        true → s'.evaluate env extras r = s.evaluate env extras x) ∧
      ∃ r' s'', (complexifyPythonVersions r pyLower pyUpper).run s' =
        some (r', s'') ∧ s''.evaluate env extras r' = (s.evaluate env extras x &&
          (Ranges.fromRangeBounds pyLower pyUpper).contains
            env.pythonFullVersion) := by
  have hsound := hreach.sound
  have hwf := hsound.wellFormed
  refine ⟨?_, ?_⟩
  · obtain ⟨r, s', hrun, hsound', hle, hcomplexified⟩ :=
      complexifyPythonVersions_ensures hsound hx pyLower pyUpper
        fun _ => admits_below hwf hx
    have hwf' := hsound'.wellFormed
    refine ⟨r, s', hrun, ?_⟩
    rw [Bool.eq_iff_iff, Bool.and_eq_true, hnames.evaluate_iff hwf hwf' hle hx,
      evaluate_iff_holds hwf' hcomplexified.valid
        (hcomplexified.vars _ rfl (hnames.mono hle)), ← inPython_valuation_iff]
    exact hcomplexified.holds_iff _
  · obtain ⟨r, s', hrun, hsound', hle, hsimplified⟩ :=
      simplifyPythonVersions_ensures hsound hx pyLower pyUpper
    have hwf' := hsound'.wellFormed
    have hnames' : s'.WellNamed r := hsimplified.vars _ (hnames.mono hle)
    refine ⟨r, s', hrun, fun hcontains => ?_, ?_⟩
    · rw [Bool.eq_iff_iff, hnames.evaluate_iff hwf hwf' hle hx,
        evaluate_iff_holds hwf' hsimplified.valid hnames']
      exact hsimplified.holds_iff _ (inPython_valuation_iff.mpr hcontains)
    · obtain ⟨r', s'', hrun', hsound'', hle', hcomplexified⟩ :=
        complexifyPythonVersions_ensures hsound' hsimplified.valid pyLower
          pyUpper fun _ => admits_below hwf' hsimplified.valid
      have hwf'' := hsound''.wellFormed
      refine ⟨r', s'', hrun', ?_⟩
      rw [Bool.eq_iff_iff, Bool.and_eq_true,
        hnames.evaluate_iff hwf hwf'' (hle.trans hle') hx,
        evaluate_iff_holds hwf'' hcomplexified.valid
          (hcomplexified.vars _ rfl (hnames'.mono hle')),
        ← inPython_valuation_iff, hcomplexified.holds_iff]
      refine and_congr_left fun hin => ?_
      rw [holds_mono hwf' hwf'' hle' hsimplified.valid, hsimplified.holds_iff _ hin,
        holds_mono hwf' hwf'' hle' (hx.mono hle)]

end Algebra

/-! ## Concrete markers -/

section Concrete

/-- A Linux environment with Python 3.11. -/
def linuxEnvironment : MarkerEnvironment where
  implementationName := "cpython".toList
  implementationVersion := .new [3, 11]
  osName := "posix".toList
  platformMachine := "x86_64".toList
  platformPythonImplementation := "CPython".toList
  platformRelease := []
  platformSystem := "Linux".toList
  platformVersion := []
  pythonFullVersion := .new [3, 11]
  sysPlatform := "linux".toList

/-- `extra == 'test'`, the first marker of a fresh interner. -/
private def extraTest : List Operation :=
  [.expression (.extra (.extra "test".toList) .equal)]

private theorem extraTest_spec : ∃ s, Reachable s ∧ s.Valid (.new 0 false) ∧
    s.WellNamed (.new 0 false) := by
  have hrun : ((performAll extraTest Interner.default).map fun s =>
      decide (s.Valid (.new 0 false)) && ((s.node (.new 0 false)).map fun node =>
        (!node.var.isArbitrary && node.children.nodes.all fun child =>
          child.isTrue || child.isFalse : Bool)) == some true) = some true := by
    decide +kernel
  obtain ⟨s, hperform, hcheck⟩ := Option.map_eq_some_iff.mp hrun
  simp only [Bool.and_eq_true, decide_eq_true_eq, beq_iff_eq,
    Option.map_eq_some_iff, Bool.not_eq_true', List.all_eq_true, Bool.or_eq_true,
    NodeId.isTrue_iff, NodeId.isFalse_iff] at hcheck
  obtain ⟨hvalid, node, hnode, hvar, hchildren⟩ := hcheck
  refine ⟨s, Reachable.default.performAll hperform, hvalid,
    .node hnode hvar fun child hchild => ?_⟩
  rcases hchildren child hchild with rfl | rfl
  · exact .true
  · exact .false

theorem Reachable.evaluate_algebra_linux : ∃ (s : Interner) (x : NodeId),
    s.evaluate linuxEnvironment (.extras []) x.not =
      !s.evaluate linuxEnvironment (.extras []) x := by
  obtain ⟨s, hreach, hvalid, hnames⟩ := extraTest_spec
  exact ⟨s, .new 0 false, (hreach.evaluate_algebra hvalid hvalid hnames hnames
    (by decide +kernel)).2.2⟩

theorem Reachable.evaluate_pythonVersions_linux : ∃ (s : Interner) (x : NodeId),
    ∃ r s', (complexifyPythonVersions x (.included (.new [3, 8])) .unbounded).run s =
      some (r, s') ∧ s'.evaluate linuxEnvironment (.extras []) r =
        (s.evaluate linuxEnvironment (.extras []) x &&
          (Ranges.fromRangeBounds (.included (.new [3, 8])) .unbounded).contains
            linuxEnvironment.pythonFullVersion) := by
  obtain ⟨s, hreach, hvalid, hnames⟩ := extraTest_spec
  exact ⟨s, .new 0 false,
    (hreach.evaluate_pythonVersions hvalid hnames (.included (.new [3, 8]))
      .unbounded).1⟩

/-- `'foo bar' not in extras or python_full_version >= '3.8'`, with a malformed
name. -/
private def malformed : List Operation :=
  [.expression (.list (.arbitrary .extras "foo bar".toList) .isIn),
    .complexifyPythonVersions (.new 0 false) (.included (.new [3, 8])) .unbounded,
    .or (.new 2 true) (.new 0 true)]

/-- A malformed name is false with either edge; once both edges are the same,
the name is gone and the marker is true. -/
theorem complexifyPythonVersions_malformed :
    ∃ (s : Interner) (x : NodeId), Reachable s ∧ s.Valid x ∧ ∃ r s',
      (complexifyPythonVersions x (.included (.new [3, 8])) .unbounded).run s =
        some (r, s') ∧ s'.evaluate linuxEnvironment (.extras []) r ≠
          (s.evaluate linuxEnvironment (.extras []) x &&
            (Ranges.fromRangeBounds (.included (.new [3, 8])) .unbounded).contains
              linuxEnvironment.pythonFullVersion) := by
  have hrun : ((performAll malformed Interner.default).bind fun s =>
      ((complexifyPythonVersions (.new 3 true) (.included (.new [3, 8]))
        .unbounded).run s).map fun (r, s') =>
          decide (s.Valid (.new 3 true)) &&
            s'.evaluate linuxEnvironment (.extras []) r !=
              (s.evaluate linuxEnvironment (.extras []) (.new 3 true) &&
                (Ranges.fromRangeBounds (.included (.new [3, 8])) .unbounded).contains
                  linuxEnvironment.pythonFullVersion)) = some true := by
    decide +kernel
  obtain ⟨s, hperform, hrun⟩ := Option.bind_eq_some_iff.mp hrun
  obtain ⟨⟨r, s'⟩, hcomplexify, hcheck⟩ := Option.map_eq_some_iff.mp hrun
  rw [Bool.and_eq_true, decide_eq_true_eq, bne_iff_ne] at hcheck
  exact ⟨s, .new 3 true, Reachable.default.performAll hperform, hcheck.1, r, s',
    hcomplexify, hcheck.2⟩

end Concrete

end Interner

end Uv.Pep508
