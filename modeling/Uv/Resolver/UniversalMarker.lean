import Uv.Pep508.Algebra
import Uv.Pep508.Projection
import Uv.Resolver.Conflicts

/-!
# Universal markers

A universal marker is a marker in which conflict items appear as encoded extras.
Beside it, its projection to a marker without extras is kept.  Most operations
compute the projection anew; the conjunction takes the conjunction of the two
projections, which is too large when the two markers need different extras.

An encoded name is `none` where the source panics.
-/

namespace Uv.Resolver

open Uv.Core Uv.Pep440 Uv.Pep508 Uv.Pep508.Interner

/-! ## Encoded conflict items -/

/-- `{kind}-{package_len}-{package}`. -/
def encodePrefix (kind : String) (package : PackageName) : List Char :=
  kind.toList ++ "-".toList ++ (toString package.text.length).toList ++
    "-".toList ++ package.text

def encodePackageExtra (package : PackageName) (extra : ExtraName) : Option Text :=
  validateAndNormalize (encodePrefix "extra" package ++ "-".toList ++ extra.text)

def encodePackageGroup (package : PackageName) (group : GroupName) : Option Text :=
  validateAndNormalize (encodePrefix "group" package ++ "-".toList ++ group.text)

def encodeProject (package : PackageName) : Option Text :=
  validateAndNormalize (encodePrefix "project" package)

def encodeConflictItem (conflict : ConflictItem) : Option Text :=
  match conflict.kind with
  | .extra extra => encodePackageExtra conflict.package extra
  | .group group => encodePackageGroup conflict.package group
  | .project => encodeProject conflict.package

/-- An item that is known to be active, or known not to be. -/
structure Inference where
  item : ConflictItem
  included : Bool
  deriving DecidableEq

/-! ## The operations -/

/-- The combined marker and its cached projection. -/
structure UniversalMarker where
  marker : NodeId
  pep508 : NodeId
  deriving DecidableEq

namespace UniversalMarker

def TRUE : UniversalMarker := ⟨.TRUE, .TRUE⟩

def FALSE : UniversalMarker := ⟨.FALSE, .FALSE⟩

section Operations

variable [RangeOps ValidVersion] [RangeOps Text]

/-- From a marker that combines a PEP 508 and a conflict marker already. -/
def fromCombined (fuel : ℕ) (marker : NodeId) : InternerM UniversalMarker := do
  let pep508 ← withoutExtras fuel marker
  pure ⟨marker, pep508⟩

def new (fuel : ℕ) (pep508Marker conflictMarker : NodeId) :
    InternerM UniversalMarker := do
  let marker ← Pep508.and pep508Marker conflictMarker
  fromCombined fuel marker

def or (this other : UniversalMarker) : InternerM UniversalMarker := do
  let marker ← Pep508.or this.marker other.marker
  let pep508 ← Pep508.or this.pep508 other.pep508
  pure ⟨marker, pep508⟩

def and (this other : UniversalMarker) : InternerM UniversalMarker := do
  let marker ← Pep508.and this.marker other.marker
  let pep508 ← Pep508.and this.pep508 other.pep508
  pure ⟨marker, pep508⟩

/-- The marker, given that the conflict marker holds: `implies` is `or` with a
negated left side. -/
def imbibe (fuel : ℕ) (this : UniversalMarker) (conflicts : NodeId) :
    InternerM UniversalMarker := do
  let marker ← Pep508.or conflicts.not this.marker
  fromCombined fuel marker

/-- Read one item as active or as inactive. -/
def simplifyItem (inference : Inference) (marker : NodeId) : InternerM NodeId :=
  match encodeConflictItem inference.item with
  | none => failure
  | some extra =>
      if inference.included then simplifyExtrasWith (· == extra) marker
      else simplifyNotExtrasWith (· == extra) marker

/-- `assume_conflict_item` and `assume_not_conflict_item`.  The projection is
computed by the method for the kind of the item and once more by the caller. -/
def assume (fuel : ℕ) (inference : Inference) (this : UniversalMarker) :
    InternerM UniversalMarker := do
  let marker ← simplifyItem inference this.marker
  let _ ← withoutExtras fuel marker
  fromCombined fuel marker

def assumeConflictItem (fuel : ℕ) (item : ConflictItem) (this : UniversalMarker) :
    InternerM UniversalMarker :=
  this.assume fuel ⟨item, true⟩

def assumeNotConflictItem (fuel : ℕ) (item : ConflictItem)
    (this : UniversalMarker) : InternerM UniversalMarker :=
  this.assume fuel ⟨item, false⟩

/-- The marker with all items of one inference set read as known. -/
def simplifySet (marker : NodeId) (set : List Inference) : InternerM NodeId :=
  set.foldlM (fun marker inference => simplifyItem inference marker) marker

/-- The loop of `unify_inference_sets`: the marker that all sets lead to, if
there is one. -/
def unifyLoop (marker : NodeId) :
    List (List Inference) → Option NodeId → InternerM (Option NodeId)
  | [], previous => pure previous
  | set :: sets, previous => do
      let simplified ← simplifySet marker set
      match previous with
      | none => unifyLoop marker sets (some simplified)
      | some previous =>
          if previous = simplified then unifyLoop marker sets (some previous)
          else pure none

/-- If all inference sets lead to one marker, take that marker. -/
def unifyInferenceSets (fuel : ℕ) (conflictSets : List (List Inference))
    (this : UniversalMarker) : InternerM UniversalMarker := do
  match ← unifyLoop this.marker conflictSets none with
  | some marker => fromCombined fuel marker
  | none => pure this

/-! ## Runs -/

/-- An operation that makes a universal marker. -/
inductive Operation where
  | new (fuel : ℕ) (pep508Marker conflictMarker : NodeId)
  | fromCombined (fuel : ℕ) (marker : NodeId)
  | or (this other : UniversalMarker)
  | and (this other : UniversalMarker)
  | imbibe (fuel : ℕ) (this : UniversalMarker) (conflicts : NodeId)
  | assumeConflictItem (fuel : ℕ) (item : ConflictItem) (this : UniversalMarker)
  | assumeNotConflictItem (fuel : ℕ) (item : ConflictItem) (this : UniversalMarker)
  | unifyInferenceSets (fuel : ℕ) (conflictSets : List (List Inference))
      (this : UniversalMarker)

namespace Operation

/-- The universal markers the operation works on. -/
def operands : Operation → List UniversalMarker
  | new _ _ _ => []
  | fromCombined _ _ => []
  | or this other => [this, other]
  | and this other => [this, other]
  | imbibe _ this _ => [this]
  | assumeConflictItem _ _ this => [this]
  | assumeNotConflictItem _ _ this => [this]
  | unifyInferenceSets _ _ this => [this]

/-- The plain markers the operation works on. -/
def arguments : Operation → List NodeId
  | new _ pep508Marker conflictMarker => [pep508Marker, conflictMarker]
  | fromCombined _ marker => [marker]
  | imbibe _ _ conflicts => [conflicts]
  | _ => []

def perform : Operation → InternerM UniversalMarker
  | new fuel pep508Marker conflictMarker =>
      UniversalMarker.new fuel pep508Marker conflictMarker
  | fromCombined fuel marker => UniversalMarker.fromCombined fuel marker
  | or this other => this.or other
  | and this other => this.and other
  | imbibe fuel this conflicts => this.imbibe fuel conflicts
  | assumeConflictItem fuel item this => this.assumeConflictItem fuel item
  | assumeNotConflictItem fuel item this => this.assumeNotConflictItem fuel item
  | unifyInferenceSets fuel conflictSets this =>
      this.unifyInferenceSets fuel conflictSets

end Operation

/-- The states of the interner that operations on plain and on universal markers
lead to, with all universal markers made on the way. -/
inductive Runs (allowed : Interner → Operation → Prop) :
    Interner → List UniversalMarker → Prop where
  | start : Runs allowed Interner.default [TRUE, FALSE]
  | plain {s s' : Interner} {markers : List UniversalMarker}
      {result : Option NodeId} (op : Pep508.Operation)
      (hruns : Runs allowed s markers) (hvalid : ∀ id ∈ op.arguments, s.Valid id)
      (hrun : op.perform.run s = some (result, s')) : Runs allowed s' markers
  | universal {s s' : Interner} {markers : List UniversalMarker}
      {result : UniversalMarker} (op : Operation) (hruns : Runs allowed s markers)
      (hoperands : ∀ operand ∈ op.operands, operand ∈ markers)
      (hvalid : ∀ id ∈ op.arguments, s.Valid id) (hallowed : allowed s op)
      (hrun : op.perform.run s = some (result, s')) :
      Runs allowed s' (result :: markers)

/-- The cached marker means what `marker.without_extras()` means, on every
platform that exists. -/
def InStep (s : Interner) (this : UniversalMarker) : Prop :=
  ∃ fuel r s', (withoutExtras fuel this.marker).run s = some (r, s') ∧
    ∀ v : Valuation, ¬ v.Excluded → (Holds s' v this.pep508 ↔ Holds s' v r)

end Operations

/-! ## Choices of extras -/

/-- The marker holds for some choice of extras. -/
def Possible (s : Interner) (v : Valuation) (marker : NodeId) : Prop :=
  ∃ v', v.AgreeOff isExtraVariable v' ∧ Holds s v' marker

/-- Where each of the markers holds for some choice of extras, one choice makes
both of them hold. -/
def Compatible (s : Interner) (this other : UniversalMarker) : Prop :=
  ∀ v : Valuation, ¬ v.Excluded → Possible s v this.marker →
    Possible s v other.marker → ∃ v', v.AgreeOff isExtraVariable v' ∧
      Holds s v' this.marker ∧ Holds s v' other.marker

/-- Only a conjunction asks something of the markers it works on. -/
def Operation.Compatible (s : Interner) : Operation → Prop
  | .and this other => this.Compatible s other
  | _ => True

/-- The cached marker holds where the marker can. -/
structure Projected (s : Interner) (this : UniversalMarker) : Prop where
  marker : s.Valid this.marker
  pep508 : s.Valid this.pep508
  holds_iff : ∀ v : Valuation, ¬ v.Excluded →
    (Holds s v this.pep508 ↔ Possible s v this.marker)

section Projected

variable {s s' : Interner} {v : Valuation} {i r x y : NodeId}
  {this other : UniversalMarker}

theorem Possible.mono_iff {below : Variable → Variable → Prop}
    (hsound : Sound below s) (hsound' : Sound below s') (hle : s ≤ s')
    (hvalid : s.Valid i) : Possible s' v i ↔ Possible s v i := by
  unfold Possible
  simp only [holds_mono hsound.wellFormed hsound'.wellFormed hle hvalid]

theorem Projected.mono {below : Variable → Variable → Prop}
    (hsound : Sound below s) (hsound' : Sound below s') (hle : s ≤ s')
    (hprojected : Projected s this) : Projected s' this := by
  refine ⟨hprojected.marker.mono hle, hprojected.pep508.mono hle, fun v hv => ?_⟩
  rw [Possible.mono_iff hsound hsound' hle hprojected.marker,
    holds_mono hsound.wellFormed hsound'.wellFormed hle hprojected.pep508]
  exact hprojected.holds_iff v hv

theorem Compatible.mono {below : Variable → Variable → Prop}
    (hsound : Sound below s) (hsound' : Sound below s') (hle : s ≤ s')
    (hthis : s.Valid this.marker) (hother : s.Valid other.marker)
    (hcompatible : this.Compatible s other) : this.Compatible s' other := by
  unfold Compatible Possible
  simp only [holds_mono hsound.wellFormed hsound'.wellFormed hle hthis,
    holds_mono hsound.wellFormed hsound'.wellFormed hle hother]
  exact hcompatible

theorem projected_of_dropped (hdropped : Dropped isExtraVariable s i r) :
    Projected s ⟨i, r⟩ := by
  refine ⟨hdropped.source, hdropped.valid, fun v hv => ⟨fun hholds => ?_, ?_⟩⟩
  · exact hdropped.sound (fun _ h => h) v (.inr hv) hholds
  · rintro ⟨v', hagree, hholds⟩
    exact hdropped.complete v v' hagree hholds

theorem projected_true : Projected s TRUE :=
  projected_of_dropped (.terminal (.inl rfl))

theorem projected_false : Projected s FALSE :=
  projected_of_dropped (.terminal (.inr rfl))

/-- Whether extras make an alternative hold is decided for each side alone. -/
theorem possible_or (hdisj : Disj s x y r) (hv : ¬ v.Excluded) :
    Possible s v r ↔ Possible s v x ∨ Possible s v y := by
  constructor
  · rintro ⟨v', hagree, hholds⟩
    have hv' : ¬ v'.Excluded := fun hexcluded =>
      hv ((hagree.excluded_iff fun _ h => h).mpr hexcluded)
    exact (hdisj.sound v' (.inr hv') hholds).imp (fun hx => ⟨v', hagree, hx⟩)
      fun hy => ⟨v', hagree, hy⟩
  · rintro (⟨v', hagree, hholds⟩ | ⟨v', hagree, hholds⟩)
    · exact ⟨v', hagree, hdisj.complete v' (.inl hholds)⟩
    · exact ⟨v', hagree, hdisj.complete v' (.inr hholds)⟩

theorem possible_and (hconj : Conj s x y r) (hv : ¬ v.Excluded) :
    Possible s v r ↔ ∃ v', v.AgreeOff isExtraVariable v' ∧ Holds s v' x ∧
      Holds s v' y := by
  constructor
  · rintro ⟨v', hagree, hholds⟩
    exact ⟨v', hagree, hconj.sound v' hholds⟩
  · rintro ⟨v', hagree, hx, hy⟩
    have hv' : ¬ v'.Excluded := fun hexcluded =>
      hv ((hagree.excluded_iff fun _ h => h).mpr hexcluded)
    exact ⟨v', hagree, hconj.complete v' (.inr hv') hx hy⟩

theorem Projected.or (hthis : Projected s this) (hother : Projected s other)
    (hmarker : Disj s this.marker other.marker x)
    (hpep508 : Disj s this.pep508 other.pep508 y) : Projected s ⟨x, y⟩ := by
  refine ⟨hmarker.valid, hpep508.valid, fun v hv => ?_⟩
  rw [possible_or hmarker hv, ← hthis.holds_iff v hv, ← hother.holds_iff v hv]
  exact ⟨hpep508.sound v (.inr hv), hpep508.complete v⟩

/-- The cached half of a conjunction is right exactly if the two markers are
compatible. -/
theorem Projected.and_iff (hthis : Projected s this) (hother : Projected s other)
    (hmarker : Conj s this.marker other.marker x)
    (hpep508 : Conj s this.pep508 other.pep508 y) :
    Projected s ⟨x, y⟩ ↔ this.Compatible s other := by
  have hcached : ∀ v : Valuation, ¬ v.Excluded → (Holds s v y ↔
      Possible s v this.marker ∧ Possible s v other.marker) := by
    intro v hv
    rw [← hthis.holds_iff v hv, ← hother.holds_iff v hv]
    exact ⟨hpep508.sound v, fun hboth => hpep508.complete v (.inr hv) hboth.1
      hboth.2⟩
  constructor
  · intro hprojected v hv hthis hother
    rw [← possible_and hmarker hv, ← hprojected.holds_iff v hv]
    exact (hcached v hv).mpr ⟨hthis, hother⟩
  · intro hcompatible
    refine ⟨hmarker.valid, hpep508.valid, fun v hv => ?_⟩
    rw [hcached v hv, possible_and hmarker hv]
    refine ⟨fun hboth => hcompatible v hv hboth.1 hboth.2, ?_⟩
    rintro ⟨v', hagree, hleft, hright⟩
    exact ⟨⟨v', hagree, hleft⟩, v', hagree, hright⟩

/-- Markers that have no extra in common are compatible. -/
theorem Compatible.of_disjoint {P Q : Variable → Prop} (hwf : s.WellFormed)
    (hthis : s.Valid this.marker) (hother : s.Valid other.marker)
    (hvarsThis : AllVars s P this.marker) (hvarsOther : AllVars s Q other.marker)
    (hdisjoint : ∀ var, isExtraVariable var = true → P var → ¬ Q var) :
    this.Compatible s other := by
  classical
  rintro v - ⟨v₁, hagree₁, hholds₁⟩ ⟨v₂, hagree₂, hholds₂⟩
  let v' : Valuation :=
    { v with bool := fun var => if P var then v₁.bool var else v₂.bool var }
  have hleft : v₁.AgreeOff (fun var => !decide (P var)) v' := by
    refine ⟨fun key _ => (hagree₁.version key rfl).symm,
      fun key _ => (hagree₁.string key rfl).symm, fun var hkeep => ?_⟩
    have hvar : P var := by simpa using hkeep
    simp only [v', if_pos hvar]
  have hright : v₂.AgreeOff (fun var => !decide (Q var)) v' := by
    refine ⟨fun key _ => (hagree₂.version key rfl).symm,
      fun key _ => (hagree₂.string key rfl).symm, fun var hkeep => ?_⟩
    have hvar : Q var := by simpa using hkeep
    by_cases hboth : P var
    · have hextra : isExtraVariable var = false := by
        by_contra hextra
        exact hdisjoint var (by simpa using hextra) hboth hvar
      simp only [v', if_pos hboth]
      rw [← hagree₁.bool var hextra, hagree₂.bool var hextra]
    · simp only [v', if_neg hboth]
  refine ⟨v', ⟨fun _ _ => rfl, fun _ _ => rfl, fun var hextra => ?_⟩, ?_, ?_⟩
  · by_cases hvar : P var
    · simp only [v', if_pos hvar, hagree₁.bool var hextra]
    · simp only [v', if_neg hvar, hagree₂.bool var hextra]
  · exact (hvarsThis.holds_congr hwf (fun var hvar => hleft.agreeOn (by
      simpa using hvar)) hthis).mp hholds₁
  · exact (hvarsOther.holds_congr hwf (fun var hvar => hright.agreeOn (by
      simpa using hvar)) hother).mp hholds₂

end Projected

/-! ## What the operations keep -/

section Invariant

variable [RangeOps ValidVersion] [RangeOps Text]
  {s s' : Interner} {below : Variable → Variable → Prop} {fuel : ℕ} {i : NodeId}
  {this other : UniversalMarker}

theorem fromCombined_allows (hsound : Sound below s) (hvalid : s.Valid i) :
    Allows (Sound below) (fromCombined fuel i) s Projected :=
  Allows.bind (withoutVariables_allows hsound hvalid) fun _ _ hsound' _ hdropped =>
    Allows.pure hsound' (projected_of_dropped hdropped)

omit [RangeOps ValidVersion] [RangeOps Text] in
theorem simplifyItem_allows {inference : Inference} (hsound : Sound below s)
    (hvalid : s.Valid i) : Allows (Sound below) (simplifyItem inference i) s
      fun s' r => s'.Valid r := by
  have hrestrict : ∀ f, Allows (Sound below) (restrict f (i.rank + 1) i) s
      fun s' r => s'.Valid r := fun f => (Allows.of_ensures (restrict_ensures hsound
        hvalid (Nat.lt_succ_self _))).weaken fun _ _ _ _ hpost => hpost.valid
  unfold simplifyItem
  split
  · intro r s' hrun
    cases hrun
  · split
    · exact hrestrict _
    · exact hrestrict _

omit [RangeOps ValidVersion] [RangeOps Text] in
theorem simplifySet_allows {set : List Inference} (hsound : Sound below s)
    (hvalid : s.Valid i) : Allows (Sound below) (simplifySet i set) s
      fun s' r => s'.Valid r := by
  unfold simplifySet
  induction set generalizing s i with
  | nil => exact Allows.pure hsound hvalid
  | cons inference set ih =>
      rw [List.foldlM_cons]
      exact Allows.bind (simplifyItem_allows hsound hvalid)
        fun _ _ hsound' _ hvalid' => ih hsound' hvalid'

omit [RangeOps ValidVersion] [RangeOps Text] in
theorem unifyLoop_allows {sets : List (List Inference)} {previous : Option NodeId}
    (hsound : Sound below s) (hvalid : s.Valid i)
    (hprevious : ∀ r, previous = some r → s.Valid r) :
    Allows (Sound below) (unifyLoop i sets previous) s
      fun s' result => ∀ r, result = some r → s'.Valid r := by
  induction sets generalizing s previous with
  | nil => exact Allows.pure hsound hprevious
  | cons set sets ih =>
      unfold unifyLoop
      refine Allows.bind (simplifySet_allows hsound hvalid)
        fun simplified s' hsound' hle hsimplified => ?_
      cases previous with
      | none =>
          refine ih hsound' (hvalid.mono hle) ?_
          rintro r ⟨⟩
          exact hsimplified
      | some previous =>
          simp only
          split
          · refine ih hsound' (hvalid.mono hle) ?_
            rintro _ ⟨⟩
            exact (hprevious previous rfl).mono hle
          · exact Allows.pure hsound' (by simp)

theorem assume_allows {inference : Inference} (hsound : Sound below s)
    (hthis : Projected s this) :
    Allows (Sound below) (this.assume fuel inference) s Projected := by
  refine Allows.bind (simplifyItem_allows hsound hthis.marker)
    fun marker s' hsound' _ hmarker => ?_
  exact Allows.bind (withoutVariables_allows hsound' hmarker)
    fun _ s'' hsound'' hle _ => fromCombined_allows hsound'' (hmarker.mono hle)

/-- Every operation keeps the two halves in step, a conjunction if its operands
are compatible. -/
theorem perform_projected {op : Operation} (hsound : Sound below s)
    (hoperands : ∀ operand ∈ op.operands, Projected s operand)
    (hvalid : ∀ id ∈ op.arguments, s.Valid id) (hcompatible : op.Compatible s) :
    Allows (Sound below) op.perform s Projected := by
  cases op with
  | new fuel pep508Marker conflictMarker =>
      have hand := and_ensures hsound
        (hvalid pep508Marker (by simp [Operation.arguments]))
        (hvalid conflictMarker (by simp [Operation.arguments]))
      exact Allows.bind (.of_ensures hand) fun _ _ hsound' _ hconj =>
        fromCombined_allows hsound' hconj.valid
  | fromCombined fuel marker =>
      exact fromCombined_allows hsound (hvalid marker (by
        simp [Operation.arguments]))
  | or this other =>
      have hthis := hoperands this (by simp [Operation.operands])
      have hother := hoperands other (by simp [Operation.operands])
      refine Allows.bind (.of_ensures (or_ensures hsound hthis.marker
        hother.marker)) fun marker s₁ hsound₁ hle₁ hmarker => ?_
      refine Allows.bind (.of_ensures (or_ensures hsound₁
        (hthis.pep508.mono hle₁) (hother.pep508.mono hle₁)))
          fun pep508 s₂ hsound₂ hle₂ hpep508 => Allows.pure hsound₂ ?_
      have hmono := fun operand hmem => (hoperands operand hmem).mono hsound hsound₂
        (hle₁.trans hle₂)
      exact (hmono this (by simp [Operation.operands])).or
        (hmono other (by simp [Operation.operands]))
        (hmarker.mono hsound₁.wellFormed hsound₂.wellFormed hle₂
          (hthis.marker.mono hle₁) (hother.marker.mono hle₁)) hpep508
  | and this other =>
      have hthis := hoperands this (by simp [Operation.operands])
      have hother := hoperands other (by simp [Operation.operands])
      refine Allows.bind (.of_ensures (and_ensures hsound hthis.marker
        hother.marker)) fun marker s₁ hsound₁ hle₁ hmarker => ?_
      refine Allows.bind (.of_ensures (and_ensures hsound₁
        (hthis.pep508.mono hle₁) (hother.pep508.mono hle₁)))
          fun pep508 s₂ hsound₂ hle₂ hpep508 => Allows.pure hsound₂ ?_
      have hmono := fun operand hmem => (hoperands operand hmem).mono hsound hsound₂
        (hle₁.trans hle₂)
      refine ((hmono this (by simp [Operation.operands])).and_iff
        (hmono other (by simp [Operation.operands]))
        (hmarker.mono hsound₁.wellFormed hsound₂.wellFormed hle₂) hpep508).mpr ?_
      exact (Compatible.mono hsound hsound₂ (hle₁.trans hle₂) hthis.marker
        hother.marker hcompatible)
  | imbibe fuel this conflicts =>
      have hthis := hoperands this (by simp [Operation.operands])
      have hor := or_ensures hsound (valid_not.mpr
        (hvalid conflicts (by simp [Operation.arguments]))) hthis.marker
      exact Allows.bind (.of_ensures hor) fun _ _ hsound' _ hdisj =>
        fromCombined_allows hsound' hdisj.valid
  | assumeConflictItem fuel item this =>
      exact assume_allows hsound (hoperands this (by simp [Operation.operands]))
  | assumeNotConflictItem fuel item this =>
      exact assume_allows hsound (hoperands this (by simp [Operation.operands]))
  | unifyInferenceSets fuel conflictSets this =>
      have hthis := hoperands this (by simp [Operation.operands])
      refine Allows.bind (unifyLoop_allows hsound hthis.marker (by simp))
        fun result s' hsound' hle hresult => ?_
      cases result with
      | none => exact Allows.pure hsound' (hthis.mono hsound hsound' hle)
      | some marker => exact fromCombined_allows hsound' (hresult marker rfl)

theorem Runs.invariant {markers : List UniversalMarker}
    (hruns : Runs Operation.Compatible s markers) :
    Sound Variable.Below s ∧ ∀ this ∈ markers, Projected s this := by
  induction hruns with
  | start =>
      refine ⟨sound_default strata_below, fun this hmem => ?_⟩
      rcases List.mem_pair.mp hmem with rfl | rfl
      · exact projected_true
      · exact projected_false
  | plain op _ hvalid hrun ih =>
      obtain ⟨hsound, hmarkers⟩ := ih
      obtain ⟨hsound', hle, -⟩ := perform_allows hsound hvalid (by
        rintro i pyLower pyUpper rfl -
        exact admits_below hsound.wellFormed (hvalid i (by
          simp [Pep508.Operation.arguments]))) _ _ hrun
      exact ⟨hsound', fun this hmem => (hmarkers this hmem).mono hsound hsound' hle⟩
  | universal op _ hoperands hvalid hcompatible hrun ih =>
      obtain ⟨hsound, hmarkers⟩ := ih
      obtain ⟨hsound', hle, hresult⟩ := perform_projected hsound
        (fun operand hmem => hmarkers operand (hoperands operand hmem)) hvalid
        hcompatible _ _ hrun
      refine ⟨hsound', fun this hmem => ?_⟩
      rcases List.mem_cons.mp hmem with rfl | hmem
      · exact hresult
      · exact (hmarkers this hmem).mono hsound hsound' hle

/-- In every run that conjoins compatible markers only, the cached half of every
universal marker means what the projection of the other half means. -/
theorem Runs.inStep {markers : List UniversalMarker}
    (hruns : Runs Operation.Compatible s markers) :
    ∀ this ∈ markers, this.InStep s := by
  intro this hmem
  obtain ⟨hsound, hmarkers⟩ := hruns.invariant
  have hthis := hmarkers this hmem
  obtain ⟨fuel, r, s', hrun, hsound', hle, hdropped⟩ :=
    withoutExtras_eventually hsound hthis.marker
  refine ⟨fuel, r, s', hrun, fun v hv => ?_⟩
  rw [(hthis.mono hsound hsound' hle).holds_iff v hv]
  exact ((projected_of_dropped hdropped).holds_iff v hv).symm

end Invariant

/-- The interner that holds `extra == 'extra-3-foo-a'` and nothing else. -/
def fooExtra : Interner :=
  ⟨[⟨.extra "extra-3-foo-a".toList, Edges.fromBool true⟩], [], none⟩

theorem runs_fooExtra {allowed : Interner → Operation → Prop}
    (hallowed : ∀ s fuel marker, allowed s (.fromCombined fuel marker)) :
    Runs allowed fooExtra
      [⟨.new 0 true, .TRUE⟩, ⟨.new 0 false, .TRUE⟩, TRUE, FALSE] := by
  have hexpression : (Pep508.Operation.expression
      (.extra (.extra "extra-3-foo-a".toList) .equal)).perform.run
        Interner.default = some (some (.new 0 false), fooExtra) := rfl
  have hstart : Runs allowed fooExtra [TRUE, FALSE] :=
    .plain _ .start (by simp [Pep508.Operation.arguments]) hexpression
  have hextra : (Operation.fromCombined 1 (.new 0 false)).perform.run fooExtra =
      some (⟨.new 0 false, .TRUE⟩, fooExtra) := rfl
  have hnot : (Operation.fromCombined 1 (.new 0 true)).perform.run fooExtra =
      some (⟨.new 0 true, .TRUE⟩, fooExtra) := rfl
  refine .universal _ (.universal _ hstart ?_ ?_ (hallowed _ _ _) hextra) ?_ ?_
    (hallowed _ _ _) hnot
  all_goals simp [Operation.operands, Operation.arguments]
  · decide
  · decide

/-- `extra == 'extra-3-foo-a'` has no extra in common with the constant `true`. -/
theorem Runs.inStep_fooExtra : ∃ s markers,
    Runs Operation.Compatible s (⟨.new 0 false, .TRUE⟩ :: markers) ∧
      InStep s ⟨.new 0 false, .TRUE⟩ := by
  have hstart : Runs Operation.Compatible fooExtra _ :=
    runs_fooExtra fun _ _ _ => trivial
  have hwf := hstart.invariant.1.wellFormed
  have hvalid : fooExtra.Valid (.new 0 false) := by decide
  have hcompatible : Compatible fooExtra ⟨.new 0 false, .TRUE⟩ TRUE :=
    .of_disjoint hwf hvalid valid_true (allVars_nodes hwf hvalid) .true
      fun _ _ _ hfalse => hfalse
  have hand : (Operation.and ⟨.new 0 false, .TRUE⟩ TRUE).perform.run fooExtra =
      some (⟨.new 0 false, .TRUE⟩, fooExtra) := rfl
  have hruns := hstart.universal (.and ⟨.new 0 false, .TRUE⟩ TRUE)
    (by simp [Operation.operands]) (by simp [Operation.arguments]) hcompatible hand
  exact ⟨_, _, hruns, hruns.inStep _ (by simp)⟩

/-- `extra == 'extra-3-foo-a'` and its negation cannot hold together, but the
cached half of their conjunction is `true`. -/
theorem not_inStep_of_and : ¬ ∀ s markers, Runs (fun _ _ => True) s markers →
    ∀ this ∈ markers, InStep s this := by
  intro hall
  have hand : (Operation.and ⟨.new 0 true, .TRUE⟩
      ⟨.new 0 false, .TRUE⟩).perform.run fooExtra =
        some (⟨.FALSE, .TRUE⟩, fooExtra) := rfl
  have hstart : Runs (fun _ _ => True) fooExtra _ :=
    runs_fooExtra fun _ _ _ => trivial
  have hruns := hstart.universal _ (by simp [Operation.operands])
    (by simp [Operation.arguments]) trivial hand
  obtain ⟨fuel, r, s', hrun, hiff⟩ := hall _ _ hruns _ List.mem_cons_self
  cases fuel with
  | zero => cases hrun
  | succ fuel =>
      have hfalse : (withoutExtras (fuel + 1) .FALSE).run fooExtra =
          some (.FALSE, fooExtra) := rfl
      rw [hfalse] at hrun
      obtain ⟨rfl, rfl⟩ : NodeId.FALSE = r ∧ fooExtra = s' := by
        simpa using hrun
      have hlinux : ¬ (linuxEnvironment.valuation (.extras [])).Excluded := by
        rw [MarkerEnvironment.excluded_valuation_iff]
        decide +kernel
      exact not_holds_false ((hiff _ hlinux).mp .true)

end UniversalMarker

end Uv.Resolver

