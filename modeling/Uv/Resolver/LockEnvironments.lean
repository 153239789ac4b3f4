import Uv.Resolver.LockEdges

/-!
# The environments in a lock

The supported and the required environments of a lock include the Python requirement.  They
are written without it and it is added again when they are read.  A marker that is always
true has no text, so it is not written, and one that is always false is read back as a bound
on the Python version.
-/

set_option linter.unusedSectionVars false

namespace Uv.Resolver

open Uv.Core Uv.Pep440 Uv.Pep508 Uv.Pep508.Interner

/-! ## Text forms -/

/-- `python_version < '0'`. -/
def neverExpression : MarkerExpression :=
  .version .pythonVersion ⟨.lessThan, .new [0], fun htilde => nomatch htilde⟩

/-- How markers are printed and parsed.  What a marker that is neither always true nor always
false is printed as is left open. -/
structure MarkerText (Form : Type) where
  never : Form
  contents : Interner → NodeId → Form
  fromStr : Form → InternerM NodeId

namespace MarkerText

variable {Form : Type} (form : MarkerText Form)

/-- `MarkerTree::try_to_string`. -/
def tryToString (interner : Interner) (marker : NodeId) : Option Form :=
  if marker.isTrue then none
  else if marker.isFalse then some form.never
  else some (form.contents interner marker)

end MarkerText

section Environments

variable {Form : Type} [RangeOps ValidVersion] [RangeOps Text]

/-- What a marker evaluates to. -/
abbrev Meaning := MarkerEnvironment → ExtrasEnvironment → Bool

/-- Whatever the interner is, parsing the text is an error, or gives a marker with the
meaning. -/
def MarkerText.Parses (form : MarkerText Form) (text : Form) : Option Meaning → Prop
  | none => ∀ s, (form.fromStr text).run s = none
  | some meaning => ∀ s, Sound Variable.Below s →
      Ensures (Sound Variable.Below) (form.fromStr text) s fun s' read =>
        Named s' read ∧ ∀ env extras, s'.evaluate env extras read = meaning env extras

/-! ## Writing and reading -/

namespace RequiresPythonRange

def simplifyMarkers (requiresPython : RequiresPythonRange) (marker : NodeId) :
    InternerM NodeId :=
  simplifyPythonVersions marker requiresPython.lower requiresPython.upper

def complexifyMarkers (requiresPython : RequiresPythonRange) (marker : NodeId) :
    InternerM NodeId :=
  complexifyPythonVersions marker requiresPython.lower requiresPython.upper

end RequiresPythonRange

variable (requiresPython : RequiresPythonRange) (form : MarkerText Form)

/-- `Lock::with_supported_environments` and `Lock::with_required_environments`. -/
def withEnvironments (markers : List NodeId) : InternerM (List NodeId) :=
  markers.mapM requiresPython.complexifyMarkers

/-- `SimplifiedMarkerTree::new` for every environment. -/
def simplifiedEnvironments (environments : List NodeId) : InternerM (List NodeId) :=
  environments.mapM requiresPython.simplifyMarkers

/-- `Lock::to_toml`.  Printing a marker does not change the interner. -/
def writeEnvironments (environments : List NodeId) : InternerM (List Form) := do
  let simplified ← simplifiedEnvironments requiresPython environments
  let interner ← get
  pure (simplified.filterMap (form.tryToString interner))

/-- `TryFrom<LockWire>`. -/
def readEnvironments (texts : List Form) : InternerM (List NodeId) := do
  let simplified ← texts.mapM form.fromStr
  simplified.mapM requiresPython.complexifyMarkers

variable {requiresPython form} {s s' : Interner} {env : MarkerEnvironment}
  {extras : ExtrasEnvironment}

/-! ## Constant markers -/

/-- The development releases and pre-releases of version 0. -/
def belowZero (version : ValidVersion) : Bool :=
  compare version (.new [0]) == .lt

theorem neverExpression_ensures (hsound : Sound Variable.Below s) :
    Ensures (Sound Variable.Below) (expression neverExpression) s fun s' r =>
      Named s' r ∧ ∀ env extras, s'.evaluate env extras r = belowZero env.pythonFullVersion := by
  have hedges : expressionEdges neverExpression = some (.ok (.version .pythonFullVersion,
      .version (Edges.fromRange (.strictlyLowerThan (.new [0]))))) := by
    rfl
  apply (PythonRequirement.expression_evaluate hedges
    (Ranges.valid_strictlyLowerThan _) hsound).weaken
  intro r s' _ _ hmarker
  obtain ⟨hnamed, _, hevaluate⟩ := hmarker
  refine ⟨hnamed, ?_⟩
  intro env extras
  rw [hevaluate]
  simp [Ranges.strictlyLowerThan, Ranges.contains, Bound.isBelow, Bound.isAbove, belowZero]

theorem evaluate_false (hsound : Sound Variable.Below s) :
    s.evaluate env extras .FALSE = false := by
  have hnamed : Named s .FALSE := named_true.not
  rw [Bool.eq_false_iff, ne_eq, evaluate_iff_holds hsound.wellFormed hnamed.valid hnamed.wellNamed]
  exact not_holds_false

/-! ## What the markers mean -/

/-- The marker only holds where the Python requirement does. -/
structure Within (requiresPython : RequiresPythonRange) (s : Interner) (marker : NodeId) :
    Prop where
  named : Named s marker
  supports : ∀ env extras, s.evaluate env extras marker = true → requiresPython.Supports env

/-- The second marker is the first one with the Python requirement. -/
structure Complexifies (requiresPython : RequiresPythonRange) (s : Interner)
    (marker complexified : NodeId) : Prop where
  source : Named s marker
  named : Named s complexified
  evaluate_iff : ∀ env extras, s.evaluate env extras complexified = true ↔
    s.evaluate env extras marker = true ∧ requiresPython.Supports env

/-- Both markers evaluate the same where the Python requirement holds. -/
structure Alike (requiresPython : RequiresPythonRange) (s : Interner) (marker simplified : NodeId) :
    Prop where
  within : Within requiresPython s marker
  named : Named s simplified
  evaluate : ∀ env extras, requiresPython.Supports env →
    s.evaluate env extras simplified = s.evaluate env extras marker

/-- What the text of a marker means, if it can be parsed. -/
def textMeaning (form : MarkerText Form) (parse : Form → Option Meaning) (s : Interner)
    (simplified : NodeId) : Option Meaning :=
  if simplified = .FALSE then some fun env _ => belowZero env.pythonFullVersion
  else parse (form.contents s simplified)

/-- The marker means what the text does. -/
structure ParsedFrom (text : Option Meaning) (s : Interner) (parsed : NodeId) : Prop where
  named : Named s parsed
  evaluate_eq : ∀ meaning, text = some meaning → ∀ env extras,
    s.evaluate env extras parsed = meaning env extras

/-- Both markers evaluate the same everywhere. -/
def Same (s : Interner) (marker read : NodeId) : Prop :=
  ∀ env extras, s.evaluate env extras read = s.evaluate env extras marker

theorem Within.mono {marker : NodeId} (hwithin : Within requiresPython s marker)
    (hsound : Sound Variable.Below s) (hsound' : Sound Variable.Below s') (hle : s ≤ s') :
    Within requiresPython s' marker where
  named := hwithin.named.mono hle
  supports env extras := by
    rw [hwithin.named.evaluate_mono hsound.wellFormed hsound'.wellFormed hle]
    exact hwithin.supports env extras

theorem Complexifies.mono {marker complexified : NodeId}
    (hcomplexified : Complexifies requiresPython s marker complexified)
    (hsound : Sound Variable.Below s) (hsound' : Sound Variable.Below s') (hle : s ≤ s') :
    Complexifies requiresPython s' marker complexified where
  source := hcomplexified.source.mono hle
  named := hcomplexified.named.mono hle
  evaluate_iff env extras := by
    rw [hcomplexified.named.evaluate_mono hsound.wellFormed hsound'.wellFormed hle,
      hcomplexified.source.evaluate_mono hsound.wellFormed hsound'.wellFormed hle]
    exact hcomplexified.evaluate_iff env extras

theorem Alike.mono {marker simplified : NodeId} (halike : Alike requiresPython s marker simplified)
    (hsound : Sound Variable.Below s) (hsound' : Sound Variable.Below s') (hle : s ≤ s') :
    Alike requiresPython s' marker simplified where
  within := halike.within.mono hsound hsound' hle
  named := halike.named.mono hle
  evaluate env extras hpython := by
    rw [halike.named.evaluate_mono hsound.wellFormed hsound'.wellFormed hle,
      halike.within.named.evaluate_mono hsound.wellFormed hsound'.wellFormed hle]
    exact halike.evaluate env extras hpython

theorem ParsedFrom.mono {text : Option Meaning} {parsed : NodeId}
    (hparsed : ParsedFrom text s parsed) (hsound : Sound Variable.Below s)
    (hsound' : Sound Variable.Below s') (hle : s ≤ s') : ParsedFrom text s' parsed where
  named := hparsed.named.mono hle
  evaluate_eq meaning htext env extras := by
    rw [hparsed.named.evaluate_mono hsound.wellFormed hsound'.wellFormed hle]
    exact hparsed.evaluate_eq meaning htext env extras

/-! ## One marker -/

namespace RequiresPythonRange

theorem complexifyMarkers_ensures {marker : NodeId} (hsound : Sound Variable.Below s)
    (hmarker : Named s marker) :
    Ensures (Sound Variable.Below) (requiresPython.complexifyMarkers marker) s fun s' r =>
      Complexifies requiresPython s' marker r := by
  apply (complexifyPythonVersions_ensures hsound hmarker.valid _ _
    fun _ => admits_below hsound.wellFormed hmarker.valid).weaken
  intro r s' hsound' hle hcomplexified
  have hmarker' := hmarker.mono hle
  have hnamed : Named s' r := ⟨hcomplexified.valid, hcomplexified.vars _ rfl hmarker'.wellNamed⟩
  refine ⟨hmarker', hnamed, ?_⟩
  intro env extras
  rw [evaluate_iff_holds hsound'.wellFormed hnamed.valid hnamed.wellNamed,
    evaluate_iff_holds hsound'.wellFormed hmarker'.valid hmarker'.wellNamed,
    hcomplexified.holds_iff, inPython_valuation_iff, Supports]

theorem simplifyMarkers_ensures {marker : NodeId} (hsound : Sound Variable.Below s)
    (hwithin : Within requiresPython s marker) :
    Ensures (Sound Variable.Below) (requiresPython.simplifyMarkers marker) s fun s' r =>
      Alike requiresPython s' marker r := by
  apply (simplifyPythonVersions_ensures hsound hwithin.named.valid _ _).weaken
  intro r s' hsound' hle hsimplified
  have hwithin' := hwithin.mono hsound hsound' hle
  have hnamed : Named s' r :=
    ⟨hsimplified.valid, hsimplified.vars _ hwithin'.named.wellNamed⟩
  refine ⟨hwithin', hnamed, ?_⟩
  intro env extras hpython
  rw [Bool.eq_iff_iff, evaluate_iff_holds hsound'.wellFormed hnamed.valid hnamed.wellNamed,
    evaluate_iff_holds hsound'.wellFormed hwithin'.named.valid hwithin'.named.wellNamed]
  exact hsimplified.holds_iff _ (inPython_valuation_iff.mpr hpython)

end RequiresPythonRange

/-- The texts of the marker that are neither always true nor always false parse as stated. -/
structure MarkerText.Reads (form : MarkerText Form) (parse : Form → Option Meaning) (s : Interner)
    (simplified : NodeId) : Prop where
  never : form.fromStr form.never = expression neverExpression
  contents : simplified ≠ .TRUE → simplified ≠ .FALSE →
    form.Parses (form.contents s simplified) (parse (form.contents s simplified))

/-- The text of a marker that has one. -/
theorem MarkerText.Reads.parses {parse : Form → Option Meaning} {simplified : NodeId}
    (hreads : form.Reads parse s simplified) (hne : simplified ≠ .TRUE) :
    form.Parses (if simplified = .FALSE then form.never else form.contents s simplified)
      (textMeaning form parse s simplified) := by
  rw [textMeaning]
  by_cases hfalse : simplified = .FALSE
  · rw [if_pos hfalse, if_pos hfalse]
    intro s' hsound'
    rw [hreads.never]
    exact neverExpression_ensures hsound'
  · rw [if_neg hfalse, if_neg hfalse]
    exact hreads.contents hne hfalse

/-! ## Lists of markers -/

theorem withEnvironments_ensures (requiresPython : RequiresPythonRange) {markers : List NodeId}
    (hsound : Sound Variable.Below s)
    (hmarkers : ∀ marker ∈ markers, Named s marker) :
    Ensures (Sound Variable.Below) (withEnvironments requiresPython markers) s fun s' stored =>
      List.Forall₂ (fun _ => Within requiresPython s') markers stored := by
  apply Ensures.mapM (fun _ _ _ _ hs hs' hle hwithin => hwithin.mono hs hs' hle) hsound
  intro marker hmarker s' hle hsound'
  apply (RequiresPythonRange.complexifyMarkers_ensures hsound'
    ((hmarkers marker hmarker).mono hle)).weaken
  intro r s'' _ _ hr
  exact ⟨hr.named, fun env extras heval => ((hr.evaluate_iff env extras).mp heval).2⟩

theorem simplifiedEnvironments_ensures {stored : List NodeId} (hsound : Sound Variable.Below s)
    (hstored : ∀ marker ∈ stored, Within requiresPython s marker) :
    Ensures (Sound Variable.Below) (simplifiedEnvironments requiresPython stored) s
      fun s' simplified => List.Forall₂ (Alike requiresPython s') stored simplified := by
  apply Ensures.mapM (fun _ _ _ _ hs hs' hle halike => halike.mono hs hs' hle) hsound
  intro marker hmarker s' hle hsound'
  exact RequiresPythonRange.simplifyMarkers_ensures hsound'
    ((hstored marker hmarker).mono hsound hsound' hle)

/-- A relation along two lists that are related to a third one in between. -/
theorem forall₂_iff_forall_mem {α β γ : Type} {A : α → β → Prop} {B : β → γ → Prop}
    {C : α → γ → Prop} {P : β → Prop} {xs : List α} {ys : List β} {zs : List γ}
    (hxy : List.Forall₂ A xs ys) (hyz : List.Forall₂ B ys zs)
    (hiff : ∀ x, ∀ y ∈ ys, ∀ z, A x y → B y z → (C x z ↔ P y)) :
    List.Forall₂ C xs zs ↔ ∀ y ∈ ys, P y := by
  induction hxy generalizing zs with
  | nil =>
      cases hyz
      simp
  | cons hx _ ih =>
      cases hyz with
      | cons hy hrest =>
          have htail := ih hrest fun x y hmem => hiff x y (List.mem_cons_of_mem _ hmem)
          rw [List.forall₂_cons, hiff _ _ List.mem_cons_self _ hx hy, htail,
            List.forall_mem_cons]

theorem exists_of_forall₂ {α β : Type} {A : α → β → Prop} {xs : List α} {ys : List β} {y : β}
    (hxy : List.Forall₂ A xs ys) (hy : y ∈ ys) : ∃ x ∈ xs, A x y := by
  induction hxy with
  | nil => cases hy
  | cons hhead _ ih =>
      rcases List.mem_cons.mp hy with rfl | hrest
      · exact ⟨_, List.mem_cons_self, hhead⟩
      · obtain ⟨x, hx, hrel⟩ := ih hrest
        exact ⟨x, List.mem_cons_of_mem _ hx, hrel⟩

/-- The markers that are written, and their texts. -/
theorem filterMap_tryToString (simplified : List NodeId) :
    simplified.filterMap (form.tryToString s) =
      (simplified.filter fun marker => !marker.isTrue).map fun marker =>
        if marker = .FALSE then form.never else form.contents s marker := by
  induction simplified with
  | nil => rfl
  | cons marker rest ih =>
      rw [List.filterMap_cons, List.filter_cons, ih, MarkerText.tryToString]
      by_cases htrue : marker.isTrue = true
      · simp [htrue]
      · by_cases hfalse : marker = .FALSE
        · subst hfalse
          rfl
        · have hfalse' : marker.isFalse = false := by
            rw [Bool.eq_false_iff, ne_eq, NodeId.isFalse_iff]
            exact hfalse
          simp [htrue, hfalse, hfalse']

/-- An action that fails for an element fails for the list. -/
theorem mapM_run_eq_none {σ α β : Type} {f : α → StateT σ Option β} {xs : List α} {x : α}
    (hx : x ∈ xs) (hf : ∀ s, (f x).run s = none) (s : σ) : (xs.mapM f).run s = none := by
  induction xs generalizing s with
  | nil => cases hx
  | cons head rest ih =>
      rw [List.mapM_cons, StateT.run_bind]
      rcases List.mem_cons.mp hx with rfl | hrest
      · rw [hf]
        rfl
      · cases (f head).run s with
        | none => rfl
        | some result =>
            change (do
              let values ← rest.mapM f
              pure (result.1 :: values) : StateT σ Option (List β)).run result.2 = none
            rw [StateT.run_bind, ih hrest]
            rfl

/-- The marker that is read for a text. -/
def ReadFrom (requiresPython : RequiresPythonRange) (text : Option Meaning) (s : Interner)
    (read : NodeId) : Prop :=
  ∀ meaning, text = some meaning → ∀ env extras, s.evaluate env extras read = true ↔
    meaning env extras = true ∧ requiresPython.Supports env

theorem readEnvironments_ensures (requiresPython : RequiresPythonRange)
    {parse : Form → Option Meaning} {simplified : List NodeId} (hsound : Sound Variable.Below s)
    (hreads : ∀ marker ∈ simplified, form.Reads parse s marker)
    (hparse : ∀ marker ∈ simplified, marker ≠ .TRUE →
      (textMeaning form parse s marker).isSome = true) :
    Ensures (Sound Variable.Below)
      (readEnvironments requiresPython form (simplified.filterMap (form.tryToString s))) s
      fun s' read => List.Forall₂
        (fun marker => ReadFrom requiresPython (textMeaning form parse s marker) s')
        (simplified.filter fun marker => !marker.isTrue) read := by
  rw [readEnvironments, filterMap_tryToString, List.mapM_map]
  have hparsed : Ensures (Sound Variable.Below)
      ((simplified.filter fun marker => !marker.isTrue).mapM fun marker =>
        form.fromStr (if marker = .FALSE then form.never else form.contents s marker)) s
      fun s' parsed => List.Forall₂
        (fun marker => ParsedFrom (textMeaning form parse s marker) s')
        (simplified.filter fun marker => !marker.isTrue) parsed := by
    apply Ensures.mapM (fun _ _ _ _ hs hs' hle hparsed => hparsed.mono hs hs' hle) hsound
    intro marker hmarker s' hle hsound'
    rw [List.mem_filter, Bool.not_eq_true', Bool.eq_false_iff, ne_eq, NodeId.isTrue_iff] at hmarker
    have hparses := (hreads marker hmarker.1).parses hmarker.2
    obtain ⟨meaning, hmeaning⟩ := Option.isSome_iff_exists.mp (hparse marker hmarker.1 hmarker.2)
    rw [hmeaning] at hparses ⊢
    apply (hparses s' hsound').weaken
    intro parsed s'' _ _ hread
    refine ⟨hread.1, ?_⟩
    rintro _ ⟨⟩
    exact hread.2
  apply hparsed.bind
  intro parsed s₁ hsound₁ _ hparsed
  have hcomplexify : Ensures (Sound Variable.Below)
      (parsed.mapM requiresPython.complexifyMarkers) s₁
      fun s' read => List.Forall₂ (Complexifies requiresPython s') parsed read := by
    apply Ensures.mapM (fun _ _ _ _ hs hs' hle hread => hread.mono hs hs' hle) hsound₁
    intro marker hmarker s' hle hsound'
    obtain ⟨simplified, _, hfrom⟩ := exists_of_forall₂ hparsed hmarker
    exact RequiresPythonRange.complexifyMarkers_ensures hsound' (hfrom.named.mono hle)
  apply hcomplexify.weaken
  intro read s₂ hsound₂ hle₂ hread
  apply (forall₂_iff_forall_mem (P := fun _ => True) hparsed hread ?_).mpr (fun _ _ => trivial)
  intro simplified parsed _ read hfrom hcomplexified
  apply iff_of_true _ trivial
  intro meaning hmeaning env extras
  rw [hcomplexified.evaluate_iff, (hfrom.mono hsound₁ hsound₂ hle₂).evaluate_eq meaning hmeaning]

/-- A text that cannot be parsed is an error. -/
theorem readEnvironments_eq_none (requiresPython : RequiresPythonRange)
    {parse : Form → Option Meaning} {simplified : List NodeId} {marker : NodeId}
    (hreads : form.Reads parse s marker) (hmarker : marker ∈ simplified) (hne : marker ≠ .TRUE)
    (hparse : textMeaning form parse s marker = none) :
    (readEnvironments requiresPython form (simplified.filterMap (form.tryToString s))).run s' =
      none := by
  have hfails : ∀ s', (form.fromStr
      (if marker = .FALSE then form.never else form.contents s marker)).run s' = none := by
    have hparses := hreads.parses hne
    rwa [hparse] at hparses
  have hkept : marker ∈ simplified.filter fun marker => !marker.isTrue := by
    rw [List.mem_filter, Bool.not_eq_true', Bool.eq_false_iff, ne_eq, NodeId.isTrue_iff]
    exact ⟨hmarker, hne⟩
  rw [readEnvironments, filterMap_tryToString, List.mapM_map, StateT.run_bind,
    mapM_run_eq_none hkept hfails]
  rfl

/-! ## The round trip -/

/-- The simplified marker has a text that means the same where the Python requirement holds. -/
def Written (requiresPython : RequiresPythonRange) (form : MarkerText Form)
    (parse : Form → Option Meaning) (s : Interner) (simplified : NodeId) : Prop :=
  simplified ≠ .TRUE ∧ ∃ meaning, textMeaning form parse s simplified = some meaning ∧
    ∀ env extras, requiresPython.Supports env →
      meaning env extras = s.evaluate env extras simplified

/-- Only a text that means the same as the marker is read back as the marker. -/
theorem same_iff_written {parse : Form → Option Meaning} {meaning : Meaning}
    {marker simplified read : NodeId} (hsound : Sound Variable.Below s)
    (hsound' : Sound Variable.Below s') (hle : s ≤ s')
    (halike : Alike requiresPython s marker simplified)
    (hmeaning : textMeaning form parse s simplified = some meaning)
    (hread : ReadFrom requiresPython (textMeaning form parse s simplified) s' read)
    (hne : simplified ≠ .TRUE) :
    Same s' marker read ↔ Written requiresPython form parse s simplified := by
  have hread' := hread meaning hmeaning
  have hmarker : ∀ env extras,
      s'.evaluate env extras marker = s.evaluate env extras marker := fun env extras =>
    halike.within.named.evaluate_mono hsound.wellFormed hsound'.wellFormed hle
  constructor
  · intro hsame
    refine ⟨hne, meaning, hmeaning, ?_⟩
    intro env extras hpython
    rw [halike.evaluate _ _ hpython, ← hmarker, ← hsame env extras, Bool.eq_iff_iff, hread']
    exact (and_iff_left hpython).symm
  · rintro ⟨_, other, hother, hagree⟩ env extras
    cases hmeaning.symm.trans hother
    rw [hmarker, Bool.eq_iff_iff, hread' env extras]
    constructor
    · intro hholds
      rw [hagree _ _ hholds.2, halike.evaluate _ _ hholds.2] at hholds
      exact hholds.1
    · intro hholds
      have hpython := halike.within.supports env extras hholds
      rw [hagree _ _ hpython, halike.evaluate _ _ hpython]
      exact ⟨hholds, hpython⟩

/-- A marker that is always false is kept iff no supported version is below 0. -/
theorem written_false_iff {parse : Form → Option Meaning} (hsound : Sound Variable.Below s) :
    Written requiresPython form parse s .FALSE ↔ ∀ version,
      (Ranges.fromRangeBounds requiresPython.lower requiresPython.upper).contains version = true →
        belowZero version = false := by
  have hmeaning : textMeaning form parse s .FALSE =
      some fun env _ => belowZero env.pythonFullVersion := if_pos rfl
  constructor
  · rintro ⟨_, meaning, hother, hagree⟩ version hcontains
    cases hmeaning.symm.trans hother
    have hversion := hagree { linuxEnvironment with pythonFullVersion := version } (.extras [])
      hcontains
    rwa [evaluate_false hsound] at hversion
  · intro hversions
    refine ⟨by decide, _, hmeaning, ?_⟩
    intro env extras hpython
    rw [evaluate_false hsound]
    exact hversions _ hpython

/-- The environments are read, as they were stored, iff every one of them has a text that means
the same. -/
theorem readEnvironments_same_iff (requiresPython : RequiresPythonRange)
    {parse : Form → Option Meaning} {stored simplified : List NodeId}
    (hsound : Sound Variable.Below s)
    (halike : List.Forall₂ (Alike requiresPython s) stored simplified)
    (hreads : ∀ marker ∈ simplified, form.Reads parse s marker) :
    (∃ read s', (readEnvironments requiresPython form
        (simplified.filterMap (form.tryToString s))).run s = some (read, s') ∧
      List.Forall₂ (Same s') stored read) ↔
      ∀ marker ∈ simplified, Written requiresPython form parse s marker := by
  by_cases hparse : ∀ marker ∈ simplified, marker ≠ .TRUE →
      (textMeaning form parse s marker).isSome = true
  · obtain ⟨read, s', hrun, hsound', hle, hread⟩ :=
      readEnvironments_ensures requiresPython hsound hreads hparse
    have hexists : (∃ read s', (readEnvironments requiresPython form
        (simplified.filterMap (form.tryToString s))).run s = some (read, s') ∧
      List.Forall₂ (Same s') stored read) ↔ List.Forall₂ (Same s') stored read := by
      constructor
      · rintro ⟨other, _, hother, hsame⟩
        rw [hrun] at hother
        cases hother
        exact hsame
      · exact fun hsame => ⟨read, s', hrun, hsame⟩
    rw [hexists]
    by_cases hall : ∀ marker ∈ simplified, marker ≠ .TRUE
    · have hkept : (simplified.filter fun marker => !marker.isTrue) = simplified := by
        rw [List.filter_eq_self]
        intro marker hmarker
        simpa [Bool.eq_false_iff, NodeId.isTrue_iff] using hall marker hmarker
      rw [hkept] at hread
      apply forall₂_iff_forall_mem halike hread
      intro marker simplified hmarker read halike hread
      obtain ⟨meaning, hmeaning⟩ :=
        Option.isSome_iff_exists.mp (hparse simplified hmarker (hall simplified hmarker))
      exact same_iff_written hsound hsound' hle halike hmeaning hread (hall simplified hmarker)
    · obtain ⟨marker, hmarker, htrue⟩ : ∃ marker ∈ simplified, marker = .TRUE := by
        simpa using hall
      apply iff_of_false
      · intro hsame
        have hlength : (simplified.filter fun marker => !marker.isTrue).length =
            simplified.length := by
          rw [hread.length_eq, ← hsame.length_eq, halike.length_eq]
        have hkept := List.length_filter_eq_length_iff.mp hlength marker hmarker
        rw [htrue] at hkept
        cases hkept
      · intro hwritten
        exact (hwritten marker hmarker).1 htrue
  · obtain ⟨marker, hmarker, hne, hnone⟩ : ∃ marker ∈ simplified, marker ≠ .TRUE ∧
        textMeaning form parse s marker = none := by
      simpa using hparse
    apply iff_of_false
    · rintro ⟨read, s', hrun, _⟩
      rw [readEnvironments_eq_none requiresPython (hreads marker hmarker) hmarker hne hnone] at hrun
      cases hrun
    · intro hwritten
      obtain ⟨_, meaning, hmeaning, _⟩ := hwritten marker hmarker
      rw [hnone] at hmeaning
      cases hmeaning

end Environments

/-! ## Constant environments -/

/-- A text form for the constants only. -/
def constantForm : MarkerText Unit where
  never := ()
  contents _ _ := ()
  fromStr _ := expression neverExpression

end Uv.Resolver
