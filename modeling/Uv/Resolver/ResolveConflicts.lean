import Uv.Pep508.DnfTerms
import Uv.Pep508.OnlyExtras
import Uv.Resolver.DistinctEncodings

/-!
# Resolving conflict markers

Requirements that are exported know no conflict items.  A marker is rebuilt from its
clauses, with the marker under which an item is known to be active in the place of the
item's encoded extra; an extra that encodes no known item is inactive.
-/

namespace Uv.Resolver

open Uv.Core Uv.Pep440 Uv.Pep508 Uv.Pep508.Interner

/-- A hash map of conflict items, in the order in which it is iterated over. -/
abbrev KnownConflicts := List (ConflictItem × NodeId)

/-! ## Rebuilding a marker -/

/-- The marker of the first item that is encoded as the name.  Encoding an item panics
where no name comes of it. -/
def findConflict (name : Text) : KnownConflicts → Option (Option NodeId)
  | [] => some none
  | (conflictItem, conflictMarker) :: knownConflicts =>
      match encodeConflictItem conflictItem with
      | none => none
      | some encoded =>
          if encoded = name then some (some conflictMarker)
          else findConflict name knownConflicts

section Rebuilding

variable [RangeOps ValidVersion] [RangeOps Text]

/-- The marker that a term is replaced by. -/
def resolveTerm (knownConflicts : KnownConflicts) : MarkerExpression → InternerM NodeId
  | .extra (.extra name) operator =>
      match findConflict name knownConflicts, operator with
      | none, _ => failure
      | some (some conflictMarker), .equal => pure conflictMarker
      | some (some conflictMarker), .notEqual => pure conflictMarker.not
      | some none, .equal => pure .FALSE
      | some none, .notEqual => pure .TRUE
  | marker => expression marker

/-- The conjunction of the terms of a clause. -/
def resolveClause (knownConflicts : KnownConflicts) (clause : Clause) : InternerM NodeId :=
  clause.foldlM (fun or marker => do
    let resolved ← resolveTerm knownConflicts marker
    Pep508.and or resolved) .TRUE

/-- The disjunction of the clauses. -/
def resolveDnf (knownConflicts : KnownConflicts) (dnf : List Clause) : InternerM NodeId :=
  dnf.foldlM (fun transformed clause => do
    let or ← resolveClause knownConflicts clause
    Pep508.or transformed or) .FALSE

def resolveConflicts (marker : NodeId) (knownConflicts : KnownConflicts) :
    InternerM NodeId := do
  if marker.isTrue || marker.isFalse then pure marker
  else
    match toDnf (← get) marker with
    | none => failure
    | some dnf => resolveDnf knownConflicts dnf

end Rebuilding

/-! ## Substitution -/

/-- The encoded items whose markers are true. -/
def activeNames (s : Interner) (env : MarkerEnvironment) (names : List Text)
    (knownConflicts : KnownConflicts) : List Text :=
  (knownConflicts.filter fun entry => s.evaluate env (.extras names) entry.2).filterMap
    fun entry => encodeConflictItem entry.1

/-- Some item is encoded as the name and known to be active. -/
def KnownActive (s : Interner) (knownConflicts : KnownConflicts) (v : Valuation)
    (name : Text) : Prop :=
  ∃ entry ∈ knownConflicts, encodeConflictItem entry.1 = some name ∧ Holds s v entry.2

/-- The term holds once its extra is read as active or not. -/
def ResolvedHolds [RangeOps ValidVersion] [RangeOps Text] (active : Text → Prop)
    (v : Valuation) : MarkerExpression → Prop
  | .extra (.extra name) .equal => active name
  | .extra (.extra name) .notEqual => ¬ active name
  | term => term.Holds v

/-- The items of the map are different, each can be encoded, and their markers have no
malformed list names. -/
structure KnownConflicts.WellFormed (s : Interner) (knownConflicts : KnownConflicts) :
    Prop where
  nodup : (knownConflicts.map Prod.fst).Nodup
  encodes : ∀ entry ∈ knownConflicts, (encodeConflictItem entry.1).isSome = true
  named : ∀ entry ∈ knownConflicts, Named s entry.2

/-- An entry is determined by what its item is encoded as. -/
theorem KnownConflicts.WellFormed.unique {s : Interner} {knownConflicts : KnownConflicts}
    (hknown : knownConflicts.WellFormed s) {entry entry' : ConflictItem × NodeId} {name : Text}
    (hentry : entry ∈ knownConflicts) (hentry' : entry' ∈ knownConflicts)
    (hname : encodeConflictItem entry.1 = some name)
    (hname' : encodeConflictItem entry'.1 = some name) : entry = entry' :=
  List.inj_on_of_nodup_map hknown.nodup hentry hentry'
    (encodeConflictItem_injective hname hname')

theorem mem_activeNames {s : Interner} {env : MarkerEnvironment} {names : List Text}
    {knownConflicts : KnownConflicts} (hwf : s.WellFormed)
    (hknown : knownConflicts.WellFormed s) {name : Text} :
    name ∈ activeNames s env names knownConflicts ↔
      KnownActive s knownConflicts (env.valuation (.extras names)) name := by
  have hmarker : ∀ entry ∈ knownConflicts, s.evaluate env (.extras names) entry.2 = true ↔
      Holds s (env.valuation (.extras names)) entry.2 := fun entry hentry =>
    evaluate_iff_holds hwf (hknown.named entry hentry).valid (hknown.named entry hentry).wellNamed
  simp only [activeNames, List.mem_filterMap, List.mem_filter, KnownActive]
  constructor
  · rintro ⟨entry, ⟨hentry, htrue⟩, hname⟩
    exact ⟨entry, hentry, hname, (hmarker entry hentry).mp htrue⟩
  · rintro ⟨entry, hentry, hname, hholds⟩
    exact ⟨entry, ⟨hentry, (hmarker entry hentry).mpr hholds⟩, hname⟩

/-- The search finds the entry for the name or there is none. -/
theorem findConflict_spec (name : Text) {knownConflicts : KnownConflicts}
    (hencodes : ∀ entry ∈ knownConflicts, (encodeConflictItem entry.1).isSome = true) :
    (∃ entry ∈ knownConflicts, encodeConflictItem entry.1 = some name ∧
      findConflict name knownConflicts = some (some entry.2)) ∨
    (∀ entry ∈ knownConflicts, encodeConflictItem entry.1 ≠ some name) ∧
      findConflict name knownConflicts = some none := by
  induction knownConflicts with
  | nil => exact .inr ⟨by simp, rfl⟩
  | cons entry knownConflicts ih =>
      obtain ⟨conflictItem, conflictMarker⟩ := entry
      obtain ⟨hentry, hrest⟩ := List.forall_mem_cons.mp hencodes
      obtain ⟨encoded, hencoded⟩ := Option.isSome_iff_exists.mp hentry
      have hstep : findConflict name ((conflictItem, conflictMarker) :: knownConflicts) =
          if encoded = name then some (some conflictMarker)
          else findConflict name knownConflicts := by
        rw [findConflict]
        simp only [hencoded]
      rw [hstep]
      by_cases hsame : encoded = name
      · exact .inl ⟨_, List.mem_cons_self, hencoded.trans (congrArg some hsame), if_pos hsame⟩
      · rw [if_neg hsame]
        refine (ih hrest).imp ?_ fun ⟨hnone, hfind⟩ => ⟨?_, hfind⟩
        · rintro ⟨entry, hmem, hfound⟩
          exact ⟨entry, List.mem_cons_of_mem _ hmem, hfound⟩
        · refine List.forall_mem_cons.mpr ⟨fun heq => hsame ?_, hnone⟩
          exact Option.some.inj (hencoded.symm.trans heq)

/-! ## What the rebuilt marker says -/

/-- A marker without malformed names, and where it holds. -/
structure Says (s : Interner) (marker : NodeId) (holds : Valuation → Prop) : Prop where
  named : Named s marker
  holds_iff : ∀ v : Valuation, ¬ v.Excluded → (Holds s v marker ↔ holds v)

namespace Says

variable {s s' : Interner} {x y marker : NodeId} {left right holds : Valuation → Prop}
  {below : Variable → Variable → Prop}

theorem mono (hwf : s.WellFormed) (hwf' : s'.WellFormed) (hle : s ≤ s')
    (hmeans : Says s marker holds) : Says s' marker holds :=
  ⟨hmeans.named.mono hle, fun v hv =>
    (holds_mono hwf hwf' hle hmeans.named.valid).trans (hmeans.holds_iff v hv)⟩

theorem congr {holds' : Valuation → Prop} (hmeans : Says s marker holds)
    (hsame : ∀ v, holds v ↔ holds' v) : Says s marker holds' :=
  ⟨hmeans.named, fun v hv => (hmeans.holds_iff v hv).trans (hsame v)⟩

theorem true : Says s .TRUE fun _ => True :=
  ⟨named_true, fun _ _ => iff_of_true holds_true trivial⟩

theorem false : Says s .FALSE fun _ => False :=
  ⟨⟨valid_false, .false⟩, fun _ _ => iff_of_false not_holds_false id⟩

variable [RangeOps ValidVersion] [RangeOps Text]

theorem and (hsound : Sound below s) (hx : Says s x left) (hy : Says s y right) :
    Ensures (Sound below) (Pep508.and x y) s fun s' r =>
      Says s' r fun v => left v ∧ right v := by
  apply (and_ensures hsound hx.named.valid hy.named.valid).weaken
  intro r s' hsound' hle hconj
  have hx' := hx.mono hsound.wellFormed hsound'.wellFormed hle
  have hy' := hy.mono hsound.wellFormed hsound'.wellFormed hle
  refine ⟨hconj.named hx'.named hy'.named, fun v hv => ?_⟩
  rw [← hx'.holds_iff v hv, ← hy'.holds_iff v hv]
  exact ⟨hconj.sound v, fun hboth => hconj.complete v (.inr hv) hboth.1 hboth.2⟩

theorem or (hsound : Sound below s) (hx : Says s x left) (hy : Says s y right) :
    Ensures (Sound below) (Pep508.or x y) s fun s' r =>
      Says s' r fun v => left v ∨ right v := by
  apply (or_ensures hsound hx.named.valid hy.named.valid).weaken
  intro r s' hsound' hle hdisj
  have hx' := hx.mono hsound.wellFormed hsound'.wellFormed hle
  have hy' := hy.mono hsound.wellFormed hsound'.wellFormed hle
  refine ⟨hdisj.named hx'.named hy'.named, fun v hv => ?_⟩
  rw [← hx'.holds_iff v hv, ← hy'.holds_iff v hv]
  exact ⟨hdisj.sound v (.inr hv), hdisj.complete v⟩

end Says

section Resolving

variable [RangeOps ValidVersion] [RangeOps Text] {s s' : Interner}
  {knownConflicts : KnownConflicts} {below : Variable → Variable → Prop}

/-- What a term says once it is resolved. -/
abbrev Resolved (s : Interner) (knownConflicts : KnownConflicts) (v : Valuation)
    (term : MarkerExpression) : Prop :=
  ResolvedHolds (KnownActive s knownConflicts v) v term

/-- Only a name that is an extra is resolved. -/
theorem resolveTerm_cases (knownConflicts : KnownConflicts) (term : MarkerExpression) :
    (∃ name operator, term = .extra (.extra name) operator) ∨
    (∀ name operator, term ≠ .extra (.extra name) operator) ∧
      resolveTerm knownConflicts term = expression term ∧
        ∀ active v, ResolvedHolds active v term = term.Holds v := by
  cases term with
  | extra name operator =>
      cases name with
      | extra name => exact .inl ⟨name, operator, rfl⟩
      | arbitrary name =>
          exact .inr ⟨by simp, rfl, fun _ _ => by cases operator <;> rfl⟩
  | _ => exact .inr ⟨by simp, rfl, fun _ _ => rfl⟩

theorem resolveTerm_meaning (hwf : s.WellFormed) (hknown : knownConflicts.WellFormed s)
    (hsound : Sound below s') (hle : s ≤ s') {term : MarkerExpression}
    (hlowered : (expressionEdges term).isSome = true) (hnamed : term.isNamed = true) :
    Ensures (Sound below) (resolveTerm knownConflicts term) s' fun s'' r =>
      Says s'' r (Resolved s knownConflicts · term) := by
  rcases resolveTerm_cases knownConflicts term with ⟨name, operator, rfl⟩ | ⟨-, hterm, hholds⟩
  · have hwf' := hsound.wellFormed
    rcases findConflict_spec name hknown.encodes with
      ⟨entry, hentry, hname, hfind⟩ | ⟨hnone, hfind⟩
    · have hactive : ∀ v, Holds s' v entry.2 ↔ KnownActive s knownConflicts v name := by
        intro v
        rw [holds_mono hwf hwf' hle (hknown.named entry hentry).valid]
        constructor
        · exact fun hholds => ⟨entry, hentry, hname, hholds⟩
        · rintro ⟨entry', hentry', hname', hholds⟩
          rwa [hknown.unique hentry hentry' hname hname']
      have hentryNamed := (hknown.named entry hentry).mono hle
      cases operator with
      | equal =>
          simp only [resolveTerm, hfind]
          exact Ensures.pure hsound ⟨hentryNamed, fun v _ => hactive v⟩
      | notEqual =>
          simp only [resolveTerm, hfind]
          refine Ensures.pure hsound ⟨hentryNamed.not, fun v _ => ?_⟩
          rw [holds_not hwf' hentryNamed.valid, hactive v]
          rfl
    · have hactive : ∀ v, ¬ KnownActive s knownConflicts v name := by
        rintro v ⟨entry, hentry, hname, -⟩
        exact hnone entry hentry hname
      cases operator with
      | equal =>
          simp only [resolveTerm, hfind]
          exact Ensures.pure hsound (Says.false.congr fun v => (iff_false_intro (hactive v)).symm)
      | notEqual =>
          simp only [resolveTerm, hfind]
          exact Ensures.pure hsound (Says.true.congr fun v => (iff_true_intro (hactive v)).symm)
  · obtain ⟨result, hresult⟩ := Option.isSome_iff_exists.mp hlowered
    rw [hterm]
    apply (expression_exact hsound hresult).weaken
    rintro r s'' - - ⟨hvalid, hexact, hnames⟩
    refine ⟨⟨hvalid, hnames hnamed⟩, fun v _ => ?_⟩
    rw [hexact v, Resolved, hholds]

/-- The loop over the terms of one clause. -/
theorem resolveClause_meaning (hwf : s.WellFormed) (hknown : knownConflicts.WellFormed s)
    (hsound : Sound below s') (hle : s ≤ s') {clause : Clause}
    (hlowered : ∀ term ∈ clause, (expressionEdges term).isSome = true)
    (hnamed : ∀ term ∈ clause, term.isNamed = true) :
    Ensures (Sound below) (resolveClause knownConflicts clause) s' fun s'' r =>
      Says s'' r fun v => ∀ term ∈ clause, Resolved s knownConflicts v term := by
  let P (s'' : Interner) (done : Clause) (r : NodeId) : Prop :=
    Says s'' r fun v => ∀ term ∈ done, Resolved s knownConflicts v term
  have hstart : P s' [] .TRUE := Says.true.congr fun v => by simp
  apply Ensures.foldlM hsound hstart
  intro done term hterm s₁ r hle₁ hsound₁ hr
  apply (resolveTerm_meaning hwf hknown hsound₁ (hle.trans hle₁) (hlowered term hterm)
    (hnamed term hterm)).bind
  intro resolved s₂ hsound₂ hle₂ hresolved
  apply ((hr.mono hsound₁.wellFormed hsound₂.wellFormed hle₂).and hsound₂ hresolved).weaken
  intro r' s₃ _ _ hand
  refine hand.congr fun v => ?_
  rw [List.forall_mem_append, List.forall_mem_singleton]

/-- The loop over the clauses. -/
theorem resolveDnf_meaning (hsound : Sound below s) (hknown : knownConflicts.WellFormed s)
    {dnf : List Clause}
    (hlowered : AllTerms (fun term => (expressionEdges term).isSome = true) dnf)
    (hnamed : AllTerms (·.isNamed = true) dnf) :
    Ensures (Sound below) (resolveDnf knownConflicts dnf) s fun s' r =>
      Says s' r fun v => ClausesHold (Resolved s knownConflicts v) dnf := by
  let P (s' : Interner) (done : List Clause) (r : NodeId) : Prop :=
    Says s' r fun v => ClausesHold (Resolved s knownConflicts v) done
  have hstart : P s [] .FALSE := Says.false.congr fun v => by simp [ClausesHold]
  apply Ensures.foldlM hsound hstart
  intro done clause hclause s₁ r hle₁ hsound₁ hr
  apply (resolveClause_meaning hsound.wellFormed hknown hsound₁ hle₁ (hlowered clause hclause)
    (hnamed clause hclause)).bind
  intro resolved s₂ hsound₂ hle₂ hresolved
  apply ((hr.mono hsound₁.wellFormed hsound₂.wellFormed hle₂).or hsound₂ hresolved).weaken
  intro r' s₃ _ _ hor
  refine hor.congr fun v => ?_
  simp only [ClausesHold, List.mem_append, List.mem_singleton, or_and_right, exists_or,
    exists_eq_left]

theorem run_resolveConflicts {marker : NodeId}
    (hmarker : (marker.isTrue || marker.isFalse) = false) {dnf : List Clause}
    (hdnf : toDnf s marker = some dnf) :
    (resolveConflicts marker knownConflicts).run s =
      (resolveDnf knownConflicts dnf).run s := by
  rw [resolveConflicts, hmarker, if_neg Bool.false_ne_true, StateT.run_bind]
  change StateT.run (match toDnf s marker with
    | none => failure
    | some dnf => resolveDnf knownConflicts dnf) s = _
  rw [hdnf]

omit [RangeOps ValidVersion] [RangeOps Text] in
theorem agreeOff_valuation {env : MarkerEnvironment} {names names' : List Text} :
    (env.valuation (.extras names)).AgreeOff isExtraVariable
      (env.valuation (.extras names')) := by
  refine ⟨fun _ _ => rfl, fun _ _ => rfl, fun var hvar => ?_⟩
  cases var with
  | list pair => cases pair <;> rfl
  | extra name => cases hvar
  | _ => rfl

/-- Reading the extras as known is evaluating with these extras. -/
theorem resolvedHolds_iff {v v' : Valuation} {active : Text → Prop}
    (hagree : v.AgreeOff isExtraVariable v')
    (hactive : ∀ name, v'.bool (.extra name) = true ↔ active name) (term : MarkerExpression) :
    ResolvedHolds active v term ↔ term.Holds v' := by
  rcases resolveTerm_cases [] term with
    ⟨name, operator, rfl⟩ | ⟨hother, -, hholds⟩
  · have hne : NodeId.TRUE ≠ .FALSE := by decide
    cases operator with
    | equal =>
        have hchild : MarkerExpression.Holds v' (.extra (.extra name) .equal) ↔
            v'.bool (.extra name) = true := by
          change (NodeId.TRUE = if v'.bool (.extra name) then .TRUE else .FALSE) ↔ _
          cases v'.bool (.extra name) <;> simp [hne]
        exact (hchild.trans (hactive name)).symm
    | notEqual =>
        have hchild : MarkerExpression.Holds v' (.extra (.extra name) .notEqual) ↔
            ¬ v'.bool (.extra name) = true := by
          change (NodeId.TRUE = if v'.bool (.extra name) then .FALSE else .TRUE) ↔ _
          cases v'.bool (.extra name) <;> simp [hne]
        exact (hchild.trans (hactive name).not).symm
  · rw [hholds]
    exact MarkerExpression.holds_agreeOff hagree hother

/-- The clauses that the marker is rebuilt from mean what it does; a constant stays as it
is. -/
def DnfPreserves (s : Interner) (marker : NodeId) : Prop :=
  (marker.isTrue || marker.isFalse) = false →
    ∃ dnf, toDnf s marker = some dnf ∧ PreservesMeaning s marker dnf

/-- The resolved marker has the value of the marker with exactly those encoded extras
active whose items are known to be, in every environment that satisfies no incompatible
pair. -/
theorem resolveConflicts_evaluate (hreach : Reachable s) {marker : NodeId}
    (hmarker : Named s marker) (hdnf : DnfPreserves s marker)
    (hknown : knownConflicts.WellFormed s) :
    ∃ r s', (resolveConflicts marker knownConflicts).run s = some (r, s') ∧
      ∀ env names, env.isExcluded = false → s'.evaluate env (.extras names) r =
        s.evaluate env (.extras (activeNames s env names knownConflicts)) marker := by
  have hsound := hreach.sound
  have hwf := hsound.wellFormed
  cases hconstant : marker.isTrue || marker.isFalse with
  | true =>
      refine ⟨marker, s, by rw [resolveConflicts, hconstant]; rfl, fun env names _ => ?_⟩
      rw [Bool.or_eq_true, NodeId.isTrue_iff, NodeId.isFalse_iff] at hconstant
      rcases hconstant with rfl | rfl <;> rfl
  | false =>
      obtain ⟨dnf, hdnf, hmeaning⟩ := hdnf hconstant
      have hnamed := isNamed_toDnf hmarker.wellNamed hdnf
      obtain ⟨r, s', hrun, hsound', -, hmeans⟩ :=
        resolveDnf_meaning hsound hknown hmeaning.lowered hnamed
      refine ⟨r, s', (run_resolveConflicts hconstant hdnf).trans hrun, fun env names henv => ?_⟩
      let v := env.valuation (.extras names)
      let v' := env.valuation (.extras (activeNames s env names knownConflicts))
      have hactive : ∀ name, v'.bool (.extra name) = true ↔
          KnownActive s knownConflicts v name := by
        intro name
        rw [← mem_activeNames hwf hknown]
        exact List.contains_iff_mem
      rw [Bool.eq_iff_iff, hmeaning.evaluate_iff,
        evaluate_iff_holds hsound'.wellFormed hmeans.named.valid hmeans.named.wellNamed,
        hmeans.holds_iff v (not_excluded_valuation henv)]
      refine ClausesHold.congr fun clause hclause term hterm => ?_
      exact (resolvedHolds_iff agreeOff_valuation hactive term).trans
        (and_iff_right (hnamed clause hclause term hterm)).symm

/-! ## Concrete markers -/

/-- What is known of a marker for an expression. -/
theorem expression_meaning (hreach : Reachable s) {term : MarkerExpression}
    (hlowered : (expressionEdges term).isSome = true) (hnamed : term.isNamed = true)
    {r : NodeId} (hrun : (expression term).run s = some (r, s')) :
    Reachable s' ∧ s ≤ s' ∧ Named s' r ∧ ∀ v, Holds s' v r ↔ term.Holds v := by
  obtain ⟨result, hresult⟩ := Option.isSome_iff_exists.mp hlowered
  obtain ⟨-, hle, hvalid, hholds, hnames⟩ := (expression_exact hreach.sound hresult).of_run hrun
  exact ⟨.step (.expression term) hreach (by simp [Operation.arguments]) (run_map_some hrun),
    hle, ⟨hvalid, hnames hnamed⟩, hholds⟩

omit [RangeOps ValidVersion] [RangeOps Text] in
theorem KnownConflicts.WellFormed.single {item : ConflictItem} {marker : NodeId}
    (hitem : (encodeConflictItem item).isSome = true) (hmarker : Named s marker) :
    KnownConflicts.WellFormed s [(item, marker)] :=
  ⟨by simp, by simpa using hitem, by simpa using hmarker⟩

end Resolving

theorem isNormalized_package : isNormalized "foo".toList = some true := by decide

/-- The extra `e` of the package `foo`. -/
def fooE : ConflictItem := .ofExtra ⟨"foo".toList, isNormalized_package⟩ ⟨"e".toList, by decide⟩

def fooEName : Text := "extra-3-foo-e".toList

private def isLinux : MarkerExpression := .string .sysPlatform .equal "linux".toList

private def isNotFooE : MarkerExpression := .extra (.extra fooEName) .notEqual

/-- The extra is known to be active on Linux, and a marker asks for it to be inactive. -/
theorem resolveConflicts_evaluate_linux : ∃ s marker known,
    Named s marker ∧ KnownConflicts.WellFormed s [(fooE, known)] ∧
      ∃ r s', (resolveConflicts marker [(fooE, known)]).run s = some (r, s') ∧
        ∀ env names, env.isExcluded = false → s'.evaluate env (.extras names) r =
          s.evaluate env (.extras (activeNames s env names [(fooE, known)])) marker := by
  have hrun : ((expression isLinux).run Interner.default).bind (fun (known, s₁) =>
      ((expression isNotFooE).run s₁).map fun (marker, s₂) =>
        decide (toDnf s₂ marker = some [[isNotFooE]])) = some true := by
    decide +kernel
  obtain ⟨⟨known, s₁⟩, hlinux, hrun⟩ := Option.bind_eq_some_iff.mp hrun
  obtain ⟨⟨marker, s₂⟩, hterm, hdnf⟩ := Option.map_eq_some_iff.mp hrun
  obtain ⟨hreach₁, -, hknown, -⟩ := expression_meaning .default (by decide) rfl hlinux
  obtain ⟨hreach₂, hle, hmarker, hholds⟩ := expression_meaning hreach₁ rfl rfl hterm
  have hwellFormed : KnownConflicts.WellFormed s₂ [(fooE, known)] :=
    .single (by decide) (hknown.mono hle)
  have hmeaning : PreservesMeaning s₂ marker [[isNotFooE]] :=
    .of_literal hreach₂.sound.wellFormed hmarker rfl rfl hholds
  exact ⟨s₂, marker, known, hmarker, hwellFormed, resolveConflicts_evaluate hreach₂ hmarker
    (fun _ => ⟨_, of_decide_eq_true hdnf, hmeaning⟩) hwellFormed⟩

/-- The resolved marker does not have the value that substitution gives it. -/
def Diverges (env : MarkerEnvironment) (s : Interner) (marker : NodeId)
    (knownConflicts : KnownConflicts) : Prop :=
  DnfPreserves s marker ∧
    ∃ r s', (resolveConflicts marker knownConflicts).run s = some (r, s') ∧
      s'.evaluate env (.extras []) r ≠
        s.evaluate env (.extras (activeNames s env [] knownConflicts)) marker

theorem Diverges.of_dnf {env : MarkerEnvironment} {s s' : Interner} {marker r : NodeId}
    {knownConflicts : KnownConflicts} {dnf : List Clause}
    (hmarker : (marker.isTrue || marker.isFalse) = false) (hdnf : toDnf s marker = some dnf)
    (hmeaning : PreservesMeaning s marker dnf)
    (hrun : (resolveDnf knownConflicts dnf).run s = some (r, s'))
    (hne : s'.evaluate env (.extras []) r ≠
      s.evaluate env (.extras (activeNames s env [] knownConflicts)) marker) :
    Diverges env s marker knownConflicts :=
  ⟨fun _ => ⟨dnf, hdnf, hmeaning⟩, r, s', (run_resolveConflicts hmarker hdnf).trans hrun, hne⟩

private theorem toDnf_of_simplify {s : Interner} {tree : NodeId} {dnf : List Clause}
    (hpaths : (collectDnf s (tree.rank + 1) tree []).map simplify = some dnf) :
    toDnf s tree = some (sortDnf dnf) := by
  obtain ⟨clauses, hclauses, rfl⟩ := Option.map_eq_some_iff.mp hpaths
  rw [toDnf, hclauses]
  rfl

private theorem mergeSort_pair {α : Type} (le : α → α → Bool) (a b : α) :
    [a, b].mergeSort le = if le a b then [a, b] else [b, a] := by
  simp [List.mergeSort, List.merge]

/-- A Linux environment whose `os_name` is that of Windows. -/
def windowsLinux : MarkerEnvironment :=
  { linuxEnvironment with osName := "nt".toList }

private def isWindows : MarkerExpression := .string .osName .equal "nt".toList

private def isFooE : MarkerExpression := .extra (.extra fooEName) .equal

/-- An expression and an extra together are one clause of two terms. -/
theorem preservesMeaning_and {s s' : Interner} {x y marker : NodeId} {left right : MarkerExpression}
    (hreach : Reachable s) (hx : Named s x) (hy : Named s y) (hextras : OnlyExtras s y)
    (hxHolds : ∀ v, Holds s v x ↔ left.Holds v) (hyHolds : ∀ v, Holds s v y ↔ right.Holds v)
    (hlowered : ∀ term ∈ [left, right], (expressionEdges term).isSome = true ∧
      term.isNamed = true)
    (hand : (Pep508.and x y).run s = some (marker, s')) :
    Reachable s' ∧ s ≤ s' ∧ Named s' marker ∧ PreservesMeaning s' marker [[left, right]] := by
  obtain ⟨hreach', hle, hconj, hjoins⟩ := (and_reachable hreach hx.valid hy.valid).of_run hand
  have hwf := hreach.sound.wellFormed
  have hwf' := hreach'.sound.wellFormed
  have hx' := hx.mono hle
  have hy' := hy.mono hle
  have hmarker := hconj.named hx' hy'
  refine ⟨hreach', hle, hmarker,
    allTerms_singleton.mpr fun term hterm => (hlowered term hterm).1, fun env names => ?_⟩
  have hjoined := hjoins (.inr (hextras.mono hle)) (env.valuation (.extras names))
  rw [clausesHold_singleton, List.forall_mem_cons, List.forall_mem_singleton,
    evaluate_iff_accepts hwf' hmarker.valid, hjoined.1, ← evaluate_iff_accepts hwf' hx'.valid,
    ← evaluate_iff_accepts hwf' hy'.valid, hx.evaluate_mono hwf hwf' hle,
    hy.evaluate_mono hwf hwf' hle, evaluate_iff_holds hwf hx.valid hx.wellNamed,
    evaluate_iff_holds hwf hy.valid hy.wellNamed, hxHolds, hyHolds]
  exact and_congr (and_iff_right (hlowered left (by simp)).2).symm
    (and_iff_right (hlowered right (by simp)).2).symm

/-- In a run that keeps the order, the two markers are found to exclude each other. -/
private theorem run_and_excluded {s : Interner} {x known : NodeId} (hsound : Sound (· < ·) s)
    (hwindows : Means s (x, .osName, "nt")) (hlinux : Means s (known, .sysPlatform, "linux"))
    (huncached : s.cached x known = none) :
    ∃ s', (Pep508.and x known).run s = some (.FALSE, s') := by
  obtain ⟨node, hnode⟩ := hwindows.exists_node
  obtain ⟨node', hnode'⟩ := hlinux.exists_node
  have hvar : node.var.isConflictingVariable = true := by
    rw [(hwindows.vars.cases_node hnode).1]
    rfl
  have hvar' : node'.var.isConflictingVariable = true := by
    rw [(hlinux.vars.cases_node hnode').1]
    rfl
  have hunanswered : Unanswered s x known := fun r hcached => by
    rw [huncached] at hcached
    cases hcached
  obtain ⟨_, s', hexcluded, -, -, rfl⟩ := and_excludes hsound hnode hnode' hvar hvar'
    (hwindows.excludes hlinux) (hwindows.ne_of_key hlinux (by decide)) (.inr hunanswered)
  exact ⟨s', hexcluded⟩

/-- The clause asks for Windows, and what replaces the extra asks for Linux. -/
private theorem run_resolveDnf_excluded {s s' s'' : Interner} {x known : NodeId}
    (hwindows : (expression isWindows).run s = some (x, s'))
    (hand : (Pep508.and x known).run s' = some (.FALSE, s'')) :
    (resolveDnf [(fooE, known)] [[isWindows, isFooE]]).run s = some (.FALSE, s'') := by
  have hfind : findConflict fooEName [(fooE, known)] = some (some known) := by
    have hencoded : encodeConflictItem fooE = some fooEName := by decide
    simp [findConflict, hencoded]
  have hfooE : resolveTerm [(fooE, known)] isFooE = pure known := by
    simp only [resolveTerm, isFooE, hfind]
  have hwindows' : resolveTerm [(fooE, known)] isWindows = expression isWindows := rfl
  have htrue : (Pep508.and .TRUE x).run s' = some (x, s') := rfl
  have hclause : (resolveClause [(fooE, known)] [isWindows, isFooE]).run s =
      some (.FALSE, s'') := by
    simp only [resolveClause, List.foldlM_cons, List.foldlM_nil, hfooE, hwindows',
      StateT.run_bind, StateT.run_pure, hwindows, htrue, hand, Option.bind_eq_bind,
      Option.bind_some, Option.pure_def]
  simp only [resolveDnf, List.foldlM_cons, List.foldlM_nil, StateT.run_bind, hclause]
  rfl

/-- `os_name == 'nt' and sys_platform == 'linux'` is false everywhere. -/
private theorem diverges_excluded : ∃ s marker known, Reachable s ∧ Named s marker ∧
    KnownConflicts.WellFormed s known ∧ Diverges windowsLinux s marker known := by
  have hrun : ((expression isLinux).run Interner.default).bind (fun (known, s₁) =>
      ((expression isWindows).run s₁).bind fun (x, s₂) =>
        ((expression isFooE).run s₂).bind fun (y, s₃) =>
          ((Pep508.and x y).run s₃).bind fun (marker, s₄) =>
            ((expression isWindows).run s₄).map fun (x', s₅) =>
              decide ((marker.isTrue || marker.isFalse) = false) &&
              decide ((collectDnf s₄ (marker.rank + 1) marker []).map simplify =
                some [[isWindows, isFooE]]) &&
              s₄.evaluate windowsLinux
                (.extras (activeNames s₄ windowsLinux [] [(fooE, known)])) marker &&
              decide (x' = x) && decide (s₅.cached x known = none)) = some true := by
    decide +kernel
  obtain ⟨⟨known, s₁⟩, hlinux, hrun⟩ := Option.bind_eq_some_iff.mp hrun
  obtain ⟨⟨x, s₂⟩, hwindows, hrun⟩ := Option.bind_eq_some_iff.mp hrun
  obtain ⟨⟨y, s₃⟩, hfooE, hrun⟩ := Option.bind_eq_some_iff.mp hrun
  obtain ⟨⟨marker, s₄⟩, hand, hrun⟩ := Option.bind_eq_some_iff.mp hrun
  obtain ⟨⟨x', s₅⟩, hwindows', hcheck⟩ := Option.map_eq_some_iff.mp hrun
  obtain ⟨hcheck, huncached⟩ := Bool.and_eq_true_iff.mp hcheck
  obtain ⟨hcheck, hsame⟩ := Bool.and_eq_true_iff.mp hcheck
  obtain ⟨hcheck, hevaluate⟩ := Bool.and_eq_true_iff.mp hcheck
  obtain ⟨hconstant, hpaths⟩ := Bool.and_eq_true_iff.mp hcheck
  obtain rfl : x' = x := of_decide_eq_true hsame
  obtain ⟨hreach₁, -, hknown, -⟩ := expression_meaning .default (by decide) rfl hlinux
  obtain ⟨hreach₂, hle₂, hx, hxHolds⟩ := expression_meaning hreach₁ (by decide) rfl hwindows
  obtain ⟨hreach₃, hle₃, hy, hyHolds⟩ := expression_meaning hreach₂ rfl rfl hfooE
  obtain ⟨-, -, -, hextras, -⟩ := (expressionExtra_ensures hreach₂ fooEName).of_run hfooE
  have hx₃ := hx.mono hle₃
  have hxHolds₃ : ∀ v, Holds s₃ v x' ↔ isWindows.Holds v := fun v =>
    (holds_mono hreach₂.sound.wellFormed hreach₃.sound.wellFormed hle₃ hx.valid).trans (hxHolds v)
  obtain ⟨hreach₄, hle₄, hmarker, hmeaning⟩ :=
    preservesMeaning_and hreach₃ hx₃ hy hextras hxHolds₃ hyHolds (by decide) hand
  have hdnf : toDnf s₄ marker = some [[isWindows, isFooE]] := by
    have hsort : sortDnf [[isWindows, isFooE]] = [[isWindows, isFooE]] := by
      rw [sortDnf, List.map_singleton, List.mergeSort_singleton, mergeSort_pair]
      rfl
    rw [toDnf_of_simplify (of_decide_eq_true hpaths), hsort]
  have hopen₀ : Open (· < ·) Interner.default := ⟨sound_default strata_lt, rfl⟩
  obtain ⟨hopen₁, -, hlinuxMeans⟩ :=
    (equals_ensures (sysPlatform_plain "linux") hopen₀).of_run hlinux
  obtain ⟨hopen₂, -, hwindowsMeans⟩ :=
    (equals_ensures (osName_plain "nt") hopen₁).of_run hwindows
  obtain ⟨hsound₃, -, -⟩ := (expression_exact hopen₂.1 rfl).of_run hfooE
  obtain ⟨hsound₄, -, -⟩ := (and_ensures hsound₃ hx₃.valid hy.valid).of_run hand
  obtain ⟨hsound₅, hle₅, -⟩ :=
    (expression_exact hsound₄ (osName_plain "nt")).of_run hwindows'
  have hle := hle₃.trans (hle₄.trans hle₅)
  obtain ⟨s₆, hexcluded⟩ := run_and_excluded hsound₅
    (hwindowsMeans.mono hopen₂.1.wellFormed hsound₅.wellFormed hle)
    (hlinuxMeans.mono hopen₁.1.wellFormed hsound₅.wellFormed (hle₂.trans hle))
    (of_decide_eq_true huncached)
  refine ⟨s₄, marker, [(fooE, known)], hreach₄, hmarker,
    .single (by decide) (hknown.mono (hle₂.trans (hle₃.trans hle₄))),
    .of_dnf (of_decide_eq_true hconstant) hdnf hmeaning
      (run_resolveDnf_excluded hwindows' hexcluded) ?_⟩
  rw [hevaluate]
  exact Bool.false_ne_true

/-- An item without a name cannot be encoded. -/
private theorem fails_unencodable : ∃ s marker known, Reachable s ∧ Named s marker ∧
    DnfPreserves s marker ∧ (resolveConflicts marker [(known, .TRUE)]).run s = none := by
  let known : ConflictItem := ⟨⟨[], by decide⟩, .project⟩
  have hrun : ((expression isFooE).run Interner.default).map (fun (marker, s) =>
      decide ((marker.isTrue || marker.isFalse) = false) &&
      decide (toDnf s marker = some [[isFooE]]) &&
        ((resolveDnf [(known, .TRUE)] [[isFooE]]).run s).isNone) = some true := by
    decide +kernel
  obtain ⟨⟨marker, s⟩, hfooE, hcheck⟩ := Option.map_eq_some_iff.mp hrun
  obtain ⟨hcheck, hnone⟩ := Bool.and_eq_true_iff.mp hcheck
  obtain ⟨hconstant, hdnf⟩ := Bool.and_eq_true_iff.mp hcheck
  have hdnf := of_decide_eq_true hdnf
  obtain ⟨hreach, -, hmarker, hholds⟩ := expression_meaning .default rfl rfl hfooE
  refine ⟨s, marker, known, hreach, hmarker,
    fun _ => ⟨_, hdnf, .of_literal hreach.sound.wellFormed hmarker rfl rfl hholds⟩, ?_⟩
  rw [run_resolveConflicts (of_decide_eq_true hconstant) hdnf]
  exact Option.isNone_iff_eq_none.mp hnone

private def isFooBar : MarkerExpression := .list (.arbitrary .extras "foo bar".toList) .isIn

/-- A malformed name is false, and so is its negation. -/
private theorem diverges_malformedKnown : ∃ s marker known, Reachable s ∧ Named s marker ∧
    s.Valid known ∧ Diverges linuxEnvironment s marker [(fooE, known)] := by
  have hrun : ((expression isFooBar).run Interner.default).bind (fun (known, s₁) =>
      ((expression isNotFooE).run s₁).bind fun (marker, s₂) =>
        ((resolveDnf [(fooE, known)] [[isNotFooE]]).run s₂).map fun (r, s₃) =>
          decide ((marker.isTrue || marker.isFalse) = false) &&
          decide (toDnf s₂ marker = some [[isNotFooE]]) && decide (s₂.Valid known) &&
            (s₃.evaluate linuxEnvironment (.extras []) r != s₂.evaluate linuxEnvironment
              (.extras (activeNames s₂ linuxEnvironment [] [(fooE, known)])) marker)) =
        some true := by
    decide +kernel
  obtain ⟨⟨known, s₁⟩, hfooBar, hrun⟩ := Option.bind_eq_some_iff.mp hrun
  obtain ⟨⟨marker, s₂⟩, hterm, hrun⟩ := Option.bind_eq_some_iff.mp hrun
  obtain ⟨⟨r, s₃⟩, hresolve, hcheck⟩ := Option.map_eq_some_iff.mp hrun
  obtain ⟨hcheck, hne⟩ := Bool.and_eq_true_iff.mp hcheck
  obtain ⟨hcheck, hvalid⟩ := Bool.and_eq_true_iff.mp hcheck
  obtain ⟨hconstant, hdnf⟩ := Bool.and_eq_true_iff.mp hcheck
  have hreach₁ : Reachable s₁ :=
    .step (.expression isFooBar) .default (by simp [Operation.arguments]) (run_map_some hfooBar)
  obtain ⟨hreach₂, -, hmarker, hholds⟩ := expression_meaning hreach₁ rfl rfl hterm
  have hmeaning : PreservesMeaning s₂ marker [[isNotFooE]] :=
    .of_literal hreach₂.sound.wellFormed hmarker rfl rfl hholds
  exact ⟨s₂, marker, known, hreach₂, hmarker, of_decide_eq_true hvalid,
    .of_dnf (of_decide_eq_true hconstant) (of_decide_eq_true hdnf) hmeaning hresolve
      (bne_iff_ne.mp hne)⟩

private def notFooBar : MarkerExpression := .list (.arbitrary .extras "foo bar".toList) .notIn

private def fromPython (minor : ℕ) : MarkerExpression :=
  .version .pythonFullVersion (.greaterThanEqualVersion (.new [3, minor]))

/-- `'foo bar' in extras` from Python 3.8 on, or `'foo bar' not in extras` from 3.9 on. -/
private def eitherFooBar : List Operation :=
  [.expression isFooBar,
    .complexifyPythonVersions (.new 0 false) (.included (.new [3, 8])) .unbounded,
    .complexifyPythonVersions (.new 0 true) (.included (.new [3, 9])) .unbounded,
    .or (.new 2 true) (.new 4 true)]

private def fooBarClauses : List Clause :=
  [[fromPython 8, isFooBar], [fromPython 9, notFooBar]]

/-- The malformed name is gone where both clauses ask for the same Python versions. -/
private theorem diverges_malformedMarker : ∃ s marker, Reachable s ∧ s.Valid marker ∧
    Diverges linuxEnvironment s marker [] := by
  have hrun : ((performAll eitherFooBar Interner.default).bind fun s =>
      ((resolveDnf [] fooBarClauses).run s).map fun (r, s') =>
        decide (s.Valid (.new 5 true)) &&
        decide ((collectDnf s ((NodeId.new 5 true).rank + 1) (.new 5 true) []).map simplify =
          some [[isFooBar, fromPython 8], [notFooBar, fromPython 9]]) &&
        decide ((s.node (.new 5 true)).map (·.var.isArbitrary) = some true) &&
        (s'.evaluate linuxEnvironment (.extras []) r !=
          s.evaluate linuxEnvironment (.extras []) (.new 5 true))) = some true := by
    decide +kernel
  obtain ⟨s, hperform, hrun⟩ := Option.bind_eq_some_iff.mp hrun
  obtain ⟨⟨r, s'⟩, hresolve, hcheck⟩ := Option.map_eq_some_iff.mp hrun
  obtain ⟨hcheck, hne⟩ := Bool.and_eq_true_iff.mp hcheck
  obtain ⟨hcheck, harbitrary⟩ := Bool.and_eq_true_iff.mp hcheck
  obtain ⟨hvalid, hpaths⟩ := Bool.and_eq_true_iff.mp hcheck
  have hvalid := of_decide_eq_true hvalid
  have hreach := Reachable.default.performAll hperform
  have hdnf : toDnf s (.new 5 true) = some fooBarClauses := by
    have hsort : sortDnf [[isFooBar, fromPython 8], [notFooBar, fromPython 9]] =
        fooBarClauses := by
      simp only [sortDnf, List.map_cons, List.map_nil, mergeSort_pair]
      decide
    rw [toDnf_of_simplify (of_decide_eq_true hpaths), hsort]
  -- The marker is false, and so is a term in each of its clauses.
  have hmeaning : PreservesMeaning s (.new 5 true) fooBarClauses := by
    refine ⟨by unfold AllTerms; decide +kernel, fun env names => iff_of_false ?_ ?_⟩
    · obtain ⟨node, hnode, hvar⟩ := Option.map_eq_some_iff.mp (of_decide_eq_true harbitrary)
      rw [evaluate_iff_accepts hreach.sound.wellFormed hvalid]
      exact not_accepts_of_isArbitrary hnode hvar
    · rintro ⟨clause, hclause, htrue⟩
      have hunnamed : ∀ clause ∈ fooBarClauses, ∃ term ∈ clause, term.isNamed = false := by
        decide
      obtain ⟨term, hterm, hnot⟩ := hunnamed clause hclause
      rw [(htrue term hterm).1] at hnot
      cases hnot
  exact ⟨s, .new 5 true, hreach, hvalid,
    .of_dnf (by decide) hdnf hmeaning hresolve (bne_iff_ne.mp hne)⟩

/-- Substitution fails in an environment that satisfies an incompatible pair, and for
malformed list names in what replaces an extra or in the marker itself; an item that cannot
be encoded panics. -/
theorem resolveConflicts_diverges :
    (∃ s marker known, Reachable s ∧ Named s marker ∧ KnownConflicts.WellFormed s known ∧
      Diverges windowsLinux s marker known) ∧
    linuxEnvironment.isExcluded = false ∧
    (∃ s marker known, Reachable s ∧ Named s marker ∧ s.Valid known ∧
      Diverges linuxEnvironment s marker [(fooE, known)]) ∧
    (∃ s marker, Reachable s ∧ s.Valid marker ∧ Diverges linuxEnvironment s marker []) ∧
    ∃ s marker known, Reachable s ∧ Named s marker ∧ DnfPreserves s marker ∧
      (resolveConflicts marker [(known, .TRUE)]).run s = none :=
  ⟨diverges_excluded, by decide +kernel, diverges_malformedKnown, diverges_malformedMarker,
    fails_unencodable⟩

end Uv.Resolver
