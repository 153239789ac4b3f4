import Uv.Pep508.OnlyExtras
import Uv.PypiTypes.Conflicts
import Uv.Resolver.RawExtra

/-!
# Conflict markers

What is declared about conflicts is one marker over the encoded items: no two items of a
set are active together.  A universal marker that imbibes it means what it meant before,
whenever the declarations are kept.
-/

namespace Uv.Resolver

open Uv.Core Uv.Pep440 Uv.Pep508 Uv.Pep508.Interner Uv.PypiTypes

/-! ## The marker of declared conflicts -/

/-- The pairs of a list, each in the order of the list. -/
def tupleCombinations {α : Type} : List α → List (α × α)
  | [] => []
  | first :: rest => rest.map (first, ·) ++ tupleCombinations rest

namespace ConflictMarker

variable [RangeOps ValidVersion] [RangeOps Text]

/-- `extra == name`, for a name that could be encoded. -/
def ofEncoded : Option Text → InternerM NodeId
  | none => failure
  | some name => expression (.extra (.extra name) .equal)

def project (package : PackageName) : InternerM NodeId := ofEncoded (encodeProject package)

def extra (package : PackageName) (extra : ExtraName) : InternerM NodeId :=
  ofEncoded (encodePackageExtra package extra)

def group (package : PackageName) (group : GroupName) : InternerM NodeId :=
  ofEncoded (encodePackageGroup package group)

def fromConflictItem (item : ConflictItem) : InternerM NodeId :=
  match item.kind with
  | .extra name => extra item.package name
  | .group name => group item.package name
  | .project => project item.package

/-- Not both items are active. -/
def pairMarker (item1 item2 : ConflictItem) : InternerM NodeId := do
  let first ← fromConflictItem item1
  let second ← fromConflictItem item2
  Pep508.or first.not second.not

/-- `ConflictMarker::from_conflicts`. -/
def fromConflicts (conflicts : Conflicts) : InternerM NodeId :=
  if conflicts.isEmpty then pure .TRUE
  else conflicts.foldlM (fun marker set =>
    (tupleCombinations set.iter).foldlM (fun marker (item1, item2) => do
      let pair ← pairMarker item1 item2
      Pep508.and marker pair) marker) .TRUE

end ConflictMarker

/-- `UniversalMarker::evaluate`, with the names of the active items encoded. -/
def UniversalMarker.evaluate (this : UniversalMarker) (interner : Interner)
    (env : MarkerEnvironment) (names : List Text) : Bool :=
  interner.evaluate env (.extras names) this.marker

/-! ## Active items -/

/-- The encoded item is one of the names. -/
def Active (names : List Text) (item : ConflictItem) : Prop :=
  ∃ name ∈ names, encodeConflictItem item = some name

/-- No conflict set has two active items. -/
def KeepsConflicts (conflicts : Conflicts) (names : List Text) : Prop :=
  ∀ set ∈ conflicts, ∀ item ∈ set, ∀ other ∈ set,
    Active names item → Active names other → item = other

theorem forall_mem_tupleCombinations {α : Type} {items : List α} {R : α → α → Prop} :
    (∀ pair ∈ tupleCombinations items, R pair.1 pair.2) ↔ items.Pairwise R := by
  induction items with
  | nil => simp [tupleCombinations]
  | cons first rest ih =>
      rw [tupleCombinations, List.forall_mem_append, ih, List.pairwise_cons, List.forall_mem_map]

theorem mem_of_mem_tupleCombinations {α : Type} {items : List α} {pair : α × α}
    (hpair : pair ∈ tupleCombinations items) : pair.1 ∈ items ∧ pair.2 ∈ items := by
  induction items with
  | nil => cases hpair
  | cons first rest ih =>
      rcases List.mem_append.mp hpair with hfirst | hrest
      · obtain ⟨second, hsecond, rfl⟩ := List.mem_map.mp hfirst
        exact ⟨List.mem_cons_self, List.mem_cons_of_mem _ hsecond⟩
      · exact (ih hrest).imp (List.mem_cons_of_mem _) (List.mem_cons_of_mem _)

/-- All pairs of all sets have an item that is not active. -/
theorem keepsConflicts_iff {conflicts : Conflicts} {names : List Text} :
    KeepsConflicts conflicts names ↔ ∀ set ∈ conflicts,
      ∀ pair ∈ tupleCombinations set.iter, ¬ (Active names pair.1 ∧ Active names pair.2) := by
  refine forall₂_congr fun set _ => ?_
  let apart (item other : ConflictItem) : Prop := ¬ (Active names item ∧ Active names other)
  have hsymm : Std.Symm apart := ⟨fun _ _ hnot hboth => hnot hboth.symm⟩
  have hnodup : set.iter.Nodup := by
    rw [← Multiset.coe_nodup, ConflictSet.coe_iter]
    exact set.nodup
  have hpairs : (∀ pair ∈ tupleCombinations set.iter, apart pair.1 pair.2) ↔
      set.iter.Pairwise apart := forall_mem_tupleCombinations
  refine Iff.trans ?_ hpairs.symm
  constructor
  · intro hkeeps
    refine hnodup.pairwise_of_forall_ne fun item hitem other hother hne hboth => hne ?_
    exact hkeeps item (ConflictSet.mem_iter.mp hitem) other (ConflictSet.mem_iter.mp hother)
      hboth.1 hboth.2
  · intro hpairwise item hitem other hother hactive hactive'
    by_contra hne
    exact hpairwise.forall (ConflictSet.mem_iter.mpr hitem) (ConflictSet.mem_iter.mpr hother) hne
      ⟨hactive, hactive'⟩

/-! ## What the markers mean -/

/-- A marker over extras, and when it is true. -/
structure Imposes (s : Interner) (marker : NodeId) (holds : Valuation → Prop) : Prop where
  valid : s.Valid marker
  extras : OnlyExtras s marker
  accepts : ∀ v, Accepts s v marker ↔ holds v

/-- The valuation makes the encoded item active. -/
def ActiveAt (v : Valuation) (item : ConflictItem) : Prop :=
  ∃ name, encodeConflictItem item = some name ∧ v.bool (.extra name) = true

theorem activeAt_valuation {env : MarkerEnvironment} {names : List Text} {item : ConflictItem} :
    ActiveAt (env.valuation (.extras names)) item ↔ Active names item := by
  have hbool : ∀ name, (env.valuation (.extras names)).bool (.extra name) =
      names.contains name := fun _ => rfl
  simp only [ActiveAt, Active, hbool, List.contains_iff_mem, and_comm]

namespace Imposes

variable {s s' : Interner} {marker other : NodeId} {holds holds' : Valuation → Prop}

theorem mono (hwf : WellFormed s) (hwf' : WellFormed s') (hle : s ≤ s')
    (himposes : Imposes s marker holds) : Imposes s' marker holds :=
  ⟨himposes.valid.mono hle, himposes.extras.mono hle, fun v =>
    (accepts_mono hwf hwf' hle himposes.valid).trans (himposes.accepts v)⟩

theorem congr (himposes : Imposes s marker holds) (hsame : ∀ v, holds v ↔ holds' v) :
    Imposes s marker holds' :=
  ⟨himposes.valid, himposes.extras, fun v => (himposes.accepts v).trans (hsame v)⟩

theorem not (hwf : WellFormed s) (himposes : Imposes s marker holds) :
    Imposes s marker.not fun v => ¬ holds v :=
  ⟨valid_not.mpr himposes.valid, AllVars.not himposes.extras, fun v =>
    (himposes.extras.accepts_not hwf himposes.valid).trans (himposes.accepts v).not⟩

variable [RangeOps ValidVersion] [RangeOps Text]

theorem and (hreach : Reachable s) (hleft : Imposes s marker holds)
    (hright : Imposes s other holds') :
    Ensures Reachable (Pep508.and marker other) s fun s' r =>
      Imposes s' r fun v => holds v ∧ holds' v := by
  apply (and_reachable hreach hleft.valid hright.valid).weaken
  rintro r s' hreach' hle ⟨hconj, hjoins⟩
  have hleft' := hleft.mono hreach.sound.wellFormed hreach'.sound.wellFormed hle
  have hright' := hright.mono hreach.sound.wellFormed hreach'.sound.wellFormed hle
  refine ⟨hconj.valid, hconj.vars _ hleft'.extras hright'.extras, fun v => ?_⟩
  rw [(hjoins (.inl hleft'.extras) v).1, hleft'.accepts, hright'.accepts]

theorem or (hreach : Reachable s) (hleft : Imposes s marker holds)
    (hright : Imposes s other holds') :
    Ensures Reachable (Pep508.or marker other) s fun s' r =>
      Imposes s' r fun v => holds v ∨ holds' v := by
  apply (or_reachable hreach hleft.valid hright.valid).weaken
  rintro r s' hreach' hle ⟨hconj, hjoins⟩
  have hleft' := hleft.mono hreach.sound.wellFormed hreach'.sound.wellFormed hle
  have hright' := hright.mono hreach.sound.wellFormed hreach'.sound.wellFormed hle
  have hextras := AllVars.not hleft'.extras
  refine ⟨valid_not.mp hconj.valid, ?_, fun v => ?_⟩
  · exact NodeId.not_not r ▸ AllVars.not (hconj.vars _ hextras (AllVars.not hright'.extras))
  · have haccepts := (hjoins (.inl hextras) v).2
    rw [NodeId.not_not, NodeId.not_not, NodeId.not_not] at haccepts
    rw [haccepts, hleft'.accepts, hright'.accepts]

end Imposes

namespace ConflictMarker

variable [RangeOps ValidVersion] [RangeOps Text] {s : Interner}

theorem fromConflictItem_eq (item : ConflictItem) :
    fromConflictItem item = ofEncoded (encodeConflictItem item) := by
  unfold fromConflictItem encodeConflictItem
  cases item.kind <;> rfl

theorem fromConflictItem_imposes (hreach : Reachable s) {item : ConflictItem}
    (hencodes : (encodeConflictItem item).isSome = true) :
    Ensures Reachable (fromConflictItem item) s fun s' r => Imposes s' r (ActiveAt · item) := by
  obtain ⟨name, hname⟩ := Option.isSome_iff_exists.mp hencodes
  rw [fromConflictItem_eq, hname]
  apply (expressionExtra_ensures hreach name).weaken
  rintro r s' - - ⟨hvalid, hextras, haccepts⟩
  refine ⟨hvalid, hextras, fun v => (haccepts v).trans ?_⟩
  simp [ActiveAt, hname]

theorem pairMarker_imposes (hreach : Reachable s) {item1 item2 : ConflictItem}
    (hitem1 : (encodeConflictItem item1).isSome = true)
    (hitem2 : (encodeConflictItem item2).isSome = true) :
    Ensures Reachable (pairMarker item1 item2) s fun s' r =>
      Imposes s' r fun v => ¬ (ActiveAt v item1 ∧ ActiveAt v item2) := by
  apply (fromConflictItem_imposes hreach hitem1).bind
  intro first s₁ hreach₁ _ hfirst
  apply (fromConflictItem_imposes hreach₁ hitem2).bind
  intro second s₂ hreach₂ hle₂ hsecond
  have hwf₁ := hreach₁.sound.wellFormed
  have hwf₂ := hreach₂.sound.wellFormed
  apply (((hfirst.mono hwf₁ hwf₂ hle₂).not hwf₂).or hreach₂ (hsecond.not hwf₂)).weaken
  intro r s₃ _ _ hor
  exact hor.congr fun v => not_and_or.symm

/-- The loop over the pairs of one set. -/
theorem pairsLoop_imposes (hreach : Reachable s) {marker : NodeId} {holds : Valuation → Prop}
    (hmarker : Imposes s marker holds) {pairs : List (ConflictItem × ConflictItem)}
    (hencodes : ∀ pair ∈ pairs, (encodeConflictItem pair.1).isSome = true ∧
      (encodeConflictItem pair.2).isSome = true) :
    Ensures Reachable (pairs.foldlM (fun marker (item1, item2) => do
      let pair ← pairMarker item1 item2
      Pep508.and marker pair) marker) s fun s' r => Imposes s' r fun v =>
        holds v ∧ ∀ pair ∈ pairs, ¬ (ActiveAt v pair.1 ∧ ActiveAt v pair.2) := by
  let P (s' : Interner) (done : List (ConflictItem × ConflictItem)) (r : NodeId) : Prop :=
    Imposes s' r fun v => holds v ∧ ∀ pair ∈ done, ¬ (ActiveAt v pair.1 ∧ ActiveAt v pair.2)
  have hstart : P s [] marker := hmarker.congr fun v => by simp
  apply Ensures.foldlM hreach hstart
  rintro done ⟨item1, item2⟩ hpair s₁ r - hreach₁ hr
  obtain ⟨hitem1, hitem2⟩ := hencodes _ hpair
  apply (pairMarker_imposes hreach₁ hitem1 hitem2).bind
  intro pair s₂ hreach₂ hle₂ hpair
  have hr₂ := hr.mono hreach₁.sound.wellFormed hreach₂.sound.wellFormed hle₂
  apply (hr₂.and hreach₂ hpair).weaken
  intro r' s₃ _ _ hand
  refine hand.congr fun v => ?_
  rw [and_assoc, List.forall_mem_append, List.forall_mem_singleton]

/-- The loop over the sets. -/
theorem fromConflicts_imposes (hreach : Reachable s) {conflicts : Conflicts}
    (hencodes : ∀ set ∈ conflicts, ∀ item ∈ set, (encodeConflictItem item).isSome = true) :
    Ensures Reachable (fromConflicts conflicts) s fun s' r => Imposes s' r fun v =>
      ∀ set ∈ conflicts, ∀ pair ∈ tupleCombinations set.iter,
        ¬ (ActiveAt v pair.1 ∧ ActiveAt v pair.2) := by
  have htrue : ∀ s : Interner, Imposes s .TRUE fun _ => True := fun s =>
    ⟨valid_true, .true, fun v => by simp⟩
  unfold fromConflicts
  split
  · rename_i hempty
    rw [List.isEmpty_iff.mp hempty]
    exact Ensures.pure hreach ((htrue s).congr fun v => by simp)
  let P (s' : Interner) (done : Conflicts) (r : NodeId) : Prop :=
    Imposes s' r fun v => ∀ set ∈ done, ∀ pair ∈ tupleCombinations set.iter,
      ¬ (ActiveAt v pair.1 ∧ ActiveAt v pair.2)
  have hstart : P s [] .TRUE := (htrue s).congr fun v => by simp
  apply Ensures.foldlM hreach hstart
  intro done set hset s₁ r _ hreach₁ hr
  have hpairs : ∀ pair ∈ tupleCombinations set.iter, (encodeConflictItem pair.1).isSome = true ∧
      (encodeConflictItem pair.2).isSome = true := by
    intro pair hpair
    obtain ⟨hfirst, hsecond⟩ := mem_of_mem_tupleCombinations hpair
    exact ⟨hencodes set hset _ (ConflictSet.mem_iter.mp hfirst),
      hencodes set hset _ (ConflictSet.mem_iter.mp hsecond)⟩
  apply (pairsLoop_imposes hreach₁ hr hpairs).weaken
  intro r' s₂ _ _ hloop
  refine hloop.congr fun v => ?_
  rw [List.forall_mem_append, List.forall_mem_singleton]

/-! ## Imbibing the marker -/

/-- Where the marker is true, the implication means what the other marker means. -/
theorem imbibe_evaluate (hreach : Reachable s) {conflicts : NodeId} {holds : Valuation → Prop}
    (hconflicts : Imposes s conflicts holds) {this : UniversalMarker}
    (hvalid : s.Valid this.marker) :
    ∃ fuel result s', (this.imbibe fuel conflicts).run s = some (result, s') ∧
      ∀ env names, holds (env.valuation (.extras names)) →
        result.evaluate s' env names = this.evaluate s env names := by
  obtain ⟨r, s₁, hor, hreach₁, hle₁, hconj, hjoins⟩ :=
    or_reachable hreach (valid_not.mpr hconflicts.valid) hvalid
  have hwf := hreach.sound.wellFormed
  have hwf₁ := hreach₁.sound.wellFormed
  have hr : s₁.Valid r := valid_not.mp hconj.valid
  obtain ⟨fuel, pep508, s₂, hpep508, hsound₂, hle₂, -⟩ :=
    withoutExtras_eventually hreach₁.sound hr
  refine ⟨fuel, ⟨r, pep508⟩, s₂, ?_, fun env names hholds => ?_⟩
  · rw [UniversalMarker.imbibe, StateT.run_bind, hor]
    change (UniversalMarker.fromCombined fuel r).run s₁ = _
    rw [UniversalMarker.fromCombined, StateT.run_bind, hpep508]
    rfl
  · have hconflicts₁ := hconflicts.mono hwf hwf₁ hle₁
    have hextras : OnlyExtras s₁ conflicts.not.not :=
      (NodeId.not_not conflicts).symm ▸ hconflicts₁.extras
    have haccepts := (hjoins (.inl hextras) (env.valuation (.extras names))).2
    rw [NodeId.not_not, NodeId.not_not, NodeId.not_not] at haccepts
    have hnot := mt ((hconflicts₁.not hwf₁).accepts (env.valuation (.extras names))).mp
      (not_not.mpr hholds)
    change s₂.evaluate env (.extras names) r = s.evaluate env (.extras names) this.marker
    rw [evaluate_mono hwf₁ hsound₂.wellFormed hle₂ hr, Bool.eq_iff_iff,
      evaluate_iff_accepts hwf₁ hr, haccepts, or_iff_right hnot,
      accepts_mono hwf hwf₁ hle₁ hvalid, evaluate_iff_accepts hwf hvalid]

/-- The marker of declared conflicts is true exactly if no set has two active items, and
then a marker that imbibes it means what it meant before. -/
theorem fromConflicts_evaluate (hreach : Reachable s) {conflicts : Conflicts}
    (hencodes : ∀ set ∈ conflicts, ∀ item ∈ set, (encodeConflictItem item).isSome = true) :
    ∃ marker s', (fromConflicts conflicts).run s = some (marker, s') ∧ Reachable s' ∧
      (∀ env names, s'.evaluate env (.extras names) marker = true ↔
        KeepsConflicts conflicts names) ∧
      ∀ (s₁ : Interner) (this : UniversalMarker), Reachable s₁ → s' ≤ s₁ →
        s₁.Valid this.marker →
          ∃ fuel result s₂, (this.imbibe fuel marker).run s₁ = some (result, s₂) ∧
            ∀ env names, KeepsConflicts conflicts names →
              result.evaluate s₂ env names = this.evaluate s₁ env names := by
  obtain ⟨marker, s', hrun, hreach', -, himposes⟩ := fromConflicts_imposes hreach hencodes
  have hwf' := hreach'.sound.wellFormed
  have hkeeps : ∀ (env : MarkerEnvironment) names, (∀ set ∈ conflicts,
      ∀ pair ∈ tupleCombinations set.iter, ¬ (ActiveAt (env.valuation (.extras names)) pair.1 ∧
        ActiveAt (env.valuation (.extras names)) pair.2)) ↔ KeepsConflicts conflicts names := by
    intro env names
    simp only [activeAt_valuation]
    exact keepsConflicts_iff.symm
  refine ⟨marker, s', hrun, hreach', fun env names => ?_, fun s₁ this hreach₁ hle hvalid => ?_⟩
  · rw [evaluate_iff_accepts hwf' himposes.valid, himposes.accepts]
    exact hkeeps env names
  · obtain ⟨fuel, result, s₂, himbibe, hevaluate⟩ := imbibe_evaluate hreach₁
      (himposes.mono hwf' hreach₁.sound.wellFormed hle) hvalid
    exact ⟨fuel, result, s₂, himbibe, fun env names hset =>
      hevaluate env names ((hkeeps env names).mpr hset)⟩

end ConflictMarker

namespace ConflictMarker

/-- The extras `foo` and `bar` of a package conflict. -/
theorem fromConflicts_evaluate_fooBar :
    let item (name : String) (h : isNormalized name.toList = some true) : ConflictItem :=
      .ofExtra ⟨"pkg".toList, by decide⟩ ⟨name.toList, h⟩
    let conflicts : Conflicts := [{item "foo" (by decide), item "bar" (by decide)}]
    ∃ marker s', (fromConflicts conflicts).run Interner.default = some (marker, s') ∧
      (∀ env names, s'.evaluate env (.extras names) marker = true ↔
        KeepsConflicts conflicts names) ∧
      ∃ fuel result s₂, (UniversalMarker.imbibe fuel ⟨marker.not, .TRUE⟩ marker).run s' =
        some (result, s₂) ∧ ∀ env names, KeepsConflicts conflicts names →
          result.evaluate s₂ env names =
            UniversalMarker.evaluate ⟨marker.not, .TRUE⟩ s' env names := by
  intro item conflicts
  have hencodes : ∀ set ∈ conflicts, ∀ item ∈ set,
      (encodeConflictItem item).isSome = true := by
    decide
  obtain ⟨marker, s', hrun, hreach', hevaluate, himbibe⟩ :=
    fromConflicts_evaluate .default hencodes
  refine ⟨marker, s', hrun, hevaluate, himbibe s' ⟨marker.not, .TRUE⟩ hreach' le_rfl ?_⟩
  obtain ⟨-, -, himposes⟩ := (fromConflicts_imposes .default hencodes).of_run hrun
  exact valid_not.mpr himposes.valid

end ConflictMarker

end Uv.Resolver
