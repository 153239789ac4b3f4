import Uv.Workspace.DependencyGroups

/-!
# Flattening dependency groups

A fresh recursive expansion keeps, for every requirement, the groups on the way to it.  The
depth-first search with stored groups gives the requirements of the expansion with the
markers of the groups on the way, and it fails iff a group has no expansion.
-/

set_option linter.unusedSectionVars false

namespace Uv.Workspace

open Uv.Core Uv.Pep440 Uv.Pep508 Uv.Pep508.Interner Uv.Resolver Relation

variable {Name Written Object Package ParseError : Type}

/-- A requirement of an expanded group, with the groups on the way to it: the first one has
the requirement and the last one is expanded. -/
structure Occurrence (Name Package : Type) where
  requirement : Requirement Package
  chain : List Name

def Occurrence.within (name : Name) (occurrence : Occurrence Name Package) :
    Occurrence Name Package :=
  { occurrence with chain := occurrence.chain ++ [name] }

variable [DecidableEq Name]

namespace Groups

variable (table : Groups Name Written Object Package ParseError)

/-! ## Fresh expansion -/

def expandSpecifier (expand : Name → Option (List (Occurrence Name Package))) :
    DependencyGroupSpecifier Name Written Object → Option (List (Occurrence Name Package))
  | .requirement written =>
      match table.parse written with
      | .ok requirement => some [⟨requirement, []⟩]
      | .error _ => none
  | .includeGroup group => expand group
  | .object _ => none

/-- The requirements of a group in order, those of an included group in its place. -/
def expand : ℕ → Name → Option (List (Occurrence Name Package))
  | 0, _ => none
  | fuel + 1, name => do
      let specifiers ← table.groups.lookup name
      let found ← specifiers.mapM (table.expandSpecifier (expand fuel))
      pure (found.flatten.map (·.within name))

def Expands (name : Name) (occurrences : List (Occurrence Name Package)) : Prop :=
  ∃ fuel, table.expand fuel name = some occurrences

def SpecifierExpands (specifier : DependencyGroupSpecifier Name Written Object)
    (occurrences : List (Occurrence Name Package)) : Prop :=
  ∃ fuel, table.expandSpecifier (table.expand fuel) specifier = some occurrences

/-! ## Groups without an expansion -/

def Includes (name group : Name) : Prop :=
  ∃ specifiers, table.groups.lookup name = some specifiers ∧ .includeGroup group ∈ specifiers

/-- The group is not defined, has an object or includes itself. -/
inductive Bad (name : Name) : Prop
  | undefined (h : table.groups.lookup name = none)
  | object {specifiers : List (DependencyGroupSpecifier Name Written Object)} {map : Object}
      (h : table.groups.lookup name = some specifiers) (hmap : .object map ∈ specifiers)
  | cycle (h : TransGen table.Includes name name)

/-- The group includes a bad one, possibly through others, or is one. -/
def ReachesBad (name : Name) : Prop :=
  ∃ group, ReflTransGen table.Includes name group ∧ table.Bad group

variable {table}

theorem ReachesBad.includes {name group : Name} (hincludes : table.Includes name group)
    (hbad : table.ReachesBad group) : table.ReachesBad name := by
  obtain ⟨other, hreaches, hbad⟩ := hbad
  exact ⟨other, .head hincludes hreaches, hbad⟩

theorem expand_succ {fuel : ℕ} {name : Name} {occurrences : List (Occurrence Name Package)} :
    table.expand (fuel + 1) name = some occurrences ↔
      ∃ specifiers found, table.groups.lookup name = some specifiers ∧
        List.Forall₂ (fun specifier occurrences =>
          table.expandSpecifier (table.expand fuel) specifier = some occurrences)
          specifiers found ∧ occurrences = found.flatten.map (·.within name) := by
  rw [expand, Option.bind_eq_bind, Option.bind_eq_some_iff]
  constructor
  · rintro ⟨specifiers, hlookup, hrest⟩
    obtain ⟨found, hfound, heq⟩ := Option.bind_eq_some_iff.mp hrest
    cases heq
    exact ⟨specifiers, found, hlookup, mapM_eq_some_iff.mp hfound, rfl⟩
  · rintro ⟨specifiers, found, hlookup, hfound, rfl⟩
    exact ⟨specifiers, hlookup,
      Option.bind_eq_some_iff.mpr ⟨found, mapM_eq_some_iff.mpr hfound, rfl⟩⟩

theorem expandSpecifier_mono {expand expand' : Name → Option (List (Occurrence Name Package))}
    (hexpand : ∀ name occurrences, expand name = some occurrences →
      expand' name = some occurrences)
    {specifier : DependencyGroupSpecifier Name Written Object}
    {occurrences : List (Occurrence Name Package)}
    (h : table.expandSpecifier expand specifier = some occurrences) :
    table.expandSpecifier expand' specifier = some occurrences := by
  cases specifier with
  | requirement written => exact h
  | includeGroup group => exact hexpand group occurrences h
  | object map => cases h

theorem expand_mono {fuel fuel' : ℕ} (hfuel : fuel ≤ fuel') {name : Name}
    {occurrences : List (Occurrence Name Package)}
    (h : table.expand fuel name = some occurrences) :
    table.expand fuel' name = some occurrences := by
  induction fuel generalizing fuel' name occurrences with
  | zero => cases h
  | succ fuel ih =>
      obtain ⟨fuel', rfl⟩ : ∃ n, fuel' = n + 1 := ⟨fuel' - 1, by omega⟩
      obtain ⟨specifiers, found, hlookup, hfound, rfl⟩ := expand_succ.mp h
      refine expand_succ.mpr ⟨specifiers, found, hlookup, hfound.imp ?_, rfl⟩
      intro specifier occurrences
      exact expandSpecifier_mono fun _ _ => ih (by omega)

/-- A group expands if its specifiers do. -/
theorem expands_of_specifiers {name : Name}
    {specifiers : List (DependencyGroupSpecifier Name Written Object)}
    {found : List (List (Occurrence Name Package))}
    (hlookup : table.groups.lookup name = some specifiers)
    (hfound : List.Forall₂ table.SpecifierExpands specifiers found) :
    table.Expands name (found.flatten.map (·.within name)) := by
  have hcommon : ∃ fuel, List.Forall₂ (fun specifier occurrences =>
      table.expandSpecifier (table.expand fuel) specifier = some occurrences)
      specifiers found := by
    clear hlookup
    induction hfound with
    | nil => exact ⟨0, .nil⟩
    | cons hfirst _ ih =>
        obtain ⟨fuel, hfirst⟩ := hfirst
        obtain ⟨fuel', hrest⟩ := ih
        refine ⟨max fuel fuel', .cons ?_ (hrest.imp ?_)⟩
        · exact expandSpecifier_mono (fun _ _ => expand_mono (le_max_left _ _)) hfirst
        · intro specifier occurrences
          exact expandSpecifier_mono fun _ _ => expand_mono (le_max_right _ _)
  obtain ⟨fuel, hcommon⟩ := hcommon
  exact ⟨fuel + 1, expand_succ.mpr ⟨specifiers, found, hlookup, hcommon, rfl⟩⟩

/-- The groups that an expanded group includes are expanded with less fuel. -/
theorem expand_includes {fuel : ℕ} {name group : Name}
    {occurrences : List (Occurrence Name Package)}
    (h : table.expand fuel name = some occurrences) (hincludes : table.Includes name group) :
    ∃ fuel' < fuel, ∃ occurrences', table.expand fuel' group = some occurrences' := by
  cases fuel with
  | zero => cases h
  | succ fuel =>
      obtain ⟨specifiers, found, hlookup, hfound, rfl⟩ := expand_succ.mp h
      obtain ⟨specifiers', hlookup', hmem⟩ := hincludes
      cases hlookup.symm.trans hlookup'
      obtain ⟨occurrences', _, hexpand⟩ := exists_of_forall₂ hfound hmem
      exact ⟨fuel, Nat.lt_succ_self fuel, occurrences', hexpand⟩

theorem expand_reaches {fuel : ℕ} {name group : Name} {occurrences : List (Occurrence Name Package)}
    (h : table.expand fuel name = some occurrences)
    (hreaches : ReflTransGen table.Includes name group) :
    ∃ fuel' ≤ fuel, ∃ occurrences', table.expand fuel' group = some occurrences' := by
  induction hreaches with
  | refl => exact ⟨fuel, le_rfl, occurrences, h⟩
  | tail _ hincludes ih =>
      obtain ⟨fuel', hfuel', occurrences', hexpand⟩ := ih
      obtain ⟨fuel'', hfuel'', hrest⟩ := expand_includes hexpand hincludes
      exact ⟨fuel'', by omega, hrest⟩

/-- A group that includes itself would be expanded with less and less fuel. -/
theorem expand_cycle {name : Name} (hcycle : TransGen table.Includes name name) (fuel : ℕ) :
    table.expand fuel name = none := by
  induction fuel using Nat.strong_induction_on with
  | _ fuel ih =>
      cases hexpand : table.expand fuel name with
      | none => rfl
      | some occurrences =>
          obtain ⟨group, hincludes, hreaches⟩ := TransGen.head'_iff.mp hcycle
          obtain ⟨fuel', hfuel', occurrences', hgroup⟩ := expand_includes hexpand hincludes
          obtain ⟨fuel'', hfuel'', _, hname⟩ := expand_reaches hgroup hreaches
          rw [ih fuel'' (by omega)] at hname
          cases hname

theorem not_reachesBad_of_expands {name : Name} {occurrences : List (Occurrence Name Package)}
    (h : table.Expands name occurrences) : ¬ table.ReachesBad name := by
  rintro ⟨group, hreaches, hbad⟩
  obtain ⟨fuel, hexpand⟩ := h
  obtain ⟨fuel', _, occurrences', hgroup⟩ := expand_reaches hexpand hreaches
  cases fuel' with
  | zero => cases hgroup
  | succ fuel' =>
      cases hbad with
      | undefined hlookup =>
          obtain ⟨specifiers, _, hlookup', _⟩ := expand_succ.mp hgroup
          cases hlookup.symm.trans hlookup'
      | object hlookup hmap =>
          obtain ⟨specifiers, found, hlookup', hfound, _⟩ := expand_succ.mp hgroup
          cases hlookup.symm.trans hlookup'
          obtain ⟨_, _, hobject⟩ := exists_of_forall₂ hfound hmap
          cases hobject
      | cycle hcycle =>
          rw [expand_cycle hcycle] at hgroup
          cases hgroup

/-! ## What a run keeps -/

section Run

variable [RangeOps ValidVersion] [RangeOps Text] {s₀ s : Interner}
  {state state' : GroupState Name Package}

/-- The Python version lies between the bounds of the setting of a group, if it has one. -/
def Supports (table : Groups Name Written Object Package ParseError) (env : MarkerEnvironment)
    (name : Name) : Prop :=
  ∀ specifiers range, table.settings.lookup name = some (some specifiers) →
    RequiresPythonRange.fromSpecifiers specifiers = some range →
      range.Between env.pythonFullVersion

/-- A requirement of a flattened group stands for an occurrence: its marker holds where the
one that was parsed holds and all groups on the way support the Python version. -/
structure Applies (table : Groups Name Written Object Package ParseError) (s₀ s : Interner)
    (occurrence : Occurrence Name Package) (requirement : Requirement Package) : Prop where
  package : requirement.package = occurrence.requirement.package
  valid : s.Valid requirement.marker
  evaluate : ∀ env extras, s.evaluate env extras requirement.marker = true ↔
    s₀.evaluate env extras occurrence.requirement.marker = true ∧
      ∀ name ∈ occurrence.chain, table.Supports env name

theorem Applies.mono {s' : Interner} {occurrence : Occurrence Name Package}
    {requirement : Requirement Package} (happlies : table.Applies s₀ s occurrence requirement)
    (hsound : Sound Variable.Below s) (hsound' : Sound Variable.Below s') (hle : s ≤ s') :
    table.Applies s₀ s' occurrence requirement where
  package := happlies.package
  valid := happlies.valid.mono hle
  evaluate env extras := by
    rw [evaluate_mono hsound.wellFormed hsound'.wellFormed hle happlies.valid]
    exact happlies.evaluate env extras

/-- The groups that are stored are expansions. -/
structure Valid (table : Groups Name Written Object Package ParseError) (s₀ : Interner)
    (state : GroupState Name Package) : Prop where
  sound : Sound Variable.Below state.interner
  le : s₀ ≤ state.interner
  resolved : ∀ name flat, state.resolved.lookup name = some flat →
    ∃ occurrences, table.Expands name occurrences ∧
      List.Forall₂ (table.Applies s₀ state.interner) occurrences flat.requirements

/-- Nothing that was there is lost. -/
structure Grows (state state' : GroupState Name Package) : Prop where
  le : state.interner ≤ state'.interner
  resolved : ∀ name, (state.resolved.lookup name).isSome → (state'.resolved.lookup name).isSome

omit [RangeOps ValidVersion] [RangeOps Text] in
theorem Grows.refl (state : GroupState Name Package) : Grows state state :=
  ⟨le_rfl, fun _ => id⟩

omit [RangeOps ValidVersion] [RangeOps Text] in
theorem Grows.trans {state'' : GroupState Name Package} (hgrows : Grows state state')
    (hgrows' : Grows state' state'') : Grows state state'' :=
  ⟨hgrows.le.trans hgrows'.le, fun name h => hgrows'.resolved name (hgrows.resolved name h)⟩

/-- What resolving a group promises. -/
structure Resolves (table : Groups Name Written Object Package ParseError) (s₀ : Interner)
    (state : GroupState Name Package) (name : Name)
    (result : Except (DependencyGroupError Name Written Object ParseError) Unit)
    (state' : GroupState Name Package) : Prop where
  valid : table.Valid s₀ state'
  grows : Grows state state'
  stored : result = .ok () → ∃ flat, state'.resolved.lookup name = some flat
  failed : ∀ error, result = .error error → table.ReachesBad name

/-- The requirements that were found in specifiers. -/
def Found (table : Groups Name Written Object Package ParseError) (s₀ s : Interner)
    (specifiers : List (DependencyGroupSpecifier Name Written Object))
    (requirements : List (Requirement Package)) : Prop :=
  ∃ found, List.Forall₂ table.SpecifierExpands specifiers found ∧
    List.Forall₂ (table.Applies s₀ s) found.flatten requirements

theorem Found.mono {s' : Interner}
    {specifiers : List (DependencyGroupSpecifier Name Written Object)}
    {requirements : List (Requirement Package)} (hfound : table.Found s₀ s specifiers requirements)
    (hsound : Sound Variable.Below s) (hsound' : Sound Variable.Below s') (hle : s ≤ s') :
    table.Found s₀ s' specifiers requirements := by
  obtain ⟨found, hspecifiers, hrequirements⟩ := hfound
  exact ⟨found, hspecifiers, hrequirements.imp fun _ _ happlies => happlies.mono hsound hsound' hle⟩

theorem Found.append {specifiers : List (DependencyGroupSpecifier Name Written Object)}
    {requirements more : List (Requirement Package)}
    {specifier : DependencyGroupSpecifier Name Written Object}
    {occurrences : List (Occurrence Name Package)}
    (hfound : table.Found s₀ s specifiers requirements)
    (hspecifier : table.SpecifierExpands specifier occurrences)
    (hmore : List.Forall₂ (table.Applies s₀ s) occurrences more) :
    table.Found s₀ s (specifiers ++ [specifier]) (requirements ++ more) := by
  obtain ⟨found, hspecifiers, hrequirements⟩ := hfound
  refine ⟨found ++ [occurrences], List.rel_append hspecifiers (.cons hspecifier .nil), ?_⟩
  rw [List.flatten_append, List.flatten_singleton]
  exact List.rel_append hrequirements hmore

/-! ## One group -/

/-- What the loop over the specifiers of a group promises. -/
structure Gathers (table : Groups Name Written Object Package ParseError) (s₀ : Interner)
    (name : Name) (specifiers : List (DependencyGroupSpecifier Name Written Object))
    (state : GroupState Name Package)
    (result : Except (DependencyGroupError Name Written Object ParseError)
      (List (Requirement Package) × List VersionSpecifier))
    (state' : GroupState Name Package) : Prop where
  valid : table.Valid s₀ state'
  grows : Grows state state'
  found : ∀ found, result = .ok found → table.Found s₀ state'.interner specifiers found.1
  failed : ∀ error, result = .error error → table.ReachesBad name

section Specifiers

variable {name : Name} {resolve : Name → GroupM Name Written Object Package ParseError Unit}
  {before specifiers : List (DependencyGroupSpecifier Name Written Object)}
  {found : List (Requirement Package) × List VersionSpecifier}
  (hlookup : table.groups.lookup name = some specifiers)
  (hresolve : ∀ group state, table.Includes name group → table.Valid s₀ state →
    (resolve group).Meets state (table.Resolves s₀ state group))
  (hsound₀ : Sound Variable.Below s₀) (hvalid : table.Valid s₀ state)
  (hfound : table.Found s₀ state.interner before found.1)

include hlookup hresolve hsound₀ hvalid hfound

theorem resolveSpecifier_meets {specifier : DependencyGroupSpecifier Name Written Object}
    (hspecifier : specifier ∈ specifiers)
    (hparse : ∀ written, specifier = .requirement written →
      ∃ requirement, table.parse written = .ok requirement ∧ s₀.Valid requirement.marker) :
    (table.resolveSpecifier name resolve found specifier).Meets state
      (table.Gathers s₀ name (before ++ [specifier]) state) := by
  cases specifier with
  | requirement written =>
      obtain ⟨requirement, hrequirement, hmarker⟩ := hparse written rfl
      rw [resolveSpecifier, hrequirement]
      apply RunM.meets_pure
      refine ⟨hvalid, .refl state, ?_, by simp⟩
      rintro _ ⟨⟩
      have hexpands : table.SpecifierExpands (.requirement written) [⟨requirement, []⟩] :=
        ⟨0, by rw [expandSpecifier, hrequirement]⟩
      apply hfound.append hexpands
      · refine .cons ⟨rfl, hmarker.mono hvalid.le, ?_⟩ .nil
        intro env extras
        rw [evaluate_mono hsound₀.wellFormed hvalid.sound.wellFormed hvalid.le hmarker]
        simp
  | includeGroup group =>
      have hincludes : table.Includes name group := ⟨specifiers, hlookup, hspecifier⟩
      rw [resolveSpecifier]
      apply (hresolve group state hincludes hvalid).bind
      · intro error state' hresolves
        exact ⟨hresolves.valid, hresolves.grows, by simp, fun _ _ =>
          (hresolves.failed error rfl).includes hincludes⟩
      · intro _ state' hresolves
        apply RunM.meets_get_bind
        obtain ⟨flat, hflat⟩ := hresolves.stored rfl
        rw [hflat]
        apply RunM.meets_pure
        refine ⟨hresolves.valid, hresolves.grows, ?_, by simp⟩
        rintro _ ⟨⟩
        obtain ⟨occurrences, ⟨fuel, hexpand⟩, happlies⟩ := hresolves.valid.resolved group flat hflat
        have hexpands : table.SpecifierExpands (.includeGroup group) occurrences :=
          ⟨fuel, hexpand⟩
        exact (hfound.mono hvalid.sound hresolves.valid.sound hresolves.grows.le).append
          hexpands happlies
  | object map =>
      rw [resolveSpecifier]
      apply RunM.meets_throw
      exact ⟨hvalid, .refl state, by simp, fun _ _ => ⟨name, .refl, .object hlookup hspecifier⟩⟩

theorem resolveSpecifiers_meets {rest : List (DependencyGroupSpecifier Name Written Object)}
    (hsplit : specifiers = before ++ rest)
    (hparse : ∀ written, .requirement written ∈ specifiers →
      ∃ requirement, table.parse written = .ok requirement ∧ s₀.Valid requirement.marker) :
    (rest.foldlM (table.resolveSpecifier name resolve) found).Meets state
      (table.Gathers s₀ name specifiers state) := by
  induction rest generalizing before found state with
  | nil =>
      rw [List.append_nil] at hsplit
      apply RunM.meets_pure
      refine ⟨hvalid, .refl state, ?_, by simp⟩
      rintro _ ⟨⟩
      rwa [hsplit]
  | cons specifier rest ih =>
      have hspecifier : specifier ∈ specifiers := by simp [hsplit]
      rw [List.foldlM_cons]
      apply (resolveSpecifier_meets hlookup hresolve hsound₀ hvalid hfound hspecifier
        fun written heq => hparse written (heq ▸ hspecifier)).bind
      · intro error state' hgathers
        exact ⟨hgathers.valid, hgathers.grows, by simp, hgathers.failed⟩
      · intro found' state' hgathers
        have hsplit' : specifiers = (before ++ [specifier]) ++ rest := by simp [hsplit]
        apply (ih hgathers.valid (hgathers.found found' rfl) hsplit').weaken
        intro result state'' hrest
        exact ⟨hrest.valid, hgathers.grows.trans hrest.grows, hrest.found, hrest.failed⟩

end Specifiers

theorem intern_meets {action : InternerM α} {post : Interner → α → Prop}
    (hensures : Ensures (Sound Variable.Below) action state.interner post) :
    (GroupM.intern action : GroupM Name Written Object Package ParseError α).Meets state
      fun result state' => ∃ value, result = .ok value ∧ state'.resolved = state.resolved ∧
        Sound Variable.Below state'.interner ∧ state.interner ≤ state'.interner ∧
          post state'.interner value := by
  obtain ⟨value, s', hrun, hsound, hle, hpost⟩ := hensures
  refine ⟨.ok value, ⟨state.resolved, s'⟩, ?_, value, rfl, rfl, hsound, hle, hpost⟩
  change Option.map _ (action.run state.interner) = _
  rw [hrun]
  rfl

/-- The marker of the setting of a group is added to a requirement. -/
theorem addMarker_meets {name : Name} {specifiers : List VersionSpecifier}
    {range : RequiresPythonRange} {occurrence : Occurrence Name Package}
    {requirement : Requirement Package}
    (hsettings : table.settings.lookup name = some (some specifiers))
    (hrange : RequiresPythonRange.fromSpecifiers specifiers = some range)
    (hsound : Sound Variable.Below state.interner)
    (happlies : table.Applies s₀ state.interner occurrence requirement) :
    (addMarker specifiers requirement : GroupM Name Written Object Package ParseError _).Meets
      state fun result state' => ∃ requirement', result = .ok requirement' ∧
        state'.resolved = state.resolved ∧ Sound Variable.Below state'.interner ∧
          state.interner ≤ state'.interner ∧
            table.Applies s₀ state'.interner (occurrence.within name) requirement' := by
  have htrimmed := RequiresPythonRange.trimmed_fromSpecifiers hrange
  rw [addMarker, hrange]
  simp only [GroupM.orPanic, pure_bind]
  apply (intern_meets (PythonRequirement.toMarkerTree_evaluate htrimmed hsound)).bind
  · rintro error state' ⟨_, herror, _⟩
    cases herror
  · rintro _ state₁ ⟨extra, ⟨⟩, hresolved₁, hsound₁, hle₁, hextra, hvars, hevaluate⟩
    have happlies₁ := happlies.mono hsound hsound₁ hle₁
    apply (intern_meets (and_ensures hsound₁ happlies₁.valid hextra.valid)).bind
    · rintro error state' ⟨_, herror, _⟩
      cases herror
    · rintro _ state₂ ⟨marker, ⟨⟩, hresolved₂, hsound₂, hle₂, hconj⟩
      apply RunM.meets_pure
      have happlies₂ := happlies₁.mono hsound₁ hsound₂ hle₂
      refine ⟨_, rfl, hresolved₂.trans hresolved₁, hsound₂, hle₁.trans hle₂, happlies.package,
        hconj.valid, ?_⟩
      intro env extras
      have hgroup : range.Between env.pythonFullVersion ↔ table.Supports env name := by
        constructor
        · intro hbetween specifiers' range' hsettings' hrange'
          cases hsettings.symm.trans hsettings'
          cases hrange.symm.trans hrange'
          exact hbetween
        · intro hsupports
          exact hsupports specifiers range hsettings hrange
      have hchain : (∀ group ∈ (occurrence.within name).chain, table.Supports env group) ↔
          (∀ group ∈ occurrence.chain, table.Supports env group) ∧ table.Supports env name := by
        simp [Occurrence.within, or_imp, forall_and]
      rw [hconj.evaluate_onlyPython hsound₂.wellFormed (.inr (hvars.mono hle₂)), Bool.and_eq_true, happlies₂.evaluate env extras,
        hextra.evaluate_mono hsound₁.wellFormed hsound₂.wellFormed hle₂,
        hevaluate env extras, hgroup, hchain, and_assoc]
      rfl

theorem addMarkers_meets {name : Name} {specifiers : List VersionSpecifier}
    {range : RequiresPythonRange} {occurrences : List (Occurrence Name Package)}
    {requirements : List (Requirement Package)}
    (hsettings : table.settings.lookup name = some (some specifiers))
    (hrange : RequiresPythonRange.fromSpecifiers specifiers = some range)
    (hsound : Sound Variable.Below state.interner)
    (happlies : List.Forall₂ (table.Applies s₀ state.interner) occurrences requirements) :
    (requirements.mapM (addMarker specifiers) :
      GroupM Name Written Object Package ParseError _).Meets state fun result state' =>
        ∃ requirements', result = .ok requirements' ∧ state'.resolved = state.resolved ∧
          Sound Variable.Below state'.interner ∧ state.interner ≤ state'.interner ∧
            List.Forall₂ (table.Applies s₀ state'.interner) (occurrences.map (·.within name))
              requirements' := by
  induction occurrences generalizing requirements state with
  | nil =>
      cases happlies
      exact RunM.meets_pure ⟨[], rfl, rfl, hsound, le_rfl, .nil⟩
  | cons occurrence occurrences ih =>
      obtain ⟨requirement, rest, hfirst, hrest, rfl⟩ := List.forall₂_cons_left_iff.mp happlies
      rw [List.mapM_cons]
      apply (addMarker_meets hsettings hrange hsound hfirst).bind
      · rintro error state' ⟨_, herror, _⟩
        cases herror
      · rintro _ state₁ ⟨requirement', ⟨⟩, hresolved₁, hsound₁, hle₁, happlies₁⟩
        apply (ih hsound₁ (hrest.imp fun _ _ h => h.mono hsound hsound₁ hle₁)).bind
        · rintro error state' ⟨_, herror, _⟩
          cases herror
        · rintro _ state₂ ⟨requirements', ⟨⟩, hresolved₂, hsound₂, hle₂, happlies₂⟩
          apply RunM.meets_pure
          exact ⟨_, rfl, hresolved₂.trans hresolved₁, hsound₂, hle₁.trans hle₂,
            .cons (happlies₁.mono hsound₁ hsound₂ hle₂) happlies₂⟩

/-- What the settings of a group make of what its specifiers gave. -/
theorem applySettings_meets {name : Name} {occurrences : List (Occurrence Name Package)}
    {found : List (Requirement Package) × List VersionSpecifier}
    (hsettings : ∀ specifiers, table.settings.lookup name = some (some specifiers) →
      ∃ range, RequiresPythonRange.fromSpecifiers specifiers = some range)
    (hsound : Sound Variable.Below state.interner)
    (happlies : List.Forall₂ (table.Applies s₀ state.interner) occurrences found.1) :
    (table.applySettings name found).Meets state fun result state' =>
      ∃ found', result = .ok found' ∧ state'.resolved = state.resolved ∧
        Sound Variable.Below state'.interner ∧ state.interner ≤ state'.interner ∧
          List.Forall₂ (table.Applies s₀ state'.interner) (occurrences.map (·.within name))
            found'.1 := by
  have hnone : (∀ specifiers, table.settings.lookup name ≠ some (some specifiers)) →
      List.Forall₂ (table.Applies s₀ state.interner) (occurrences.map (·.within name)) found.1 := by
    intro hlookup
    rw [List.forall₂_map_left_iff]
    apply happlies.imp
    intro occurrence requirement happlies
    refine ⟨happlies.package, happlies.valid, fun env extras => ?_⟩
    have hsupports : table.Supports env name :=
      fun specifiers _ hspecifiers _ => (hlookup specifiers hspecifiers).elim
    have hchain : (∀ group ∈ (occurrence.within name).chain, table.Supports env group) ↔
        ∀ group ∈ occurrence.chain, table.Supports env group := by
      simp [Occurrence.within, or_imp, forall_and, hsupports]
    rw [happlies.evaluate env extras, hchain]
    rfl
  cases hlookup : table.settings.lookup name with
  | none =>
      rw [applySettings, hlookup]
      exact RunM.meets_pure ⟨found, rfl, rfl, hsound, le_rfl, hnone (by simp [hlookup])⟩
  | some setting =>
      cases setting with
      | none =>
          rw [applySettings, hlookup]
          exact RunM.meets_pure ⟨found, rfl, rfl, hsound, le_rfl, hnone (by simp [hlookup])⟩
      | some specifiers =>
          obtain ⟨range, hrange⟩ := hsettings specifiers hlookup
          rw [applySettings, hlookup]
          apply (addMarkers_meets hlookup hrange hsound happlies).bind
          · rintro error state' ⟨_, herror, _⟩
            cases herror
          · rintro _ state' ⟨requirements, ⟨⟩, hresolved, hsound', hle, happlies'⟩
            exact RunM.meets_pure ⟨_, rfl, hresolved, hsound', hle, happlies'⟩

theorem insertGroup_meets {name : Name} {occurrences : List (Occurrence Name Package)}
    {found : List (Requirement Package) × List VersionSpecifier} (hvalid : table.Valid s₀ state)
    (hexpands : table.Expands name occurrences)
    (happlies : List.Forall₂ (table.Applies s₀ state.interner) occurrences found.1) :
    (insertGroup name found : GroupM Name Written Object Package ParseError Unit).Meets state
      (table.Resolves s₀ state name) := by
  have hlookup : ∀ other, ((name, flatGroup found) :: state.resolved).lookup other =
      if other = name then some (flatGroup found) else state.resolved.lookup other := by
    intro other
    by_cases heq : other = name
    · rw [if_pos heq, heq]
      exact List.lookup_cons_self
    · rw [if_neg heq, List.lookup_cons, beq_eq_false_iff_ne.mpr heq]
  rw [insertGroup]
  apply RunM.meets_get_bind
  apply RunM.meets_set
  constructor
  case valid =>
    refine ⟨hvalid.sound, hvalid.le, fun other flat hflat => ?_⟩
    rw [hlookup] at hflat
    split_ifs at hflat with heq
    · cases hflat
      exact ⟨occurrences, heq ▸ hexpands, happlies⟩
    · exact hvalid.resolved other flat hflat
  case grows =>
    refine ⟨le_rfl, fun other hother => ?_⟩
    rw [hlookup]
    split_ifs
    · rfl
    · exact hother
  case stored =>
    intro _
    exact ⟨flatGroup found, by rw [hlookup, if_pos rfl]⟩
  case failed =>
    intro error herror
    cases herror

/-! ## All groups -/

/-- The inputs that the flattening is made for: the requirements parse, their markers are
nodes of the interner, and the versions of the settings have releases. -/
structure WellFormed (table : Groups Name Written Object Package ParseError) (s₀ : Interner) :
    Prop where
  parse : ∀ name specifiers written, table.groups.lookup name = some specifiers →
    .requirement written ∈ specifiers →
      ∃ requirement, table.parse written = .ok requirement ∧ s₀.Valid requirement.marker
  releases : ∀ name specifiers, table.settings.lookup name = some (some specifiers) →
    ∀ specifier ∈ specifiers, specifier.version.val.release ≠ []
  settings : ∀ setting ∈ table.settings, (table.groups.lookup setting.1).isSome

/-- The groups on the way to a group: each includes the next one, possibly through others. -/
structure Path (table : Groups Name Written Object Package ParseError) (parents : List Name)
    (name : Name) : Prop where
  nodup : parents.Nodup
  defined : ∀ parent ∈ parents, parent ∈ table.groups.map (·.1)
  reaches : ∀ parent ∈ parents, TransGen table.Includes parent name
  start : parents = [] → (table.groups.lookup name).isSome

omit [RangeOps ValidVersion] [RangeOps Text] in
theorem mem_of_lookup {name : Name}
    {specifiers : List (DependencyGroupSpecifier Name Written Object)}
    (hlookup : table.groups.lookup name = some specifiers) : name ∈ table.groups.map (·.1) := by
  by_contra hmem
  have hnone : table.groups.lookup name = none := by
    rw [List.lookup_eq_none_iff]
    intro entry hentry
    rw [bne_iff_ne]
    rintro rfl
    exact hmem (List.mem_map_of_mem hentry)
  rw [hnone] at hlookup
  cases hlookup

omit [RangeOps ValidVersion] [RangeOps Text] in
theorem Path.append {parents : List Name} {name group : Name}
    {specifiers : List (DependencyGroupSpecifier Name Written Object)}
    (hpath : table.Path parents name) (hlookup : table.groups.lookup name = some specifiers)
    (hnew : name ∉ parents) (hincludes : table.Includes name group) :
    table.Path (parents ++ [name]) group where
  nodup := by
    rw [List.nodup_append]
    refine ⟨hpath.nodup, List.nodup_singleton name, ?_⟩
    intro parent hparent other hother
    rw [List.mem_singleton.mp hother]
    rintro rfl
    exact hnew hparent
  defined parent hparent := by
    rcases List.mem_append.mp hparent with hparent | hparent
    · exact hpath.defined parent hparent
    · rw [List.mem_singleton.mp hparent]
      exact mem_of_lookup hlookup
  reaches parent hparent := by
    rcases List.mem_append.mp hparent with hparent | hparent
    · exact .tail (hpath.reaches parent hparent) hincludes
    · rw [List.mem_singleton.mp hparent]
      exact .single hincludes
  start hempty := by simp at hempty

/-- With enough fuel for the groups that are not on the way, a group is resolved or reaches a
bad one. -/
theorem resolveGroup_meets {fuel : ℕ} {parents : List Name} {name : Name}
    (hwf : table.WellFormed s₀) (hsound₀ : Sound Variable.Below s₀)
    (hpath : table.Path parents name)
    (hfuel : table.groups.length + 1 ≤ fuel + parents.length) (hvalid : table.Valid s₀ state) :
    (table.resolveGroup fuel parents name).Meets state (table.Resolves s₀ state name) := by
  have hshort : parents.length ≤ table.groups.length := by
    have hlength := (hpath.nodup.subperm hpath.defined).length_le
    rwa [List.length_map] at hlength
  induction fuel generalizing parents name state with
  | zero => omega
  | succ fuel ih =>
      rw [resolveGroup]
      cases hlookup : table.groups.lookup name with
      | none =>
          cases hlast : parents.getLast? with
          | none =>
              have hsome := hpath.start (List.getLast?_eq_none_iff.mp hlast)
              rw [hlookup] at hsome
              cases hsome
          | some parent =>
              simp only [GroupM.orPanic, pure_bind]
              apply RunM.meets_throw
              exact ⟨hvalid, .refl state, by simp, fun _ _ => ⟨name, .refl, .undefined hlookup⟩⟩
      | some specifiers =>
          by_cases hmem : name ∈ parents
          · simp only [if_pos hmem]
            apply RunM.meets_throw
            exact ⟨hvalid, .refl state, by simp, fun _ _ =>
              ⟨name, .refl, .cycle (hpath.reaches name hmem)⟩⟩
          · simp only [if_neg hmem]
            apply RunM.meets_get_bind
            cases hstored : state.resolved.lookup name with
            | some flat =>
                simp only [Option.isSome_some, if_true]
                apply RunM.meets_pure
                exact ⟨hvalid, .refl state, fun _ => ⟨flat, hstored⟩, by simp⟩
            | none =>
                simp only [Option.isSome_none, Bool.false_eq_true, if_false]
                have hresolve : ∀ group state, table.Includes name group →
                    table.Valid s₀ state →
                      (table.resolveGroup fuel (parents ++ [name]) group).Meets state
                        (table.Resolves s₀ state group) := by
                  intro group state hincludes hvalid
                  have hpath' := hpath.append hlookup hmem hincludes
                  have hshort' := (hpath'.nodup.subperm hpath'.defined).length_le
                  rw [List.length_map] at hshort'
                  have hlength : (parents ++ [name]).length = parents.length + 1 := by simp
                  exact ih hpath' (by omega) hvalid hshort'
                have hgathers : (specifiers.foldlM (table.resolveSpecifier name
                    (table.resolveGroup fuel (parents ++ [name]))) ([], [])).Meets state
                      (table.Gathers s₀ name specifiers state) :=
                  resolveSpecifiers_meets hlookup hresolve hsound₀ hvalid ⟨[], .nil, .nil⟩
                    (List.nil_append specifiers).symm
                    fun written => hwf.parse name specifiers written hlookup
                apply hgathers.bind
                · intro error state₁ hfailed
                  exact ⟨hfailed.valid, hfailed.grows, by simp, fun _ _ =>
                    hfailed.failed error rfl⟩
                · intro found state₁ hgathered
                  obtain ⟨lists, hspecifiers, happlies⟩ := hgathered.found found rfl
                  have hexpands := expands_of_specifiers hlookup hspecifiers
                  have hranges : ∀ specifiers,
                      table.settings.lookup name = some (some specifiers) →
                        ∃ range, RequiresPythonRange.fromSpecifiers specifiers = some range :=
                    fun specifiers hsettings => RequiresPythonRange.exists_fromSpecifiers
                      (hwf.releases name specifiers hsettings)
                  apply (applySettings_meets hranges hgathered.valid.sound happlies).bind
                  · rintro error state' ⟨_, herror, _⟩
                    cases herror
                  · rintro _ state₂ ⟨found', ⟨⟩, hresolved, hsound, hle, happlies'⟩
                    have hvalid₂ : table.Valid s₀ state₂ := by
                      refine ⟨hsound, hgathered.valid.le.trans hle, fun other flat hflat => ?_⟩
                      rw [hresolved] at hflat
                      obtain ⟨occurrences, hother, hstored⟩ :=
                        hgathered.valid.resolved other flat hflat
                      exact ⟨occurrences, hother, hstored.imp fun _ _ h =>
                        h.mono hgathered.valid.sound hsound hle⟩
                    have hgrows₂ : Grows state₁ state₂ :=
                      ⟨hle, fun other => by rw [hresolved]; exact id⟩
                    apply (insertGroup_meets hvalid₂ hexpands happlies').weaken
                    intro result state₃ hresolves
                    exact ⟨hresolves.valid,
                      (hgathered.grows.trans hgrows₂).trans hresolves.grows,
                      hresolves.stored, hresolves.failed⟩

theorem settings_meets {settings : List (Name × Option (List VersionSpecifier))}
    (hsettings : ∀ setting ∈ settings, (table.groups.lookup setting.1).isSome) :
    (settings.forM fun setting =>
      if (table.groups.lookup setting.1).isSome then pure ()
      else throw (.settingsGroupNotFound setting.1) :
        GroupM Name Written Object Package ParseError PUnit).Meets state
      fun result state' => result = .ok ⟨⟩ ∧ state' = state := by
  induction settings with
  | nil => exact RunM.meets_pure ⟨rfl, rfl⟩
  | cons setting rest ih =>
      rw [List.forM, if_pos (hsettings setting List.mem_cons_self), pure_bind]
      exact ih fun other hother => hsettings other (List.mem_cons_of_mem _ hother)

theorem resolveGroups_meets {fuel : ℕ}
    {groups : List (Name × List (DependencyGroupSpecifier Name Written Object))}
    (hwf : table.WellFormed s₀) (hsound₀ : Sound Variable.Below s₀)
    (hgroups : ∀ group ∈ groups, (table.groups.lookup group.1).isSome)
    (hfuel : table.groups.length + 1 ≤ fuel) (hvalid : table.Valid s₀ state) :
    (groups.forM fun group => table.resolveGroup fuel [] group.1).Meets state
      fun result state' => table.Valid s₀ state' ∧ Grows state state' ∧
        (result = .ok ⟨⟩ → ∀ group ∈ groups, (state'.resolved.lookup group.1).isSome) ∧
          ∀ error, result = .error error → ∃ group ∈ groups, table.ReachesBad group.1 := by
  induction groups generalizing state with
  | nil => exact RunM.meets_pure ⟨hvalid, .refl state, by simp, by simp⟩
  | cons group rest ih =>
      have hpath : table.Path [] group.1 :=
        ⟨List.nodup_nil, by simp, by simp, fun _ => hgroups group List.mem_cons_self⟩
      rw [List.forM]
      apply (resolveGroup_meets hwf hsound₀ hpath (by simpa using hfuel) hvalid).bind
      · intro error state' hresolves
        exact ⟨hresolves.valid, hresolves.grows, by simp, fun _ _ =>
          ⟨group, List.mem_cons_self, hresolves.failed error rfl⟩⟩
      · intro _ state₁ hresolves
        apply (ih (fun other hother => hgroups other (List.mem_cons_of_mem _ hother))
          hresolves.valid).weaken
        rintro result state' ⟨hvalid', hgrows, hstored, hfailed⟩
        refine ⟨hvalid', hresolves.grows.trans hgrows, ?_, ?_⟩
        · intro hok other hother
          rcases List.mem_cons.mp hother with rfl | hother
          · obtain ⟨flat, hflat⟩ := hresolves.stored rfl
            apply hgrows.resolved
            rw [hflat]
            rfl
          · exact hstored hok other hother
        · intro error herror
          obtain ⟨other, hother, hbad⟩ := hfailed error herror
          exact ⟨other, List.mem_cons_of_mem _ hother, hbad⟩

/-- The flattening ends.  It fails iff some group reaches one that is not defined, has an
object or includes itself; otherwise every group has the requirements of its expansion. -/
theorem fromDependencyGroups_spec (hreach : Reachable s₀) (hwf : table.WellFormed s₀) :
    ∃ fuel result state', (table.fromDependencyGroups fuel).Returns ⟨[], s₀⟩ result state' ∧
      ((∃ error, result = .error error) ↔
        ∃ group ∈ table.groups, table.ReachesBad group.1) ∧
      ∀ flat, result = .ok flat → ∀ group ∈ table.groups, ∃ flatGroup occurrences,
        flat.lookup group.1 = some flatGroup ∧ table.Expands group.1 occurrences ∧
          List.Forall₂ (table.Applies s₀ state'.interner) occurrences
            flatGroup.requirements := by
  have hvalid : table.Valid s₀ ⟨[], s₀⟩ := ⟨hreach.sound, le_rfl, by simp⟩
  have hgroups : ∀ group ∈ table.groups, (table.groups.lookup group.1).isSome := by
    intro group hgroup
    rw [List.lookup_isSome_iff]
    exact ⟨group, hgroup, beq_self_eq_true _⟩
  refine ⟨table.groups.length + 1, ?_⟩
  change (table.fromDependencyGroups _).Meets _ _
  rw [fromDependencyGroups]
  apply (settings_meets hwf.settings).bind
  · rintro error state' ⟨herror, _⟩
    cases herror
  · rintro _ _ ⟨_, rfl⟩
    apply (resolveGroups_meets hwf hreach.sound hgroups le_rfl hvalid).bind
    · rintro error state' ⟨_, _, _, hfailed⟩
      refine ⟨iff_of_true ⟨error, rfl⟩ (hfailed error rfl), by simp⟩
    · rintro _ state' ⟨hvalid', _, hstored, _⟩
      apply RunM.meets_get_bind
      apply RunM.meets_pure
      have hexpands : ∀ group ∈ table.groups, ∃ flatGroup occurrences,
          state'.resolved.lookup group.1 = some flatGroup ∧ table.Expands group.1 occurrences ∧
            List.Forall₂ (table.Applies s₀ state'.interner) occurrences
              flatGroup.requirements := by
        intro group hgroup
        obtain ⟨flat, hflat⟩ := Option.isSome_iff_exists.mp (hstored rfl group hgroup)
        obtain ⟨occurrences, hoccurrences, happlies⟩ := hvalid'.resolved group.1 flat hflat
        exact ⟨flat, occurrences, hflat, hoccurrences, happlies⟩
      constructor
      · apply iff_of_false
        · rintro ⟨error, herror⟩
          cases herror
        · rintro ⟨group, hgroup, hbad⟩
          obtain ⟨_, occurrences, _, hoccurrences, _⟩ := hexpands group hgroup
          exact not_reachesBad_of_expands hoccurrences hbad
      · rintro _ ⟨⟩
        exact hexpands

end Run

section Example

theorem greaterThanEqual_release : Operator.greaterThanEqual = .tildeEqual →
    2 ≤ (ValidVersion.new [3, 8]).val.release.length := by decide

/-- A group with one requirement, for Python 3.8 and later. -/
def oneGroup (marker : NodeId) : Groups ℕ Unit Unit Unit Unit where
  groups := [(0, [.requirement ()])]
  settings := [(0, some [⟨.greaterThanEqual, .new [3, 8], greaterThanEqual_release⟩])]
  parse _ := .ok ⟨(), marker⟩

/-- It is flattened without an error. -/
theorem fromDependencyGroups_oneGroup : ∃ fuel result state',
    ((oneGroup .TRUE).fromDependencyGroups fuel).Returns ⟨[], Interner.default⟩ result state' ∧
      ((∃ error, result = .error error) ↔
        ∃ group ∈ (oneGroup .TRUE).groups, (oneGroup .TRUE).ReachesBad group.1) ∧
      ∀ flat, result = .ok flat → ∀ group ∈ (oneGroup .TRUE).groups, ∃ flatGroup occurrences,
        flat.lookup group.1 = some flatGroup ∧
          (oneGroup .TRUE).Expands group.1 occurrences ∧
            List.Forall₂ ((oneGroup .TRUE).Applies Interner.default state'.interner)
              occurrences flatGroup.requirements := by
  apply fromDependencyGroups_spec Reachable.default
  constructor
  case parse => exact fun _ _ _ _ _ => ⟨_, rfl, valid_true⟩
  case settings => simp [oneGroup]
  case releases =>
    intro name specifiers hlookup specifier hspecifier
    obtain ⟨_, _, hsettings, _⟩ := List.lookup_eq_some_iff.mp hlookup
    have hmem : (name, some specifiers) ∈ (oneGroup .TRUE).settings := by simp [hsettings]
    rw [oneGroup, List.mem_singleton] at hmem
    cases hmem
    rw [List.mem_singleton.mp hspecifier]
    decide +kernel

end Example

end Groups

end Uv.Workspace
