import Uv.Core.Lasso
import Uv.Workspace.Flattening

/-!
# Reported cycles

Flattening fails along a walk: each group leads to the one that its first entry without an
expansion includes.  When the walk meets a group again, all of its groups are reported, also
those before the cycle.
-/

set_option linter.unusedSectionVars false

namespace Uv.Workspace

open Uv.Core Uv.Pep440 Uv.Pep508 Uv.Pep508.Interner Uv.Resolver Relation

variable {Name Written Object Package ParseError α : Type} [DecidableEq Name]

/-- The first element without a property is unique. -/
theorem first_unique {P : α → Prop} {before rest before' rest' : List α} {x x' : α}
    (heq : before ++ x :: rest = before' ++ x' :: rest') (hbefore : ∀ y ∈ before, P y)
    (hx : ¬ P x) (hbefore' : ∀ y ∈ before', P y) (hx' : ¬ P x') : x = x' := by
  induction before generalizing before' with
  | nil =>
      cases before' with
      | nil => exact (List.cons.inj heq).1
      | cons y before' =>
          rw [(List.cons.inj heq).1] at hx
          exact absurd (hbefore' y List.mem_cons_self) hx
  | cons y before ih =>
      cases before' with
      | nil =>
          rw [← (List.cons.inj heq).1] at hx'
          exact absurd (hbefore y List.mem_cons_self) hx'
      | cons z before' =>
          exact ih (List.cons.inj heq).2 (fun w hw => hbefore w (List.mem_cons_of_mem _ hw))
            fun w hw => hbefore' w (List.mem_cons_of_mem _ hw)

namespace Groups

variable (table : Groups Name Written Object Package ParseError)

/-! ## The walk -/

def CanExpand (name : Name) : Prop :=
  ∃ occurrences, table.Expands name occurrences

def Settled (specifier : DependencyGroupSpecifier Name Written Object) : Prop :=
  ∃ occurrences, table.SpecifierExpands specifier occurrences

/-- The first entry of `name` without an expansion includes `group`. -/
def Follows (name group : Name) : Prop :=
  ∃ before rest, table.groups.lookup name = some (before ++ .includeGroup group :: rest) ∧
    (∀ specifier ∈ before, table.Settled specifier) ∧ ¬ table.CanExpand group

/-- The first group without an expansion, in the order of the keys. -/
def FirstStuck (first : Name) : Prop :=
  ∃ before rest, table.groups.map (·.1) = before ++ first :: rest ∧
    (∀ name ∈ before, table.CanExpand name) ∧ ¬ table.CanExpand first

/-- Each group has an entry for the next one, and the last one has an entry for the first. -/
def IsCycle (cycle : List Name) : Prop :=
  List.IsChain table.Includes (cycle ++ cycle.head?.toList)

/-- Where flattening fails, the cycle is not entered from outside, unless the group that
leads to the entry includes the first group of the walk as well. -/
def EntersAtStart : Prop :=
  (∀ setting ∈ table.settings, (table.groups.lookup setting.1).isSome) →
    ∀ first last, table.FirstStuck first → Enters table.Follows first last →
      table.Includes last first

variable {table}

theorem Follows.includes {name group : Name} (hfollows : table.Follows name group) :
    table.Includes name group := by
  obtain ⟨before, rest, hlookup, _⟩ := hfollows
  exact ⟨_, hlookup, by simp⟩

theorem follows_rightUnique : Relator.RightUnique table.Follows := by
  rintro name group group' ⟨before, rest, hlookup, hbefore, hgroup⟩
    ⟨before', rest', hlookup', hbefore', hgroup'⟩
  have heq := Option.some.inj (hlookup.symm.trans hlookup')
  have hstuck : ¬ table.Settled (.includeGroup group) := hgroup
  have hstuck' : ¬ table.Settled (.includeGroup group') := hgroup'
  cases first_unique heq hbefore hstuck hbefore' hstuck'
  rfl

theorem FirstStuck.unique {first first' : Name} (hfirst : table.FirstStuck first)
    (hfirst' : table.FirstStuck first') : first = first' := by
  obtain ⟨before, rest, heq, hbefore, hstuck⟩ := hfirst
  obtain ⟨before', rest', heq', hbefore', hstuck'⟩ := hfirst'
  exact first_unique (heq.symm.trans heq') hbefore hstuck hbefore' hstuck'

theorem canExpand_of_settled {name : Name}
    {specifiers : List (DependencyGroupSpecifier Name Written Object)}
    (hlookup : table.groups.lookup name = some specifiers)
    (hsettled : ∀ specifier ∈ specifiers, table.Settled specifier) : table.CanExpand name := by
  have hfound : ∃ found, List.Forall₂ table.SpecifierExpands specifiers found := by
    clear hlookup
    induction specifiers with
    | nil => exact ⟨[], .nil⟩
    | cons specifier rest ih =>
        obtain ⟨occurrences, hfirst⟩ := hsettled specifier List.mem_cons_self
        obtain ⟨found, hrest⟩ := ih fun other hother =>
          hsettled other (List.mem_cons_of_mem _ hother)
        exact ⟨occurrences :: found, .cons hfirst hrest⟩
  obtain ⟨found, hfound⟩ := hfound
  exact ⟨_, expands_of_specifiers hlookup hfound⟩

theorem settled_of_canExpand {name : Name}
    {specifiers : List (DependencyGroupSpecifier Name Written Object)}
    (hlookup : table.groups.lookup name = some specifiers) (hexpand : table.CanExpand name)
    {specifier : DependencyGroupSpecifier Name Written Object}
    (hspecifier : specifier ∈ specifiers) : table.Settled specifier := by
  obtain ⟨occurrences, fuel, hfuel⟩ := hexpand
  cases fuel with
  | zero => cases hfuel
  | succ fuel =>
      obtain ⟨specifiers', found, hlookup', hfound, _⟩ := expand_succ.mp hfuel
      cases hlookup.symm.trans hlookup'
      obtain ⟨occurrences, _, hexpands⟩ := exists_of_forall₂ hfound hspecifier
      exact ⟨occurrences, fuel, hexpands⟩

/-! ## What a failing run tells -/

/-- Flattening a group fails along the walk. -/
inductive Fails (table : Groups Name Written Object Package ParseError) :
    List Name → Name → DependencyGroupError Name Written Object ParseError → Prop
  | stuck {parents : List Name} {name : Name}
      {error : DependencyGroupError Name Written Object ParseError}
      (hend : ∀ group, ¬ table.Follows name group)
      (herror : ∀ cycle, error ≠ .dependencyGroupCycle cycle) : Fails table parents name error
  | cycle {parents : List Name} {name : Name} (hmem : name ∈ parents) :
      Fails table parents name (.dependencyGroupCycle parents)
  | included {parents : List Name} {name group : Name}
      {error : DependencyGroupError Name Written Object ParseError} (hnew : name ∉ parents)
      (hfollows : table.Follows name group)
      (hfails : Fails table (parents ++ [name]) group error) : Fails table parents name error

/-- A walk that goes on forever ends with a cycle. -/
theorem Fails.exists_cycle {parents : List Name} {name : Name}
    {error : DependencyGroupError Name Written Object ParseError}
    (hfails : table.Fails parents name error)
    (hwalk : ∀ group, ReflTransGen table.Follows name group → ∃ next, table.Follows group next) :
    ∃ cycle, error = .dependencyGroupCycle cycle := by
  induction hfails with
  | stuck hend _ =>
      obtain ⟨next, hnext⟩ := hwalk _ .refl
      exact absurd hnext (hend next)
  | cycle _ => exact ⟨_, rfl⟩
  | included _ hfollows _ ih => exact ih fun group hgroup => hwalk group (.head hfollows hgroup)

/-- The groups that are reported are those of the walk, up to the first that is met again. -/
theorem Fails.walk {parents : List Name} {name : Name} {cycle : List Name}
    (hfails : table.Fails parents name (.dependencyGroupCycle cycle))
    (hnodup : parents.Nodup) :
    ∃ visited again, cycle = parents ++ visited ∧
      List.IsChain table.Follows (visited ++ [again]) ∧
      (visited ++ [again]).head? = some name ∧ again ∈ cycle ∧ cycle.Nodup := by
  generalize herror : DependencyGroupError.dependencyGroupCycle cycle = error at hfails
  induction hfails with
  | stuck _ hother => exact absurd herror.symm (hother cycle)
  | @cycle parents name hmem =>
      cases herror
      exact ⟨[], name, by simp, .singleton name, rfl, hmem, hnodup⟩
  | @included parents name group error hnew hfollows _ ih =>
      have hnodup' : (parents ++ [name]).Nodup := by
        rw [List.nodup_append]
        refine ⟨hnodup, List.nodup_singleton name, ?_⟩
        intro parent hparent other hother
        rw [List.mem_singleton.mp hother]
        rintro rfl
        exact hnew hparent
      obtain ⟨visited, again, heq, hchain, hhead, hmem, hcycle⟩ := ih hnodup' herror
      refine ⟨name :: visited, again, ?_, ?_, rfl, hmem, hcycle⟩
      · rw [heq, List.append_assoc, List.singleton_append]
      · rw [List.cons_append, List.isChain_cons]
        refine ⟨?_, hchain⟩
        intro next hnext
        rw [hhead] at hnext
        cases hnext
        exact hfollows

/-- The walk from a first group is a lasso. -/
theorem Fails.lasso {first : Name} {cycle : List Name}
    (hfails : table.Fails [] first (.dependencyGroupCycle cycle)) :
    ∃ before again rest, cycle = before ++ again :: rest ∧
      Lasso table.Follows before rest again ∧ cycle.head? = some first := by
  obtain ⟨visited, again, heq, hchain, hhead, hmem, hnodup⟩ := hfails.walk List.nodup_nil
  rw [List.nil_append] at heq
  subst heq
  obtain ⟨before, rest, rfl⟩ := List.append_of_mem hmem
  refine ⟨before, again, rest, rfl, ⟨hchain, hnodup⟩, ?_⟩
  rw [List.head?_append_of_ne_nil _ (by simp)] at hhead
  exact hhead

/-- The groups reported are a cycle iff it is entered at the first of them, or its last
group includes the first one as well. -/
theorem Fails.isCycle_iff {first : Name} {cycle : List Name}
    (hfails : table.Fails [] first (.dependencyGroupCycle cycle)) :
    table.IsCycle cycle ↔
      ∀ last, Enters table.Follows first last → table.Includes last first := by
  obtain ⟨before, again, rest, rfl, hlasso, hhead⟩ := hfails.lasso
  have hchain : List.IsChain table.Includes (before ++ again :: rest) :=
    hlasso.chain.left_of_append.imp fun _ _ => Follows.includes
  obtain ⟨last, hlast⟩ : ∃ last, (again :: rest).getLast? = some last :=
    ⟨_, List.getLast?_eq_getLast_of_ne_nil (List.cons_ne_nil again rest)⟩
  have hlast' : (before ++ again :: rest).getLast? = some last := by
    rw [List.getLast?_append_of_ne_nil _ (List.cons_ne_nil again rest), hlast]
  have hcycle : table.IsCycle (before ++ again :: rest) ↔ table.Includes last first := by
    rw [IsCycle, hhead, Option.toList_some, List.isChain_append]
    simp [hchain, hlast']
  rw [hcycle]
  constructor
  · intro hincludes other henters
    have hother := ((hlasso.enters_iff follows_rightUnique hhead other).mp henters).2
    cases hlast.symm.trans hother
    exact hincludes
  · intro hcondition
    by_cases hstart : first = again
    · rw [hstart]
      exact (step_of_getLast hlasso.cycle_chain hlast).includes
    · exact hcondition last
        ((hlasso.enters_iff follows_rightUnique hhead last).mpr ⟨hstart, hlast⟩)

/-! ## Runs -/

section Run

variable [RangeOps ValidVersion] [RangeOps Text] {state state' : GroupState Name Package}

/-- Only groups with an expansion are stored. -/
def Stored (table : Groups Name Written Object Package ParseError)
    (state : GroupState Name Package) : Prop :=
  ∀ name, (state.resolved.lookup name).isSome → table.CanExpand name

theorem Stored.congr (hstored : table.Stored state) (hsame : state'.resolved = state.resolved) :
    table.Stored state' := by
  intro name hname
  rw [hsame] at hname
  exact hstored name hname

/-- What a result says about a group. -/
structure Explains (table : Groups Name Written Object Package ParseError)
    (parents : List Name) (name : Name)
    (result : Except (DependencyGroupError Name Written Object ParseError) Unit)
    (state' : GroupState Name Package) : Prop where
  stored : table.Stored state'
  ok : result = .ok () → table.CanExpand name
  error : ∀ error, result = .error error →
    table.Fails parents name error ∧ ¬ table.CanExpand name

/-- An entry fails: it includes a group that fails, or no cycle is reported. -/
def EntryFails (table : Groups Name Written Object Package ParseError) (parents : List Name)
    (specifier : DependencyGroupSpecifier Name Written Object)
    (error : DependencyGroupError Name Written Object ParseError) : Prop :=
  ¬ table.Settled specifier ∧
    ((∃ group, specifier = .includeGroup group ∧ table.Fails parents group error) ∨
      (∀ group, specifier ≠ .includeGroup group) ∧
        ∀ cycle, error ≠ .dependencyGroupCycle cycle)

theorem resolveSpecifier_explains {parents : List Name} {name : Name}
    {resolve : Name → GroupM Name Written Object Package ParseError Unit}
    {specifier : DependencyGroupSpecifier Name Written Object}
    {found : List (Requirement Package) × List VersionSpecifier}
    {result : Except (DependencyGroupError Name Written Object ParseError)
      (List (Requirement Package) × List VersionSpecifier)}
    (hresolve : ∀ group state result state', specifier = .includeGroup group →
      table.Stored state → (resolve group).Returns state result state' →
        table.Explains parents group result state')
    (hstored : table.Stored state)
    (hrun : (table.resolveSpecifier name resolve found specifier).Returns state result state') :
    table.Stored state' ∧ (∀ found', result = .ok found' → table.Settled specifier) ∧
      ∀ error, result = .error error → table.EntryFails parents specifier error := by
  cases specifier with
  | requirement written =>
      rw [resolveSpecifier] at hrun
      cases hparse : table.parse written with
      | ok requirement =>
          rw [hparse] at hrun
          obtain ⟨rfl, rfl⟩ := RunM.returns_pure.mp hrun
          refine ⟨hstored, ?_, by simp⟩
          intro _ _
          exact ⟨_, 0, by rw [expandSpecifier, hparse]⟩
      | error parseError =>
          rw [hparse] at hrun
          obtain ⟨rfl, rfl⟩ := RunM.returns_throw.mp hrun
          refine ⟨hstored, by simp, ?_⟩
          rintro _ ⟨⟩
          refine ⟨?_, Or.inr ⟨by simp, by simp⟩⟩
          rintro ⟨occurrences, fuel, hexpand⟩
          rw [expandSpecifier, hparse] at hexpand
          cases hexpand
  | includeGroup group =>
      rw [resolveSpecifier, RunM.returns_bind] at hrun
      rcases hrun with ⟨error, hfailed, rfl⟩ | ⟨_, state₁, hok, hrest⟩
      · have hexplains := hresolve group _ _ _ rfl hstored hfailed
        refine ⟨hexplains.stored, by simp, ?_⟩
        rintro _ ⟨⟩
        obtain ⟨hfails, hstuck⟩ := hexplains.error error rfl
        exact ⟨hstuck, Or.inl ⟨group, rfl, hfails⟩⟩
      · have hexplains := hresolve group _ _ _ rfl hstored hok
        rw [RunM.returns_bind_of RunM.returns_get] at hrest
        have hpure : ∃ found', result = .ok found' ∧ state' = state₁ := by
          split at hrest
          · exact ⟨_, RunM.returns_pure.mp hrest⟩
          · exact ⟨_, RunM.returns_pure.mp hrest⟩
        obtain ⟨found', rfl, rfl⟩ := hpure
        exact ⟨hexplains.stored, fun _ _ => hexplains.ok rfl, by simp⟩
  | object map =>
      obtain ⟨rfl, rfl⟩ := RunM.returns_throw.mp hrun
      refine ⟨hstored, by simp, ?_⟩
      rintro _ ⟨⟩
      refine ⟨?_, Or.inr ⟨by simp, by simp⟩⟩
      rintro ⟨occurrences, fuel, hexpand⟩
      cases hexpand

/-- The entries of a group are settled up to the first one that fails. -/
theorem resolveSpecifiers_explains {parents : List Name} {name : Name}
    {resolve : Name → GroupM Name Written Object Package ParseError Unit}
    {specifiers : List (DependencyGroupSpecifier Name Written Object)}
    {found : List (Requirement Package) × List VersionSpecifier}
    {result : Except (DependencyGroupError Name Written Object ParseError)
      (List (Requirement Package) × List VersionSpecifier)}
    (hresolve : ∀ group state result state', .includeGroup group ∈ specifiers →
      table.Stored state → (resolve group).Returns state result state' →
        table.Explains parents group result state')
    (hstored : table.Stored state)
    (hrun : (specifiers.foldlM (table.resolveSpecifier name resolve) found).Returns state
      result state') :
    table.Stored state' ∧
      (∀ found', result = .ok found' → ∀ specifier ∈ specifiers, table.Settled specifier) ∧
      ∀ error, result = .error error → ∃ before specifier rest,
        specifiers = before ++ specifier :: rest ∧ (∀ other ∈ before, table.Settled other) ∧
          table.EntryFails parents specifier error := by
  induction specifiers generalizing found state with
  | nil =>
      obtain ⟨rfl, rfl⟩ := RunM.returns_pure.mp hrun
      exact ⟨hstored, by simp, by simp⟩
  | cons specifier rest ih =>
      rw [List.foldlM_cons, RunM.returns_bind] at hrun
      have hfirst : ∀ group state result state', specifier = .includeGroup group →
          table.Stored state → (resolve group).Returns state result state' →
            table.Explains parents group result state' := by
        rintro group state result state' rfl
        exact hresolve group state result state' List.mem_cons_self
      rcases hrun with ⟨error, hfailed, rfl⟩ | ⟨found', state₁, hok, hrest⟩
      · obtain ⟨hstored', _, herror⟩ := resolveSpecifier_explains hfirst hstored hfailed
        refine ⟨hstored', by simp, ?_⟩
        rintro _ ⟨⟩
        exact ⟨[], specifier, rest, rfl, by simp, herror error rfl⟩
      · obtain ⟨hstored₁, hsettled, _⟩ := resolveSpecifier_explains hfirst hstored hok
        obtain ⟨hstored', hrestOk, hrestError⟩ := ih
          (fun group state result state' hmem =>
            hresolve group state result state' (List.mem_cons_of_mem _ hmem)) hstored₁ hrest
        refine ⟨hstored', ?_, ?_⟩
        · intro final hfinal other hother
          rcases List.mem_cons.mp hother with rfl | hother
          · exact hsettled found' rfl
          · exact hrestOk final hfinal other hother
        · intro error herror
          obtain ⟨before, other, after, rfl, hbefore, hfails⟩ := hrestError error herror
          refine ⟨specifier :: before, other, after, rfl, ?_, hfails⟩
          intro earlier hearlier
          rcases List.mem_cons.mp hearlier with rfl | hearlier
          · exact hsettled found' rfl
          · exact hbefore earlier hearlier

/-- An action that fails never and leaves the stored groups as they are. -/
def Keeps (action : GroupM Name Written Object Package ParseError α) : Prop :=
  ∀ state result state', action.Returns state result state' →
    (∃ value, result = .ok value) ∧ state'.resolved = state.resolved

theorem Keeps.not_error {action : GroupM Name Written Object Package ParseError α}
    (hkeeps : Keeps action) {error : DependencyGroupError Name Written Object ParseError} :
    ¬ action.Returns state (.error error) state' := by
  intro hrun
  obtain ⟨⟨_, hvalue⟩, _⟩ := hkeeps _ _ _ hrun
  cases hvalue

theorem keeps_pure (value : α) :
    Keeps (pure value : GroupM Name Written Object Package ParseError α) := by
  intro state result state' hrun
  obtain ⟨rfl, rfl⟩ := RunM.returns_pure.mp hrun
  exact ⟨⟨value, rfl⟩, rfl⟩

theorem keeps_intern (action : InternerM α) :
    Keeps (GroupM.intern action : GroupM Name Written Object Package ParseError α) := by
  intro state result state' hrun
  obtain ⟨outcome, _, heq⟩ := Option.map_eq_some_iff.mp hrun
  cases heq
  exact ⟨⟨outcome.1, rfl⟩, rfl⟩

theorem keeps_orPanic (value : Option α) :
    Keeps (GroupM.orPanic value : GroupM Name Written Object Package ParseError α) := by
  cases value with
  | none => exact fun _ _ _ hrun => absurd hrun RunM.not_returns_diverge
  | some value => exact keeps_pure value

theorem Keeps.bind {β : Type} {action : GroupM Name Written Object Package ParseError α}
    {next : α → GroupM Name Written Object Package ParseError β} (hkeeps : Keeps action)
    (hnext : ∀ value, Keeps (next value)) : Keeps (action >>= next) := by
  intro state result state' hrun
  rcases RunM.returns_bind.mp hrun with ⟨error, hfailed, _⟩ | ⟨value, state₁, hok, hrest⟩
  · exact absurd hfailed hkeeps.not_error
  · obtain ⟨hresult, hsame⟩ := hnext value _ _ _ hrest
    exact ⟨hresult, hsame.trans (hkeeps _ _ _ hok).2⟩

theorem keeps_mapM {β : Type} {action : α → GroupM Name Written Object Package ParseError β}
    (hkeeps : ∀ value, Keeps (action value)) (values : List α) :
    Keeps (values.mapM action) := by
  induction values with
  | nil => exact keeps_pure []
  | cons value rest ih =>
      rw [List.mapM_cons]
      exact (hkeeps value).bind fun _ => ih.bind fun _ => keeps_pure _

theorem keeps_addMarker (specifiers : List VersionSpecifier)
    (requirement : Requirement Package) :
    Keeps (addMarker specifiers requirement :
      GroupM Name Written Object Package ParseError (Requirement Package)) :=
  (keeps_orPanic _).bind fun _ => (keeps_intern _).bind fun _ => (keeps_intern _).bind fun _ =>
    keeps_pure _

theorem keeps_applySettings (name : Name)
    (found : List (Requirement Package) × List VersionSpecifier) :
    Keeps (table.applySettings name found) := by
  unfold applySettings
  split
  · exact (keeps_mapM (keeps_addMarker _) _).bind fun _ => keeps_pure _
  · exact keeps_pure _

theorem stored_insertGroup {name : Name}
    {found : List (Requirement Package) × List VersionSpecifier}
    {result : Except (DependencyGroupError Name Written Object ParseError) Unit}
    (hstored : table.Stored state) (hexpand : table.CanExpand name)
    (hrun : (insertGroup name found : GroupM Name Written Object Package ParseError Unit).Returns
      state result state') : result = .ok () ∧ table.Stored state' := by
  rw [insertGroup, RunM.returns_bind_of RunM.returns_get] at hrun
  obtain ⟨rfl, rfl⟩ := RunM.returns_set.mp hrun
  refine ⟨rfl, ?_⟩
  intro other hother
  by_cases heq : other = name
  · rw [heq]
    exact hexpand
  · rw [List.lookup_cons, beq_false_of_ne heq] at hother
    exact hstored other hother

theorem not_follows_of_entry {name : Name}
    {before rest : List (DependencyGroupSpecifier Name Written Object)}
    {specifier : DependencyGroupSpecifier Name Written Object}
    (hlookup : table.groups.lookup name = some (before ++ specifier :: rest))
    (hbefore : ∀ other ∈ before, table.Settled other) (hstuck : ¬ table.Settled specifier)
    (hother : ∀ group, specifier ≠ .includeGroup group) (group : Name) :
    ¬ table.Follows name group := by
  rintro ⟨before', rest', hlookup', hbefore', hgroup⟩
  have hstuck' : ¬ table.Settled (.includeGroup group) := hgroup
  have heq := Option.some.inj (hlookup.symm.trans hlookup')
  exact hother group (first_unique heq hbefore hstuck hbefore' hstuck')

/-- The requirements of a group whose entries are settled are stored. -/
theorem stored_applySettings {name : Name}
    {found : List (Requirement Package) × List VersionSpecifier}
    {result : Except (DependencyGroupError Name Written Object ParseError) Unit}
    (hstored : table.Stored state) (hexpand : table.CanExpand name)
    (hrun : (table.applySettings name found >>= insertGroup name).Returns state result state') :
    result = .ok () ∧ table.Stored state' := by
  have hkeeps := table.keeps_applySettings name found
  rcases RunM.returns_bind.mp hrun with ⟨error, hfailed, _⟩ | ⟨found', state₁, hok, hinsert⟩
  · exact absurd hfailed hkeeps.not_error
  · exact stored_insertGroup (hstored.congr (hkeeps _ _ _ hok).2) hexpand hinsert

/-- A name that is no group has no expansion and leads nowhere. -/
theorem explains_undefined {parents : List Name} {name : Name}
    {result : Except (DependencyGroupError Name Written Object ParseError) Unit}
    (hlookup : table.groups.lookup name = none) (hstored : table.Stored state)
    (hrun : (GroupM.orPanic parents.getLast? >>= fun parent => throw (.groupNotFound name parent) :
      GroupM Name Written Object Package ParseError Unit).Returns state result state') :
    table.Explains parents name result state' := by
  have hundefined : ¬ table.CanExpand name := by
    rintro ⟨occurrences, hexpands⟩
    exact not_reachesBad_of_expands hexpands ⟨name, .refl, .undefined hlookup⟩
  have hend : ∀ group, ¬ table.Follows name group := by
    rintro group ⟨_, _, hlookup', _⟩
    cases hlookup.symm.trans hlookup'
  rcases RunM.returns_bind.mp hrun with ⟨error, hfailed, _⟩ | ⟨parent, state₁, hok, hrest⟩
  · exact absurd hfailed (keeps_orPanic _).not_error
  · obtain ⟨rfl, rfl⟩ := RunM.returns_throw.mp hrest
    refine ⟨hstored.congr (keeps_orPanic _ _ _ _ hok).2, by simp, ?_⟩
    rintro _ ⟨⟩
    exact ⟨.stuck hend (by simp), hundefined⟩

/-- A group that is met again has no expansion. -/
theorem explains_cycle {parents : List Name} {name : Name} (hmem : name ∈ parents)
    (hpath : TransGen table.Includes name name) (hstored : table.Stored state) :
    table.Explains parents name (.error (.dependencyGroupCycle parents)) state := by
  refine ⟨hstored, by simp, ?_⟩
  rintro _ ⟨⟩
  refine ⟨.cycle hmem, ?_⟩
  rintro ⟨occurrences, hexpands⟩
  exact not_reachesBad_of_expands hexpands ⟨name, .refl, .cycle hpath⟩

/-- A group fails with its first entry that fails. -/
theorem fails_of_entry {parents : List Name} {name : Name}
    {before rest : List (DependencyGroupSpecifier Name Written Object)}
    {specifier : DependencyGroupSpecifier Name Written Object}
    {error : DependencyGroupError Name Written Object ParseError} (hnew : name ∉ parents)
    (hlookup : table.groups.lookup name = some (before ++ specifier :: rest))
    (hbefore : ∀ other ∈ before, table.Settled other)
    (hentry : table.EntryFails (parents ++ [name]) specifier error) :
    table.Fails parents name error ∧ ¬ table.CanExpand name := by
  obtain ⟨hstuck, hentry⟩ := hentry
  constructor
  · rcases hentry with ⟨group, rfl, hfails⟩ | ⟨hother, hcycle⟩
    · exact .included hnew ⟨before, rest, hlookup, hbefore, hstuck⟩ hfails
    · exact .stuck (not_follows_of_entry hlookup hbefore hstuck hother) hcycle
  · intro hexpand
    exact hstuck (settled_of_canExpand hlookup hexpand (by simp))

/-- A group that is resolved has an expansion, and one that fails does so along the walk. -/
theorem resolveGroup_explains {fuel : ℕ} {parents : List Name} {name : Name}
    {result : Except (DependencyGroupError Name Written Object ParseError) Unit}
    (hpath : ∀ parent ∈ parents, TransGen table.Includes parent name)
    (hstored : table.Stored state)
    (hrun : (table.resolveGroup fuel parents name).Returns state result state') :
    table.Explains parents name result state' := by
  induction fuel generalizing parents name state result state' with
  | zero => exact absurd hrun RunM.not_returns_diverge
  | succ fuel ih =>
      rw [resolveGroup] at hrun
      cases hlookup : table.groups.lookup name with
      | none =>
          rw [hlookup] at hrun
          exact explains_undefined hlookup hstored hrun
      | some specifiers =>
          rw [hlookup] at hrun
          by_cases hmem : name ∈ parents
          · simp only [if_pos hmem] at hrun
            obtain ⟨rfl, rfl⟩ := RunM.returns_throw.mp hrun
            exact explains_cycle hmem (hpath name hmem) hstored
          · simp only [if_neg hmem] at hrun
            rw [RunM.returns_bind_of RunM.returns_get] at hrun
            split at hrun
            · rename_i hsome
              obtain ⟨rfl, rfl⟩ := RunM.returns_pure.mp hrun
              exact ⟨hstored, fun _ => hstored name hsome, by simp⟩
            · have hresolve : ∀ group state result state', .includeGroup group ∈ specifiers →
                  table.Stored state →
                    (table.resolveGroup fuel (parents ++ [name]) group).Returns state result
                      state' → table.Explains (parents ++ [name]) group result state' := by
                intro group state result state' hentry hstored hrun
                have hincludes : table.Includes name group := ⟨specifiers, hlookup, hentry⟩
                apply ih _ hstored hrun
                intro parent hparent
                rcases List.mem_append.mp hparent with hparent | hparent
                · exact .tail (hpath parent hparent) hincludes
                · rw [List.mem_singleton.mp hparent]
                  exact .single hincludes
              rcases RunM.returns_bind.mp hrun with
                ⟨error, hfailed, rfl⟩ | ⟨found, state₁, hok, hrest⟩
              · obtain ⟨hstored', _, herror⟩ :=
                  resolveSpecifiers_explains hresolve hstored hfailed
                refine ⟨hstored', by simp, ?_⟩
                rintro _ ⟨⟩
                obtain ⟨before, specifier, rest, rfl, hbefore, hentry⟩ := herror error rfl
                exact fails_of_entry hmem hlookup hbefore hentry
              · obtain ⟨hstored₁, hsettled, _⟩ :=
                  resolveSpecifiers_explains hresolve hstored hok
                have hexpand := canExpand_of_settled hlookup (hsettled found rfl)
                obtain ⟨rfl, hstored'⟩ := stored_applySettings hstored₁ hexpand hrest
                exact ⟨hstored', fun _ => hexpand, by simp⟩

/-- The groups of the table are expanded up to the first one that fails. -/
theorem resolveGroups_explains {fuel : ℕ}
    {groups : List (Name × List (DependencyGroupSpecifier Name Written Object))}
    {result : Except (DependencyGroupError Name Written Object ParseError) PUnit}
    (hstored : table.Stored state)
    (hrun : (groups.forM fun group => table.resolveGroup fuel [] group.1).Returns state result
      state') :
    (result = .ok ⟨⟩ → ∀ name ∈ groups.map (·.1), table.CanExpand name) ∧
      ∀ error, result = .error error → ∃ before first rest,
        groups.map (·.1) = before ++ first :: rest ∧ (∀ name ∈ before, table.CanExpand name) ∧
          ¬ table.CanExpand first ∧ table.Fails [] first error := by
  induction groups generalizing state with
  | nil =>
      obtain ⟨rfl, rfl⟩ := RunM.returns_pure.mp hrun
      exact ⟨by simp, by simp⟩
  | cons group groups ih =>
      rw [List.forM, RunM.returns_bind] at hrun
      rcases hrun with ⟨error, hfailed, rfl⟩ | ⟨_, state₁, hok, hrest⟩
      · have hexplains := resolveGroup_explains (by simp) hstored hfailed
        refine ⟨by simp, ?_⟩
        rintro _ ⟨⟩
        obtain ⟨hfails, hstuck⟩ := hexplains.error error rfl
        exact ⟨[], group.1, groups.map (·.1), rfl, by simp, hstuck, hfails⟩
      · have hexplains := resolveGroup_explains (by simp) hstored hok
        have hfirst := hexplains.ok rfl
        obtain ⟨hrestOk, hrestError⟩ := ih hexplains.stored hrest
        constructor
        · intro hresult name hname
          rcases List.mem_cons.mp hname with rfl | hname
          · exact hfirst
          · exact hrestOk hresult name hname
        · intro error herror
          obtain ⟨before, first, after, heq, hbefore, hstuck, hfails⟩ := hrestError error herror
          refine ⟨group.1 :: before, first, after, ?_, ?_, hstuck, hfails⟩
          · rw [List.map_cons, heq, List.cons_append]
          · intro name hname
            rcases List.mem_cons.mp hname with rfl | hname
            · exact hfirst
            · exact hbefore name hname

theorem settings_explain {settings : List (Name × Option (List VersionSpecifier))}
    {result : Except (DependencyGroupError Name Written Object ParseError) PUnit}
    (hrun : (settings.forM fun setting =>
      if (table.groups.lookup setting.1).isSome then pure ()
      else throw (.settingsGroupNotFound setting.1) :
        GroupM Name Written Object Package ParseError PUnit).Returns state result state') :
    state' = state ∧
      (result = .ok ⟨⟩ → ∀ setting ∈ settings, (table.groups.lookup setting.1).isSome) ∧
      ∀ error, result = .error error →
        (∃ setting ∈ settings, ¬ (table.groups.lookup setting.1).isSome) ∧
          ∀ cycle, error ≠ .dependencyGroupCycle cycle := by
  induction settings with
  | nil =>
      obtain ⟨rfl, rfl⟩ := RunM.returns_pure.mp hrun
      exact ⟨rfl, by simp, by simp⟩
  | cons setting rest ih =>
      rw [List.forM] at hrun
      by_cases hsetting : (table.groups.lookup setting.1).isSome
      · rw [if_pos hsetting, pure_bind] at hrun
        obtain ⟨hstate, hok, herror⟩ := ih hrun
        refine ⟨hstate, ?_, ?_⟩
        · intro hresult other hother
          rcases List.mem_cons.mp hother with rfl | hother
          · exact hsetting
          · exact hok hresult other hother
        · intro error hresult
          obtain ⟨⟨other, hother, hundefined⟩, hcycle⟩ := herror error hresult
          exact ⟨⟨other, List.mem_cons_of_mem _ hother, hundefined⟩, hcycle⟩
      · rw [if_neg hsetting, RunM.returns_bind] at hrun
        rcases hrun with ⟨error, hfailed, rfl⟩ | ⟨_, _, hok, _⟩
        · obtain ⟨herror, rfl⟩ := RunM.returns_throw.mp hfailed
          cases herror
          refine ⟨rfl, by simp, ?_⟩
          rintro _ ⟨⟩
          exact ⟨⟨setting, List.mem_cons_self, hsetting⟩, by simp⟩
        · cases (RunM.returns_throw.mp hok).1

/-- A cycle that is reported is one, in every run on a table, iff the walk along the entries
without an expansion enters its cycle at the start, or the last group reported includes the
first one by another entry. -/
theorem reported_isCycle_iff {fuel : ℕ} {interner : Interner}
    {result : Except (DependencyGroupError Name Written Object ParseError)
      (List (Name × FlatDependencyGroup Package))}
    (hrun : (table.fromDependencyGroups fuel).Returns ⟨[], interner⟩ result state') :
    (∀ cycle, result = .error (.dependencyGroupCycle cycle) → table.IsCycle cycle) ↔
      table.EntersAtStart := by
  have hstored : table.Stored (⟨[], interner⟩ : GroupState Name Package) := by
    rintro name ⟨⟩
  rw [fromDependencyGroups] at hrun
  rcases RunM.returns_bind.mp hrun with ⟨error, hfailed, rfl⟩ | ⟨_, state₁, hsettings, hrest⟩
  · obtain ⟨_, _, herror⟩ := settings_explain hfailed
    obtain ⟨⟨setting, hsetting, hundefined⟩, hcycle⟩ := herror error rfl
    apply iff_of_true
    · rintro cycle ⟨⟩
      exact absurd rfl (hcycle cycle)
    · intro hdefined
      exact absurd (hdefined setting hsetting) hundefined
  obtain ⟨rfl, hdefined, _⟩ := settings_explain hsettings
  rcases RunM.returns_bind.mp hrest with ⟨error, hfailed, rfl⟩ | ⟨_, state₂, hok, hget⟩
  · obtain ⟨_, herror⟩ := resolveGroups_explains hstored hfailed
    obtain ⟨before, first, rest, heq, hbefore, hstuck, hfails⟩ := herror error rfl
    have hfirst : table.FirstStuck first := ⟨before, rest, heq, hbefore, hstuck⟩
    constructor
    · intro hreal _ first' last hfirst' henters
      cases hfirst.unique hfirst'
      obtain ⟨cycle, rfl⟩ := hfails.exists_cycle fun group hgroup =>
        henters.exists_step follows_rightUnique hgroup
      exact hfails.isCycle_iff.mp (hreal cycle rfl) last henters
    · rintro henters cycle ⟨⟩
      exact hfails.isCycle_iff.mpr fun last =>
        henters (hdefined rfl) first last hfirst
  · obtain ⟨hexpand, _⟩ := resolveGroups_explains hstored hok
    apply iff_of_true
    · rintro cycle rfl
      rw [RunM.returns_bind_of RunM.returns_get] at hget
      cases (RunM.returns_pure.mp hget).1
    · rintro _ first last ⟨before, rest, heq, _, hstuck⟩ _
      exact absurd (hexpand rfl first (by rw [heq]; simp)) hstuck

end Run

section Example

/-- Groups that include one other group each. -/
def including (groups : List (ℕ × ℕ)) : Groups ℕ Unit Unit Unit Unit where
  groups := groups.map fun entry => (entry.1, [.includeGroup entry.2])
  settings := []
  parse _ := .error ()

theorem reported_isCycle_iff_two :
    (∀ cycle, (.error (.dependencyGroupCycle [0, 1]) :
        Except (DependencyGroupError ℕ Unit Unit Unit) (List (ℕ × FlatDependencyGroup Unit))) =
          .error (.dependencyGroupCycle cycle) → (including [(0, 1), (1, 0)]).IsCycle cycle) ↔
      (including [(0, 1), (1, 0)]).EntersAtStart := by
  have hrun : ((including [(0, 1), (1, 0)]).fromDependencyGroups 3).Returns
      ⟨[], Interner.default⟩ (.error (.dependencyGroupCycle [0, 1]))
      ⟨[], Interner.default⟩ := rfl
  exact reported_isCycle_iff hrun

/-- A cycle of two groups is reported with the group that leads to it. -/
theorem not_isCycle_three :
    ¬ ∀ (table : Groups ℕ Unit Unit Unit Unit) (fuel : ℕ)
      (result : Except (DependencyGroupError ℕ Unit Unit Unit)
        (List (ℕ × FlatDependencyGroup Unit))) (state' : GroupState ℕ Unit),
      (table.fromDependencyGroups fuel).Returns ⟨[], Interner.default⟩ result state' →
        ∀ cycle, result = .error (.dependencyGroupCycle cycle) → table.IsCycle cycle := by
  intro hreal
  have hcycle := hreal (including [(0, 1), (1, 2), (2, 1)]) 4 _ ⟨[], Interner.default⟩ rfl
    [0, 1, 2] rfl
  have hlast : (including [(0, 1), (1, 2), (2, 1)]).Includes 2 0 := by
    simpa [IsCycle] using (List.isChain_append.mp hcycle).2.2
  obtain ⟨specifiers, hlookup, hentry⟩ := hlast
  cases hlookup
  simp at hentry

end Example

end Groups

end Uv.Workspace
