import Uv.Core.Stepping
import Uv.Resolver.Closure

/-!
# Activated extras

The first traversal activates the extras that dependencies request.  It evaluates a marker
with the extras found so far, so what it follows can differ from what the second traversal
follows with all of them.
-/

set_option linter.unusedSectionVars false

namespace Uv.Resolver

open Uv.Core Uv.Core.Worklist Relation

variable {Name Id Marker Dist Error : Type} [LinearOrder Name] [LinearOrder Id]
  [LinearOrder Marker] [LockId Id Name]

namespace Installable

local instance isTrans_requested : IsTrans Name (· ≤ ·) := isTrans_name

local instance antisymm_requested : Std.Antisymm fun name other : Name => name ≤ other :=
  antisymm_name

local instance lawfulBEq_requested : LawfulBEq (Name × Name) := inferInstance

/-- The extras that a dependency requests, with their package. -/
def requestedExtras (dep : Dependency Name Id Marker) : List (Name × Name) :=
  (dep.extra.sort (· ≤ ·)).map (LockId.name dep.packageId, ·)

/-- The extras found so far and those that a dependency requests. -/
def withRequested (extras : List (Name × Name)) (dep : Dependency Name Id Marker) :
    List (Name × Name) :=
  extras ++ (requestedExtras dep).filter (· ∉ extras)

theorem mem_withRequested {extras : List (Name × Name)} {dep : Dependency Name Id Marker}
    {pair : Name × Name} :
    pair ∈ withRequested extras dep ↔ pair ∈ extras ∨ pair ∈ requestedExtras dep := by
  by_cases hpair : pair ∈ extras <;> simp [withRequested, hpair]

/-- The queue, the seen items and the activated extras. -/
abbrev CollectState (Name Id Marker : Type) :=
  Worklist (Item Name Id Marker) (Id × Option Name) (List (Name × Name))

/-- A step of the first traversal. -/
abbrev CollectStep (self : Installable Name Id Marker Dist Error) (activated : Activated Name) :
    List (Dependency Name Id Marker) × CollectState Name Id Marker →
      List (Dependency Name Id Marker) × CollectState Name Id Marker → Prop :=
  Step (fun item => item.1.dependenciesOf item.2) (self.activateDependency activated)

/-- The first traversal comes to the dependency, and its marker is true with the extras
found so far and its own. -/
def FollowedFirst (self : Installable Name Id Marker Dist Error)
    (dep : Dependency Name Id Marker) : Prop :=
  ∃ activated work rest state, self.conflicts.isEmpty = false ∧
    self.activateRoots = .ok activated ∧ self.enter activated = .ok work ∧
      ReflTransGen (self.CollectStep activated)
        ([], { work with state := activated.extras }) (dep :: rest, state) ∧
        self.evaluate dep.complexifiedMarker
          { activated with extras := withRequested state.state dep } = true

/-- The second traversal reaches an item with the dependency, and its marker is true with
all activated extras. -/
def FollowedSecond (self : Installable Name Id Marker Dist Error)
    (rootActivated activated : Activated Name) (dep : Dependency Name Id Marker) : Prop :=
  ∃ item, Reached (· ∈ self.entryItems rootActivated) (self.Asks activated) item ∧
    dep ∈ self.activeDependencies activated item

variable {self : Installable Name Id Marker Dist Error} {activated rootActivated : Activated Name}
  {dep : Dependency Name Id Marker} {pair : Name × Name}

/-! ## The first traversal -/

/-- A dependency is skipped, or its extras are activated and its items are put in the queue. -/
theorem activateDependency_ok {work work' : CollectState Name Id Marker}
    (hactivate : self.activateDependency activated work dep = .ok work') :
    (self.evaluate dep.complexifiedMarker
        { activated with extras := withRequested work.state dep } = false ∧ work' = work) ∨
      self.evaluate dep.complexifiedMarker
          { activated with extras := withRequested work.state dep } = true ∧
        work'.state = withRequested work.state dep ∧
          ∀ item ∈ work'.queue, item ∈ work.queue ∨
            self.findById item.1.id = .ok item.1 ∧ itemKey item ∈ dependencyItems dep := by
  rw [activateDependency] at hactivate
  split at hactivate
  case isTrue hfalse =>
    cases hactivate
    exact Or.inl ⟨(Bool.not_eq_true' _).mp hfalse, rfl⟩
  case isFalse htrue =>
    obtain ⟨dist, hdist, hactivate⟩ := bind_eq_ok hactivate
    cases hactivate
    have hid := (findById_ok hdist).2
    obtain ⟨hpushed, hstate, hitems⟩ := pushDependencies_spec hid (dep.extra.sort (· ≤ ·))
      { work with state := withRequested work.state dep }
    refine Or.inr ⟨Bool.not_not_eq.mp htrue, hstate, ?_⟩
    intro item hitem
    obtain ⟨new, hnew, _, hmem⟩ := hpushed.queue
    rcases List.mem_append.mp (hnew ▸ hitem) with hold | hadded
    · exact Or.inl hold
    · have hkey := ((hmem _).mp (List.mem_map_of_mem hadded)).1
      rcases hitems item hitem with hold | hsame
      · exact Or.inl hold
      · exact Or.inr ⟨by rw [hsame, hid, hdist], hkey⟩

/-- Extras stay activated. -/
theorem extras_subset {start stage : List (Dependency Name Id Marker) × CollectState Name Id Marker}
    (hsteps : ReflTransGen (self.CollectStep activated) start stage) :
    start.2.state ⊆ stage.2.state := by
  apply steps_invariant (fun stage => start.2.state ⊆ stage.2.state) (List.Subset.refl _) ?_ hsteps
  intro stage next _ hsubset hnext
  cases hnext with
  | take => exact hsubset
  | follow hfollow =>
      rcases activateDependency_ok hfollow with ⟨_, rfl⟩ | ⟨_, hstate, _⟩
      · exact hsubset
      · intro pair hpair
        rw [hstate, mem_withRequested]
        exact Or.inl (hsubset hpair)

/-- The parts of the activations, if there are conflicts. -/
theorem activations_ok (hroot : self.activateRoots = .ok rootActivated)
    (hactivated : self.activations = .ok activated) (hconflicts : self.conflicts.isEmpty = false) :
    ∃ work final, self.enter rootActivated = .ok work ∧ final.queue = [] ∧
      ReflTransGen (self.CollectStep rootActivated)
        ([], { work with state := rootActivated.extras }) ([], final) ∧
        self.checkConflicts final.state = .ok () ∧
          activated = { rootActivated with extras := final.state } := by
  obtain ⟨_, hroot', hactivated⟩ := bind_eq_ok hactivated
  cases hroot.symm.trans hroot'
  obtain ⟨work, henter, hactivate⟩ := bind_eq_ok hactivated
  rw [activate, hconflicts] at hactivate
  obtain ⟨final, hcollect, hactivate⟩ := bind_eq_ok hactivate
  obtain ⟨_, hcheck, hactivate⟩ := bind_eq_ok hactivate
  cases hactivate
  have hqueue := collectExtras_queue (enter_ok henter).packages hcollect
  exact ⟨work, final, henter, hqueue, steps_of_run hcollect, hcheck, rfl⟩

/-- Without conflicts nothing is activated. -/
theorem activations_of_isEmpty (hroot : self.activateRoots = .ok rootActivated)
    (hactivated : self.activations = .ok activated) (hconflicts : self.conflicts.isEmpty = true) :
    activated = rootActivated ∧ rootActivated = ⟨[], [], []⟩ := by
  have hempty : rootActivated = ⟨[], [], []⟩ := by
    rw [activateRoots, if_pos hconflicts] at hroot
    cases hroot
    rfl
  obtain ⟨_, hroot', hactivated⟩ := bind_eq_ok hactivated
  cases hroot.symm.trans hroot'
  obtain ⟨work, _, hactivate⟩ := bind_eq_ok hactivated
  rw [activate, if_pos hconflicts] at hactivate
  cases hactivate
  exact ⟨rfl, hempty⟩

theorem activations_projects (hroot : self.activateRoots = .ok rootActivated)
    (hactivated : self.activations = .ok activated) :
    activated.projects = rootActivated.projects ∧ activated.groups = rootActivated.groups := by
  cases hconflicts : self.conflicts.isEmpty with
  | true =>
      obtain ⟨rfl, _⟩ := activations_of_isEmpty hroot hactivated hconflicts
      exact ⟨rfl, rfl⟩
  | false =>
      obtain ⟨work, final, _, _, _, _, rfl⟩ := activations_ok hroot hactivated hconflicts
      exact ⟨rfl, rfl⟩

/-- The activated extras are those of the roots and those that the dependencies request that
the first traversal follows. -/
theorem mem_extras_iff (hroot : self.activateRoots = .ok rootActivated)
    (hactivated : self.activations = .ok activated) :
    pair ∈ activated.extras ↔ pair ∈ rootActivated.extras ∨
      ∃ dep, self.FollowedFirst dep ∧ pair ∈ requestedExtras dep := by
  cases hconflicts : self.conflicts.isEmpty with
  | true =>
      obtain ⟨rfl, rfl⟩ := activations_of_isEmpty hroot hactivated hconflicts
      constructor
      · exact Or.inl
      · rintro (hpair | ⟨dep, ⟨_, _, _, _, hconflicts', _⟩, _⟩)
        · exact hpair
        · rw [hconflicts] at hconflicts'
          cases hconflicts'
  | false =>
      obtain ⟨work, final, henter, hqueue, hsteps, _, rfl⟩ :=
        activations_ok hroot hactivated hconflicts
      constructor
      · let Inv : List (Dependency Name Id Marker) × CollectState Name Id Marker → Prop :=
          fun stage => ∀ pair ∈ stage.2.state, pair ∈ rootActivated.extras ∨
            ∃ dep, self.FollowedFirst dep ∧ pair ∈ requestedExtras dep
        have hstep : ∀ {stage next}, ReflTransGen (self.CollectStep rootActivated)
            ([], { work with state := rootActivated.extras }) stage → Inv stage →
              self.CollectStep rootActivated stage next → Inv next := by
          intro stage next hstage hinv hnext
          cases hnext with
          | take => exact hinv
          | @follow state state' dep rest hfollow =>
              rcases activateDependency_ok hfollow with ⟨_, rfl⟩ | ⟨htrue, hstate, _⟩
              · exact hinv
              · intro pair hpair
                rcases mem_withRequested.mp (hstate ▸ hpair) with hold | hrequested
                · exact hinv pair hold
                · exact Or.inr ⟨dep, ⟨rootActivated, work, rest, state, hconflicts, hroot, henter,
                    hstage, htrue⟩, hrequested⟩
        exact steps_invariant Inv (fun pair hpair => Or.inl hpair) hstep hsteps pair
      · rintro (hpair | ⟨dep, ⟨_, _, rest, state, _, hroot', henter', hstage, htrue⟩, hpair⟩)
        · exact extras_subset hsteps hpair
        · cases hroot.symm.trans hroot'
          cases henter.symm.trans henter'
          rcases (steps_to_end hqueue hsteps hstage).cases_head with heq | ⟨next, hnext, hafter⟩
          · cases heq
          · cases hnext with
            | follow hfollow =>
                rcases activateDependency_ok hfollow with ⟨hfalse, _⟩ | ⟨_, hstate, _⟩
                · rw [htrue] at hfalse
                  cases hfalse
                · apply extras_subset hafter
                  rw [hstate, mem_withRequested]
                  exact Or.inr hpair

/-! ## The check of the extras -/

theorem mem_pairs {α : Type} {xs : List α} {x y : α} (hx : x ∈ xs) (hy : y ∈ xs)
    (hne : x ≠ y) : (x, y) ∈ pairs xs ∨ (y, x) ∈ pairs xs := by
  induction xs with
  | nil => cases hx
  | cons first rest ih =>
      rw [pairs, List.mem_append, List.mem_append]
      rcases List.mem_cons.mp hx with rfl | hxRest
      · have hyRest := (List.mem_cons.mp hy).resolve_left hne.symm
        exact Or.inl (Or.inl (List.mem_map_of_mem hyRest))
      · rcases List.mem_cons.mp hy with rfl | hyRest
        · exact Or.inr (Or.inl (List.mem_map_of_mem hxRest))
        · exact (ih hxRest hyRest).imp Or.inr Or.inr

/-- The check leaves no two extras of one set. -/
theorem checkConflicts_ok {extras : List (Name × Name)}
    (hcheck : self.checkConflicts extras = .ok ()) {set : Finset (Name × Name)}
    (hset : set ∈ self.conflicts) {pair other : Name × Name} (hpair : pair ∈ extras)
    (hother : other ∈ extras) (hmem : pair ∈ set) (hmemOther : other ∈ set) : pair = other := by
  by_contra hne
  let extrasSet := (Lock.sort (extras.map toLex)).dedup.map ofLex
  have hkept : ∀ pair ∈ extras, pair ∈ extrasSet := by
    intro pair hpair
    refine List.mem_map.mpr ⟨toLex pair, ?_, rfl⟩
    rw [List.mem_dedup, Lock.sort, List.mem_insertionSort]
    exact List.mem_map_of_mem hpair
  have hall := forM_eq_ok_iff.mp (forM_eq_ok_iff.mp hcheck set hset)
  rcases mem_pairs (hkept pair hpair) (hkept other hother) hne with hpairs | hpairs
  · have hok := hall _ hpairs
    simp only [hmem, hmemOther] at hok
    cases hok
  · have hok := hall _ hpairs
    simp only [hmem, hmemOther] at hok
    cases hok

/-! ## Both traversals -/

/-- What the first traversal follows is followed by the second one, if the markers stay
true. -/
theorem FollowedFirst.second (hroot : self.activateRoots = .ok rootActivated)
    (hmarkers : ∀ dep, self.FollowedFirst dep →
      self.evaluate dep.complexifiedMarker activated = true)
    (hfollowed : self.FollowedFirst dep) : self.FollowedSecond rootActivated activated dep := by
  have hactive : ∀ {dep} {item : Item Name Id Marker}, self.FollowedFirst dep →
      self.findById item.1.id = .ok item.1 → dep ∈ item.1.dependenciesOf item.2 →
        dep ∈ self.activeDependencies activated (itemKey item) := by
    intro dep item hfollowed hfind hdep
    rw [itemKey, activeDependencies_eq hfind]
    exact List.mem_filter.mpr ⟨hdep, hmarkers dep hfollowed⟩
  have hlast : ∀ {item : Item Name Id Marker}, self.findById item.1.id = .ok item.1 →
      dep ∈ item.1.dependenciesOf item.2 →
        dep ∈ self.activeDependencies activated (itemKey item) := hactive hfollowed
  obtain ⟨_, work, rest, state, hconflicts, hroot', henter, hstage, _⟩ := hfollowed
  cases hroot.symm.trans hroot'
  have hentered := enter_ok henter
  -- Items of the queue are reached, and the pending dependencies are those of such an item.
  let Inv : List (Dependency Name Id Marker) × CollectState Name Id Marker → Prop := fun stage =>
    (∀ item ∈ stage.2.queue, self.findById item.1.id = .ok item.1 ∧
      Reached (· ∈ self.entryItems rootActivated) (self.Asks activated) (itemKey item)) ∧
    ∀ dep ∈ stage.1, ∃ item : Item Name Id Marker, self.findById item.1.id = .ok item.1 ∧
      Reached (· ∈ self.entryItems rootActivated) (self.Asks activated) (itemKey item) ∧
        dep ∈ item.1.dependenciesOf item.2
  have hstart : Inv ([], { work with state := rootActivated.extras }) :=
    ⟨fun item hitem => ⟨hentered.packages item hitem,
      .start ((hentered.queue _).mp ⟨item, hitem, rfl⟩)⟩, by simp⟩
  have hstep : ∀ {stage next}, ReflTransGen (self.CollectStep rootActivated)
      ([], { work with state := rootActivated.extras }) stage → Inv stage →
        self.CollectStep rootActivated stage next → Inv next := by
    intro stage next hstage hinv hnext
    cases hnext with
    | @take state item queue hqueue =>
        have hitem := hinv.1 item (hqueue ▸ List.mem_cons_self)
        exact ⟨fun other hother => hinv.1 other (hqueue ▸ List.mem_cons_of_mem _ hother),
          fun dep hdep => ⟨item, hitem.1, hitem.2, hdep⟩⟩
    | @follow state state' dep rest hfollow =>
        have hpending : ∀ dep ∈ rest, ∃ item : Item Name Id Marker, _ :=
          fun other hother => hinv.2 other (List.mem_cons_of_mem _ hother)
        rcases activateDependency_ok hfollow with ⟨_, rfl⟩ | ⟨htrue, _, hitems⟩
        · exact ⟨hinv.1, hpending⟩
        · have hfirst : self.FollowedFirst dep :=
            ⟨rootActivated, work, rest, state, hconflicts, hroot, henter, hstage, htrue⟩
          obtain ⟨source, hsource, hreached, hdep⟩ := hinv.2 dep List.mem_cons_self
          refine ⟨?_, hpending⟩
          intro item hitem
          rcases hitems item hitem with hold | ⟨hfind, hkey⟩
          · exact hinv.1 item hold
          · exact ⟨hfind, .next hreached ⟨dep, hactive hfirst hsource hdep, hkey⟩⟩
  obtain ⟨item, hfind, hreached, hdep⟩ :=
    (steps_invariant Inv hstart hstep hstage).2 dep List.mem_cons_self
  exact ⟨itemKey item, hreached, hlast hfind hdep⟩

/-- Every activated extra is an extra of a root or requested by a dependency that the first
traversal follows.  If the markers of these stay true, the second traversal follows such a
dependency as well. -/
theorem toResolution_extras_requested {graph : GraphState Name Id Marker Dist}
    (hresolve : self.toResolution = .ok graph) :
    ∃ rootActivated activated, self.activateRoots = .ok rootActivated ∧
      self.activations = .ok activated ∧
      (∀ pair ∈ activated.extras, pair ∈ rootActivated.extras ∨
        ∃ dep, self.FollowedFirst dep ∧ pair ∈ requestedExtras dep) ∧
      ((∀ dep, self.FollowedFirst dep →
          self.evaluate dep.complexifiedMarker activated = true) →
        ∀ pair ∈ activated.extras, pair ∈ rootActivated.extras ∨
          ∃ dep, self.FollowedSecond rootActivated activated dep ∧
            pair ∈ requestedExtras dep) := by
  obtain ⟨rootActivated, activated, hroot, hactivated⟩ := exists_activations hresolve
  have hextras : ∀ pair ∈ activated.extras, pair ∈ rootActivated.extras ∨
      ∃ dep, self.FollowedFirst dep ∧ pair ∈ requestedExtras dep :=
    fun pair => (mem_extras_iff hroot hactivated).mp
  refine ⟨rootActivated, activated, hroot, hactivated, hextras, ?_⟩
  intro hmarkers pair hpair
  rcases hextras pair hpair with hpair | ⟨dep, hfollowed, hrequested⟩
  · exact Or.inl hpair
  · exact Or.inr ⟨dep, hfollowed.second hroot hmarkers, hrequested⟩

section Example

local instance extrasLockId : LockId ℕ String :=
  ⟨fun id => if id = 0 then "app" else if id = 1 then "a" else "b", fun _ => none⟩

/-- The project `app` with the dependencies `a[x]`, unless `b[y]` is activated if the marker
says so, and `b[y]`. -/
def extrasLock (marker : Bool) : IndexedLock String ℕ Bool where
  packages := [⟨0, [], [], [⟨1, {"x"}, marker, marker⟩, ⟨2, {"y"}, false, false⟩], [], []⟩,
    ⟨1, [], [], [], [("x", [])], []⟩, ⟨2, [], [], [], [("y", [])], []⟩]
  byId := [(0, 0), (1, 1), (2, 2)]
  index id i := by
    by_cases hzero : id = 0
    · rcases i with _ | _ | _ | i <;> simp [hzero]
    · by_cases hone : id = 1
      · rcases i with _ | _ | _ | i <;>
          simp [List.lookup_cons, hone]
      · by_cases htwo : id = 2
        · rcases i with _ | _ | _ | i <;> simp [List.lookup_cons, htwo]
        · rcases i with _ | _ | _ | i <;>
            simp [List.lookup_cons, beq_false_of_ne hzero, beq_false_of_ne hone,
              beq_false_of_ne htwo, Ne.symm hzero, Ne.symm hone, Ne.symm htwo]

/-- Install `app`, where `b[y]` conflicts with `b[z]`. -/
def withExtras (marker : Bool) : Installable String ℕ Bool Unit Unit where
  lock := extrasLock marker
  conflicts := [{("b", "y"), ("b", "z")}]
  requirements := []
  dependencyGroups := []
  roots := ["app"]
  prod := true
  containsGroup _ := false
  containsExtra _ := false
  evaluate marker activated := !marker || decide (("b", "y") ∉ activated.extras)
  includePackage _ := true
  toDist _ _ := .ok ()

/-- What is activated in the end. -/
theorem activations_withExtras (marker : Bool) :
    (∃ graph, (withExtras marker).toResolution = .ok graph) ∧
      (withExtras marker).activateRoots = .ok ⟨["app"], [], []⟩ ∧
        (withExtras marker).activations = .ok ⟨["app"], [("a", "x"), ("b", "y")], []⟩ := by
  have hok : (withExtras marker).toResolution.isOk = true := by
    cases marker <;> decide +kernel
  have hfields : (withExtras marker).activations.toOption.map
      (fun activated => (activated.projects, activated.extras, activated.groups)) =
        some (["app"], [("a", "x"), ("b", "y")], []) := by
    cases marker <;> decide +kernel
  cases hresolve : (withExtras marker).toResolution with
  | error e => simp [hresolve, Except.isOk, Except.toBool] at hok
  | ok graph =>
      obtain ⟨_, ⟨projects, extras, groups⟩, _, hactivated⟩ := exists_activations hresolve
      rw [hactivated] at hfields
      cases Option.some.inj hfields
      exact ⟨⟨graph, rfl⟩, rfl, hactivated⟩

/-- The extra `a[x]` is activated before `b[y]` is, but the second traversal follows no
dependency that requests it. -/
theorem toResolution_extra_unrequested : ∃ graph rootActivated activated,
    (withExtras true).toResolution = .ok graph ∧
      (withExtras true).activateRoots = .ok rootActivated ∧
        (withExtras true).activations = .ok activated ∧ ("a", "x") ∈ activated.extras ∧
          ("a", "x") ∉ rootActivated.extras ∧
            ∀ dep, (withExtras true).FollowedSecond rootActivated activated dep →
              ("a", "x") ∉ requestedExtras dep := by
  obtain ⟨⟨graph, hresolve⟩, hroot, hactivated⟩ := activations_withExtras true
  refine ⟨graph, _, _, hresolve, hroot, hactivated, by simp, by simp, ?_⟩
  -- The project and `b[y]` are reached, and only `b[y]` is asked for.
  let items : List (ℕ × Option String) := [(0, none), (2, none), (2, some "y")]
  let dependencies := (withExtras true).activeDependencies ⟨["app"], [("a", "x"), ("b", "y")], []⟩
  have hstart : ∀ item ∈ (withExtras true).entryItems ⟨["app"], [], []⟩, item ∈ items := by
    decide +kernel
  have hnext : ∀ item ∈ items, ∀ next ∈ (dependencies item).flatMap dependencyItems,
      next ∈ items := by
    decide +kernel
  have hrequested : ∀ item ∈ items, ("a", "x") ∉ (dependencies item).flatMap requestedExtras := by
    decide +kernel
  rintro dep ⟨item, hreached, hdep⟩ hpair
  have hitem : item ∈ items := by
    clear hdep
    induction hreached with
    | start hentry => exact hstart _ hentry
    | next _ hasks ih =>
        obtain ⟨dep, hdep, hasked⟩ := hasks
        exact hnext _ ih _ (List.mem_flatMap.mpr ⟨dep, hdep, hasked⟩)
  exact hrequested item hitem (List.mem_flatMap.mpr ⟨dep, hdep, hpair⟩)

/-- Without the marker, both extras are requested. -/
theorem toResolution_extras_requested_unmarked : ∃ rootActivated activated,
    (withExtras false).activateRoots = .ok rootActivated ∧
      (withExtras false).activations = .ok activated ∧
      (∀ pair ∈ activated.extras, pair ∈ rootActivated.extras ∨
        ∃ dep, (withExtras false).FollowedFirst dep ∧ pair ∈ requestedExtras dep) ∧
      ((∀ dep, (withExtras false).FollowedFirst dep →
          (withExtras false).evaluate dep.complexifiedMarker activated = true) →
        ∀ pair ∈ activated.extras, pair ∈ rootActivated.extras ∨
          ∃ dep, (withExtras false).FollowedSecond rootActivated activated dep ∧
            pair ∈ requestedExtras dep) := by
  obtain ⟨⟨graph, hresolve⟩, _⟩ := activations_withExtras false
  exact toResolution_extras_requested hresolve

end Example

end Installable

end Uv.Resolver
