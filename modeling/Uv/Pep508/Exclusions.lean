import Uv.Pep508.Soundness

/-!
# The exclusions

The tree of incompatible markers is built once, before any result has been
rewritten by it, so it is true exactly where an incompatible pair is satisfied.
A conjunction that implies it may be replaced by `false` for every valuation
that satisfies no pair.
-/

namespace Uv.Pep508

open Uv.Core Uv.Pep440

namespace Interner

variable [RangeOps ValidVersion] [RangeOps Text]
  {s s' : Interner} {x y r : NodeId} {below : Variable → Variable → Prop}
  {Q : Option NodeId → Prop}

/-! ## Conjunction and disjunction before the exclusions are known -/

theorem conjunction_ensures (hinv : SoundWith below Q s) (hx : s.Valid x)
    (hy : s.Valid y) :
    Ensures (SoundWith below Q) (conjunction x y) s (Conj · x y) :=
  (conjoins_sound below Q).combine_ensures
    (fun hinv _ _ _ hconj => Ensures.pure hinv hconj) hinv ⟨hx, hy⟩
    (Nat.lt_succ_self _)

/-- The states in which the exclusions have not been built. -/
def Open (below : Variable → Variable → Prop) : Interner → Prop :=
  SoundWith below (· = none)

theorem conjunction_exact (hopen : Open below s) (hx : s.Valid x) (hy : s.Valid y) :
    Ensures (Open below) (conjunction x y) s fun s' r => s'.Valid r ∧
      ∀ v, Holds s' v r ↔ Holds s' v x ∧ Holds s' v y :=
  (conjunction_ensures hopen hx hy).weaken fun _ _ hopen' _ hconj =>
    ⟨hconj.valid, fun v => ⟨hconj.sound v,
      fun hboth => hconj.complete v (.inl hopen'.2) hboth.1 hboth.2⟩⟩

theorem disjunction_exact (hopen : Open below s) (hx : s.Valid x) (hy : s.Valid y) :
    Ensures (Open below) (disjunction x y) s fun s' r => s'.Valid r ∧
      ∀ v, Holds s' v r ↔ Holds s' v x ∨ Holds s' v y := by
  refine Ensures.bind (conjunction_exact hopen (valid_not.mpr hx)
    (valid_not.mpr hy)) fun r s' hopen' hle ⟨hvalid, hiff⟩ => ?_
  have hwf := hopen'.1.wellFormed
  refine Ensures.pure hopen' ⟨valid_not.mpr hvalid, fun v => ?_⟩
  rw [holds_not hwf hvalid, hiff, holds_not hwf (hx.mono hle),
    holds_not hwf (hy.mono hle)]
  tauto

/-! ## The nodes of the pairs -/

/-- The diagram says that the key has the given value. -/
structure Means (s : Interner)
    (entry : NodeId × CanonicalMarkerValueString × String) : Prop where
  valid : s.Valid entry.1
  holds_iff : ∀ v, Holds s v entry.1 ↔ v.Is entry.2.1 entry.2.2
  vars : AllVars s (· = .string entry.2.1) entry.1

omit [RangeOps ValidVersion] [RangeOps Text] in
theorem Means.mono {entry : NodeId × CanonicalMarkerValueString × String}
    (hwf : s.WellFormed) (hwf' : s'.WellFormed) (hle : s ≤ s')
    (hmeans : Means s entry) : Means s' entry :=
  ⟨hmeans.1.mono hle, fun v =>
    (holds_mono hwf hwf' hle hmeans.1).trans (hmeans.2 v), hmeans.3.mono hle⟩

omit [RangeOps ValidVersion] [RangeOps Text] in
/-- Different values of a key have different nodes. -/
theorem Means.ne {id id' : NodeId} {key : CanonicalMarkerValueString}
    {value value' : String} (hmeans : Means s (id, key, value))
    (hmeans' : Means s (id', key, value')) (hne : value.toList ≠ value'.toList) :
    id ≠ id' := by
  rintro rfl
  let v : Valuation :=
    .at (.ofPosition ⊥) (.ofPosition (Cut.before value.toList))
  have hin : v.Is key value := Point.ofPosition_in.mpr
    ⟨le_rfl, WithTop.coe_lt_coe.mpr (Cut.before_lt_after.mpr le_rfl)⟩
  have hin' := (hmeans'.2 v).mp ((hmeans.2 v).mpr hin)
  obtain ⟨hle, hlt⟩ := Point.ofPosition_in.mp hin'
  rw [cutsOf, Bound.upperCut, WithTop.coe_lt_coe, Cut.before_lt_after] at hlt
  rw [cutsOf, Bound.lowerCut, ← not_lt, Cut.before_lt_before, not_lt] at hle
  exact hne (le_antisymm hlt hle)

theorem equals_ensures {key : MarkerValueString}
    {canonical : CanonicalMarkerValueString} {value : String}
    (hplain : expressionEdges (.string key .equal value.toList) =
      some (.ok (.string canonical,
        .string (Edges.fromRange (.singleton value.toList)))))
    (hinv : SoundWith below Q s) :
    Ensures (SoundWith below Q) (equals key value) s fun s' id =>
      Means s' (id, canonical, value) := by
  have hvalid := Ranges.valid_singleton value.toList
  have hsimple := Edges.simple_string canonical hvalid
  simp only [equals, expression, hplain]
  refine (createNode_ensures hinv hsimple.fits (fun child hchild => ?_)
    fun child hchild => ?_).weaken
      fun id s' hinv' _ ⟨hvalidId, hrep⟩ => ⟨hvalidId, fun v => ?_,
        hrep.allVars rfl hsimple.fits.nodes_ne_nil fun child hchild => ?_⟩
  · rcases hsimple.terminal child hchild with rfl | rfl
    · exact valid_true
    · exact valid_false
  · rcases hsimple.terminal child hchild with rfl | rfl
    · exact .true
    · exact .false
  · obtain ⟨child, hpick⟩ := v.exists_picks hsimple.fits
    rw [hrep.holds_iff hinv'.1.wellFormed hpick]
    have hhas : ∀ point : Point (Cut Text), (Ranges.singleton value.toList).Has
        point ↔ point.In (cutsOf (.included value.toList, .included value.toList)) :=
      fun point => by simp [Ranges.Has, Ranges.singleton]
    rcases onEdge_fromRange_iff_has hvalid hpick with ⟨rfl, hin⟩ | ⟨rfl, hout⟩
    · simpa [Valuation.Is] using (hhas _).mp hin
    · simpa [Valuation.Is] using (hhas _).not.mp hout
  · rcases hsimple.terminal child hchild with rfl | rfl
    · exact .true
    · exact .false

omit [RangeOps ValidVersion] [RangeOps Text] in
theorem cache_createNode {var : Variable} {children : Edges}
    (hrun : (createNode var children).run s = some (r, s')) : s'.cache = s.cache := by
  change createNode var children s = _ at hrun
  simp only [createNode] at hrun
  split at hrun
  · cases hrun
  -- Whether the node is flipped makes no difference to the memo table.
  · split at hrun <;> split at hrun
    · cases hrun
      rfl
    · split at hrun <;> cases hrun <;> rfl
    · cases hrun
      rfl
    · split at hrun <;> cases hrun <;> rfl

/-- Only nodes have been added. -/
structure AddsNodes (s s' : Interner) : Prop where
  le : s ≤ s'
  cache : s'.cache = s.cache

/-- One more node whose meaning is known. -/
theorem equals_bind {start : Interner} {key : MarkerValueString}
    {canonical : CanonicalMarkerValueString} {value : String}
    {entries : List (NodeId × CanonicalMarkerValueString × String)} {β : Type}
    {next : NodeId → InternerM β} {post : Interner → β → Prop}
    {Inv : Interner → Prop} (hadds : AddsNodes start s) (hinv : SoundWith below Q s)
    (hknown : ∀ entry ∈ entries, Means s entry)
    (hnext : ∀ id s', AddsNodes start s' → SoundWith below Q s' →
      (∀ entry ∈ (id, canonical, value) :: entries, Means s' entry) →
        Ensures Inv (next id) s' post)
    (hplain : expressionEdges (.string key .equal value.toList) =
      some (.ok (.string canonical,
        .string (Edges.fromRange (.singleton value.toList))))) :
    Ensures Inv (equals key value >>= next) s post := by
  obtain ⟨id, s', hrun, hinv', hle, hmeans⟩ := equals_ensures hplain hinv
  have hcache : s'.cache = s.cache := by
    have hcreate := hrun
    simp only [equals, expression, hplain] at hcreate
    exact cache_createNode hcreate
  have hadds' : AddsNodes start s' := ⟨hadds.le.trans hle, hcache.trans hadds.cache⟩
  have hknown' : ∀ entry ∈ (id, canonical, value) :: entries, Means s' entry := by
    intro entry hentry
    rcases List.mem_cons.mp hentry with rfl | hold
    · exact hmeans
    · exact (hknown entry hold).mono hinv.1.wellFormed hinv'.1.wellFormed hle
  obtain ⟨value, s'', hrun', hinv'', hle', hpost⟩ := hnext id s' hadds' hinv' hknown'
  refine ⟨value, s'', ?_, hinv'', hle.trans hle', hpost⟩
  rw [StateT.run_bind, hrun]
  exact hrun'

/-! ## The tree -/

/-- The disjunction of the conjunctions of all pairs. -/
theorem foldlM_pairs_ensures {pairs : List (NodeId × NodeId)} (hopen : Open below s)
    (hvalid : ∀ pair ∈ pairs, s.Valid pair.1 ∧ s.Valid pair.2) :
    Ensures (Open below) (pairs.foldlM (fun tree (a, b) => do
        let aAndB ← conjunction a b
        disjunction tree aAndB) NodeId.FALSE) s fun s' tree => s'.Valid tree ∧
      ∀ v, Holds s' v tree ↔
        ∃ pair ∈ pairs, Holds s' v pair.1 ∧ Holds s' v pair.2 := by
  let P (s' : Interner) (done : List (NodeId × NodeId)) (tree : NodeId) : Prop :=
    s'.Valid tree ∧ (∀ pair ∈ done, s'.Valid pair.1 ∧ s'.Valid pair.2) ∧
      ∀ v, Holds s' v tree ↔
        ∃ pair ∈ done, Holds s' v pair.1 ∧ Holds s' v pair.2
  have hstart : P s [] .FALSE := ⟨valid_false, by simp, by simp⟩
  have hstep : ∀ done, ∀ pair ∈ pairs, ∀ s' tree, s ≤ s' → Open below s' →
      P s' done tree → Ensures (Open below) (do
        let aAndB ← conjunction pair.1 pair.2
        disjunction tree aAndB) s' fun s'' tree' => P s'' (done ++ [pair]) tree' := by
    rintro done ⟨a, b⟩ hpair s' tree hle hopen' ⟨htree, hdone, hiff⟩
    obtain ⟨ha, hb⟩ := hvalid _ hpair
    have hwf := hopen'.1.wellFormed
    refine Ensures.bind (conjunction_exact hopen' (ha.mono hle) (hb.mono hle))
      fun both s₁ hopen₁ hle₁ ⟨hboth, hiffBoth⟩ => ?_
    have hwf₁ := hopen₁.1.wellFormed
    refine (disjunction_exact hopen₁ (htree.mono hle₁) hboth).weaken
      fun tree' s₂ hopen₂ hle₂ ⟨htree', hiffTree⟩ => ?_
    have hwf₂ := hopen₂.1.wellFormed
    have hle' := hle₁.trans hle₂
    refine ⟨htree', ?_, fun v => ?_⟩
    · intro pair hmem
      rcases List.mem_append.mp hmem with hold | hnew
      · exact ⟨(hdone pair hold).1.mono hle', (hdone pair hold).2.mono hle'⟩
      · rw [List.mem_singleton.mp hnew]
        exact ⟨(ha.mono hle).mono hle', (hb.mono hle).mono hle'⟩
    · have hsame : ∀ pair ∈ done, (Holds s' v pair.1 ∧ Holds s' v pair.2) ↔
          (Holds s₂ v pair.1 ∧ Holds s₂ v pair.2) := fun pair hmem => by
        rw [holds_mono hwf hwf₂ hle' (hdone pair hmem).1,
          holds_mono hwf hwf₂ hle' (hdone pair hmem).2]
      have hnew : Holds s₂ v both ↔ Holds s₂ v a ∧ Holds s₂ v b := by
        rw [holds_mono hwf₁ hwf₂ hle₂ hboth, hiffBoth,
          holds_mono hwf₁ hwf₂ hle₂ ((ha.mono hle).mono hle₁),
          holds_mono hwf₁ hwf₂ hle₂ ((hb.mono hle).mono hle₁)]
      rw [hiffTree, holds_mono hwf hwf₂ hle' htree, hiff, hnew]
      simp only [List.mem_append, List.mem_singleton, or_and_right, exists_or,
        exists_eq_left]
      exact or_congr_left (exists_congr fun pair =>
        and_congr_right fun hmem => hsame pair hmem)
  refine (Ensures.foldlM hopen hstart hstep).weaken fun tree s' _ _ hpost =>
    ⟨hpost.1, ?_⟩
  simpa using hpost.2.2

omit [RangeOps ValidVersion] [RangeOps Text] in
/-- Storing the tree keeps every promise: nothing has been rewritten yet. -/
theorem sound_of_open (hopen : Open below s) {tree : NodeId} (hvalid : s.Valid tree)
    (hiff : ∀ v, Holds s v tree ↔ v.Excluded) :
    Sound below { s with exclusions := some tree } ∧
      s ≤ { s with exclusions := some tree } := by
  let next : Interner := { s with exclusions := some tree }
  have hle : s ≤ next := ⟨List.prefix_refl _, fun _ hsome => by
    rw [hopen.2] at hsome
    cases hsome⟩
  have hwf := hopen.1.wellFormed
  have hwf' : next.WellFormed := ⟨hwf.node, hwf.unique⟩
  have hstratified : Stratified below next := fun node hmem child hchild =>
    (hopen.1.stratified node hmem child hchild).mono hle
  refine ⟨⟨hwf', hopen.1.strata, hstratified,
    fun hmem => (hopen.1.cache hmem).mono hwf hwf' hle, ?_⟩, hle⟩
  rintro _ ⟨⟩
  exact ⟨hvalid, fun v => (holds_mono hwf hwf' hle hvalid).trans (hiff v)⟩

omit [RangeOps ValidVersion] [RangeOps Text] in
/-- Pairs of nodes that mean the incompatible pairs. -/
theorem excluded_iff_of_forall₂ {pairs : List (NodeId × NodeId)} {v : Valuation}
    (hpairs : List.Forall₂ (fun pair names => Means s (pair.1, names.1) ∧
      Means s (pair.2, names.2)) pairs incompatiblePairs) :
    (∃ pair ∈ pairs, Holds s v pair.1 ∧ Holds s v pair.2) ↔ v.Excluded := by
  unfold Valuation.Excluded
  constructor
  · rintro ⟨pair, hmem, hfirst, hsecond⟩
    obtain ⟨names, hnames, hmeans, hmeans'⟩ :=
      exists_of_mem_forall₂ hpairs.flip hmem
    exact ⟨names, hnames, (hmeans.2 v).mp hfirst, (hmeans'.2 v).mp hsecond⟩
  · rintro ⟨names, hnames, hfirst, hsecond⟩
    obtain ⟨pair, hmem, hmeans, hmeans'⟩ := exists_of_mem_forall₂ hpairs hnames
    exact ⟨pair, hmem, (hmeans.2 v).mpr hfirst, (hmeans'.2 v).mpr hsecond⟩

omit [RangeOps ValidVersion] [RangeOps Text] in
/-- The pairs as `exclusions` builds them, the compatible ones left out. -/
private theorem forall₂_pairs {nt posix linux darwin ios win32 aix android
    emscripten cygwin wasi freebsd netbsd openbsd sunos iOS iPadOS : NodeId}
    (hknown : ∀ entry ∈ [(wasi, .sysPlatform, "wasi"),
      (cygwin, .sysPlatform, "cygwin"), (emscripten, .sysPlatform, "emscripten"),
      (android, .sysPlatform, "android"), (aix, .sysPlatform, "aix"),
      (iPadOS, .platformSystem, "iPadOS"), (iOS, .platformSystem, "iOS"),
      (sunos, .platformSystem, "SunOS"), (openbsd, .platformSystem, "OpenBSD"),
      (netbsd, .platformSystem, "NetBSD"), (freebsd, .platformSystem, "FreeBSD"),
      (win32, .sysPlatform, "win32"), (ios, .sysPlatform, "ios"),
      (darwin, .sysPlatform, "darwin"), (linux, .sysPlatform, "linux"),
      (posix, .osName, "posix"), (nt, .osName, "nt")], Means s entry) :
    List.Forall₂ (fun pair names => Means s (pair.1, names.1) ∧
        Means s (pair.2, names.2))
      ([(nt, linux), (nt, darwin), (nt, ios), (posix, win32)] ++
        [freebsd, netbsd, openbsd, sunos, iOS, iPadOS].flatMap
            fun platformSystem =>
          ([aix, android, emscripten, ios, linux, darwin, win32, cygwin,
            wasi].filter fun sysPlatform => !(sysPlatform == ios &&
                (platformSystem == iOS || platformSystem == iPadOS))).map
            fun sysPlatform => (platformSystem, sysPlatform))
      incompatiblePairs := by
  simp only [List.forall_mem_cons, List.not_mem_nil, false_imp_iff, implies_true,
    and_true] at hknown
  obtain ⟨hwasi, hcygwin, hemscripten, handroid, haix, hiPadOS, hiOS, hsunos,
    hopenbsd, hnetbsd, hfreebsd, hwin32, hios, hdarwin, hlinux, hposix, hnt⟩ :=
    hknown
  -- No other platform has the node of `ios`, and no other system those of iOS.
  have hsys : (aix == ios) = false ∧ (android == ios) = false ∧
      (emscripten == ios) = false ∧ (linux == ios) = false ∧
      (darwin == ios) = false ∧ (win32 == ios) = false ∧
      (cygwin == ios) = false ∧ (wasi == ios) = false := by
    simp only [beq_eq_false_iff_ne]
    exact ⟨haix.ne hios (by decide), handroid.ne hios (by decide),
      hemscripten.ne hios (by decide), hlinux.ne hios (by decide),
      hdarwin.ne hios (by decide), hwin32.ne hios (by decide),
      hcygwin.ne hios (by decide), hwasi.ne hios (by decide)⟩
  have hplatform : ((freebsd == iOS) = false ∧ (netbsd == iOS) = false ∧
      (openbsd == iOS) = false ∧ (sunos == iOS) = false) ∧
      (freebsd == iPadOS) = false ∧ (netbsd == iPadOS) = false ∧
      (openbsd == iPadOS) = false ∧ (sunos == iPadOS) = false := by
    simp only [beq_eq_false_iff_ne]
    exact ⟨⟨hfreebsd.ne hiOS (by decide), hnetbsd.ne hiOS (by decide),
      hopenbsd.ne hiOS (by decide), hsunos.ne hiOS (by decide)⟩,
      hfreebsd.ne hiPadOS (by decide), hnetbsd.ne hiPadOS (by decide),
      hopenbsd.ne hiPadOS (by decide), hsunos.ne hiPadOS (by decide)⟩
  simp only [incompatiblePairs, List.flatMap_cons, List.flatMap_nil,
    List.filter_cons, List.filter_nil, hsys, hplatform, beq_self_eq_true,
    Bool.or_false, Bool.or_true, Bool.true_or, Bool.false_and,
    Bool.true_and, Bool.not_false, Bool.not_true, if_true, Bool.false_eq_true,
    if_false, List.map_cons, List.map_nil, List.cons_append, List.nil_append,
    List.append_nil, List.forall₂_cons, String.reduceBEq]
  and_intros <;> first | assumption | exact .nil

/-- Building the tree from pairs that mean the incompatible pairs. -/
theorem storePairs_ensures {pairs : List (NodeId × NodeId)}
    (hopen : Open below s) (hpairs : List.Forall₂ (fun pair names =>
      Means s (pair.1, names.1) ∧ Means s (pair.2, names.2)) pairs
        incompatiblePairs) :
    Ensures (Sound below) (do
      let tree ← pairs.foldlM (fun tree (a, b) => do
        let aAndB ← conjunction a b
        disjunction tree aAndB) NodeId.FALSE
      modify fun interner => { interner with exclusions := some tree }
      pure tree) s fun s' tree => s'.exclusions = some tree := by
  have hvalid : ∀ pair ∈ pairs, s.Valid pair.1 ∧ s.Valid pair.2 := by
    intro pair hmem
    obtain ⟨names, -, hmeans, hmeans'⟩ := exists_of_mem_forall₂ hpairs.flip hmem
    exact ⟨hmeans.valid, hmeans'.valid⟩
  obtain ⟨tree, s', hrun, hopen', hle, htree, hiff⟩ :=
    foldlM_pairs_ensures hopen hvalid
  have hpairs' := hpairs.imp fun pair names hmeans =>
    And.intro (hmeans.1.mono hopen.1.wellFormed hopen'.1.wellFormed hle)
      (hmeans.2.mono hopen.1.wellFormed hopen'.1.wellFormed hle)
  obtain ⟨hsound, hle'⟩ := sound_of_open hopen' htree fun v =>
    (hiff v).trans (excluded_iff_of_forall₂ hpairs')
  refine ⟨tree, { s' with exclusions := some tree }, ?_, hsound, hle.trans hle', rfl⟩
  rw [StateT.run_bind, hrun]
  rfl

/-- Building the exclusions comes down to storing pairs that mean the incompatible
pairs. -/
theorem exclusions_rule {Inv : Interner → Prop} {post : Interner → NodeId → Prop}
    (hopen : Open below s) (hstore : ∀ pairs s', AddsNodes s s' → Open below s' →
      List.Forall₂ (fun pair names => Means s' (pair.1, names.1) ∧
        Means s' (pair.2, names.2)) pairs incompatiblePairs →
      Ensures Inv (do
        let tree ← pairs.foldlM (fun tree (a, b) => do
          let aAndB ← conjunction a b
          disjunction tree aAndB) NodeId.FALSE
        modify fun interner => { interner with exclusions := some tree }
        pure tree) s' post) :
    Ensures Inv Pep508.exclusions s post := by
  unfold Pep508.exclusions
  refine Ensures.get_bind ?_
  rw [hopen.2]
  have hknown : ∀ entry ∈ ([] : List (NodeId × CanonicalMarkerValueString ×
      String)), Means s entry := by simp
  have hadds : AddsNodes s s := ⟨le_rfl, rfl⟩
  refine equals_bind hadds hopen hknown (fun nt s hadds hopen hknown => ?_) rfl
  refine equals_bind hadds hopen hknown (fun posix s hadds hopen hknown => ?_) rfl
  refine equals_bind hadds hopen hknown (fun linux s hadds hopen hknown => ?_) rfl
  refine equals_bind hadds hopen hknown (fun darwin s hadds hopen hknown => ?_) rfl
  refine equals_bind hadds hopen hknown (fun ios s hadds hopen hknown => ?_) rfl
  refine equals_bind hadds hopen hknown (fun win32 s hadds hopen hknown => ?_) rfl
  refine equals_bind hadds hopen hknown (fun freebsd s hadds hopen hknown => ?_) rfl
  refine equals_bind hadds hopen hknown (fun netbsd s hadds hopen hknown => ?_) rfl
  refine equals_bind hadds hopen hknown (fun openbsd s hadds hopen hknown => ?_) rfl
  refine equals_bind hadds hopen hknown (fun sunos s hadds hopen hknown => ?_) rfl
  refine equals_bind hadds hopen hknown (fun iOS s hadds hopen hknown => ?_) rfl
  refine equals_bind hadds hopen hknown (fun iPadOS s hadds hopen hknown => ?_) rfl
  refine equals_bind hadds hopen hknown (fun aix s hadds hopen hknown => ?_) rfl
  refine equals_bind hadds hopen hknown (fun android s hadds hopen hknown => ?_) rfl
  refine equals_bind hadds hopen hknown (fun emscripten s hadds hopen hknown => ?_) rfl
  refine equals_bind hadds hopen hknown (fun cygwin s hadds hopen hknown => ?_) rfl
  refine equals_bind hadds hopen hknown (fun wasi s hadds hopen hknown => ?_) rfl
  exact hstore _ s hadds hopen (forall₂_pairs hknown)

theorem exclusions_ensures (hsound : Sound below s) :
    Ensures (Sound below) Pep508.exclusions s fun s' tree => s'.exclusions = some tree := by
  cases hexclusions : s.exclusions with
  | some tree =>
      unfold Pep508.exclusions
      refine Ensures.get_bind ?_
      rw [hexclusions]
      exact Ensures.pure hsound hexclusions
  | none =>
      exact exclusions_rule ⟨hsound, hexclusions⟩ fun _ _ _ hopen hpairs =>
        storePairs_ensures hopen hpairs

/-! ## Conjunction, disjunction and disjointness -/

theorem checkExclusions_ensures (hsound : Sound below s) {xNode yNode : Node}
    (hx : s.node x = some xNode) (hy : s.node y = some yNode) (hconj : Conj s x y r) :
    Ensures (Sound below) (checkExclusions xNode yNode r) s (Conj · x y) := by
  unfold checkExclusions
  split
  case isTrue hboth =>
    refine Ensures.bind (exclusions_ensures hsound)
      fun tree s' hsound' hle htree => Ensures.get_bind ?_
    have hwf := hsound'.wellFormed
    have hconj' := hconj.mono hsound.wellFormed hwf hle
    obtain ⟨hvalid, hiff⟩ := hsound'.exclusions htree
    obtain ⟨answer, hanswer, hdisjoint⟩ := disjointness_sound hwf hconj'.valid
      (valid_not.mpr hvalid) (Nat.lt_succ_self _)
    rw [hanswer]
    cases answer with
    | false => exact Ensures.pure hsound' hconj'
    | true =>
        rw [Bool.and_eq_true] at hboth
        refine Ensures.pure hsound' ⟨hconj'.left, hconj'.right, valid_false, by simp,
          fun v hv hholdsX hholdsY => ?_, fun hpython => ?_, fun _ _ _ => .false⟩
        · have hnot : ¬ v.Excluded := hv.resolve_left (by simp [htree])
          refine (hdisjoint rfl v ⟨hconj'.complete v hv hholdsX hholdsY, ?_⟩).elim
          rw [holds_not hwf hvalid, hiff]
          exact hnot
        -- The check is only made where both roots are restricted.
        · rcases hpython with hvars | hvars
          · have hroot := (hvars.cases_node (node_mono hle hx)).1
            rw [hroot] at hboth
            cases hboth.1
          · have hroot := (hvars.cases_node (node_mono hle hy)).1
            rw [hroot] at hboth
            cases hboth.2
  case isFalse => exact Ensures.pure hsound hconj

theorem and_ensures (hsound : Sound below s) (hx : s.Valid x) (hy : s.Valid y) :
    Ensures (Sound below) (and x y) s (Conj · x y) := by
  have hand : Ensures (SoundWith below fun _ => True) (and x y) s (Conj · x y) :=
    (conjoins_sound below fun _ => True).combine_ensures (fun hinv _ hx hy hconj =>
      (checkExclusions_ensures hinv.1 hx hy hconj).imp_inv fun _ h => ⟨h, trivial⟩)
      ⟨hsound, trivial⟩ ⟨hx, hy⟩ (Nat.lt_succ_self _)
  exact hand.imp_inv fun _ h => h.1

/-- What is promised about the disjunction of two diagrams. -/
structure Disj (s : Interner) (x y r : NodeId) : Prop where
  valid : s.Valid r
  complete : ∀ v, Holds s v x ∨ Holds s v y → Holds s v r
  sound : ∀ v, s.exclusions = none ∨ ¬ v.Excluded → Holds s v r →
    Holds s v x ∨ Holds s v y
  vars : ∀ P, AllVars s P x → AllVars s P y → AllVars s P r

omit [RangeOps ValidVersion] [RangeOps Text] in
theorem Disj.mono (hwf : s.WellFormed) (hwf' : s'.WellFormed) (hle : s ≤ s')
    (hx : s.Valid x) (hy : s.Valid y) (hdisj : Disj s x y r) : Disj s' x y r where
  valid := hdisj.valid.mono hle
  complete v := by
    rw [holds_mono hwf hwf' hle hdisj.valid, holds_mono hwf hwf' hle hx,
      holds_mono hwf hwf' hle hy]
    exact hdisj.complete v
  sound v hv := by
    rw [holds_mono hwf hwf' hle hdisj.valid, holds_mono hwf hwf' hle hx,
      holds_mono hwf hwf' hle hy]
    exact hdisj.sound v (hv.imp_left (exclusions_eq_none_of_le hle))
  vars P hvarsX hvarsY := (hdisj.vars P (hvarsX.of_mono hwf hle hx)
    (hvarsY.of_mono hwf hle hy)).mono hle

theorem or_ensures (hsound : Sound below s) (hx : s.Valid x) (hy : s.Valid y) :
    Ensures (Sound below) (or x y) s (Disj · x y) := by
  refine Ensures.bind (and_ensures hsound (valid_not.mpr hx) (valid_not.mpr hy))
    fun r s' hsound' hle hconj => Ensures.pure hsound' ?_
  have hwf := hsound'.wellFormed
  have hnotX : ∀ v, Holds s' v x.not ↔ ¬ Holds s' v x :=
    fun v => holds_not hwf (hx.mono hle)
  have hnotY : ∀ v, Holds s' v y.not ↔ ¬ Holds s' v y :=
    fun v => holds_not hwf (hy.mono hle)
  refine ⟨valid_not.mpr hconj.valid, fun v hor => ?_, fun v hv => ?_,
    fun P hvarsX hvarsY => (hconj.vars P hvarsX.not hvarsY.not).not⟩
  · rw [holds_not hwf hconj.valid]
    intro hboth
    have hsplit := hconj.sound v hboth
    rw [hnotX, hnotY] at hsplit
    exact hor.elim hsplit.1 hsplit.2
  · rw [holds_not hwf hconj.valid]
    intro hnot
    by_contra hneither
    rw [not_or, ← hnotX, ← hnotY] at hneither
    exact hnot (hconj.complete v hv hneither.1 hneither.2)

theorem isDisjoint_ensures (hsound : Sound below s) (hx : s.Valid x) (hy : s.Valid y) :
    Ensures (Sound below) (isDisjoint x y) s fun s' answer => answer = true →
      ∀ v, s'.exclusions = none ∨ ¬ v.Excluded →
        ¬ (Holds s' v x ∧ Holds s' v y) := by
  have hwf := hsound.wellFormed
  unfold isDisjoint
  by_cases hfalse : (x.isFalse || y.isFalse) = true
  · rw [if_pos hfalse]
    refine Ensures.pure hsound fun _ v _ hboth => ?_
    rcases Bool.or_eq_true _ _ |>.mp hfalse with hx | hy
    · exact not_holds_false (NodeId.isFalse_iff.mp hx ▸ hboth.1)
    · exact not_holds_false (NodeId.isFalse_iff.mp hy ▸ hboth.2)
  rw [if_neg hfalse]
  by_cases htrue : (x.isTrue || y.isTrue) = true
  · rw [if_pos htrue]
    exact Ensures.pure hsound (by simp)
  rw [if_neg htrue]
  by_cases hsame : x = y
  · rw [if_pos hsame]
    exact Ensures.pure hsound (by simp)
  rw [if_neg hsame]
  by_cases hopposite : x.not = y
  · rw [if_pos hopposite]
    refine Ensures.pure hsound fun _ v _ hboth => ?_
    rw [← hopposite] at hboth
    exact (holds_not hwf hx).mp hboth.2 hboth.1
  rw [if_neg hopposite]
  obtain ⟨xNode, yNode, hxNode, hyNode⟩ := exists_nodes hx hy htrue hfalse
  refine readNode_bind hxNode (readNode_bind hyNode ?_)
  split
  · refine Ensures.bind (and_ensures hsound hx hy)
      fun r s' hsound' _ hconj => Ensures.pure hsound' fun hr v hv hboth => ?_
    have hholds := hconj.complete v hv hboth.1 hboth.2
    rw [NodeId.isFalse_iff.mp hr] at hholds
    exact not_holds_false hholds
  · refine Ensures.get_bind ?_
    obtain ⟨answer, hanswer, hdisjoint⟩ :=
      disjointness_sound hwf hx hy (Nat.lt_succ_self _)
    rw [hanswer]
    exact Ensures.pure hsound fun htrue v _ => hdisjoint htrue v

/-- Nodes that are not both about conflicting variables are compared as they are. -/
theorem isDisjoint_of_not_conflicting (hsound : Sound below s) (hx : s.Valid x)
    (hy : s.Valid y) (hvars : ∀ xNode yNode, s.node x = some xNode → s.node y = some yNode →
      (xNode.var.isConflictingVariable && yNode.var.isConflictingVariable) = false)
    {answer : Bool} (hanswer : disjointness s (x.rank + y.rank + 1) x y = some answer) :
    Ensures (Sound below) (isDisjoint x y) s fun s' result => result = answer ∧ s' = s := by
  have hstep := hanswer
  rw [disjointness] at hstep
  unfold isDisjoint
  by_cases hfalse : (x.isFalse || y.isFalse) = true
  · rw [if_pos hfalse] at hstep ⊢
    exact Ensures.pure hsound ⟨Option.some.inj hstep, rfl⟩
  rw [if_neg hfalse] at hstep ⊢
  by_cases htrue : (x.isTrue || y.isTrue) = true
  · rw [if_pos htrue] at hstep ⊢
    exact Ensures.pure hsound ⟨Option.some.inj hstep, rfl⟩
  rw [if_neg htrue] at hstep ⊢
  by_cases hsame : x = y
  · rw [if_pos hsame] at hstep ⊢
    exact Ensures.pure hsound ⟨Option.some.inj hstep, rfl⟩
  rw [if_neg hsame] at hstep ⊢
  by_cases hopposite : x.not = y
  · rw [if_pos hopposite] at hstep ⊢
    exact Ensures.pure hsound ⟨Option.some.inj hstep, rfl⟩
  rw [if_neg hopposite]
  obtain ⟨xNode, yNode, hxNode, hyNode⟩ := exists_nodes hx hy htrue hfalse
  refine readNode_bind hxNode (readNode_bind hyNode ?_)
  rw [hvars xNode yNode hxNode hyNode, if_neg Bool.false_ne_true]
  refine Ensures.get_bind ?_
  rw [hanswer]
  exact Ensures.pure hsound ⟨rfl, rfl⟩

end Interner

end Uv.Pep508
