import Uv.Pep508.Accepting
import Uv.Pep508.Disjointness
import Uv.Pep508.ExpressionEdges

/-!
# Soundness of the marker algebra

The conjunction of two diagrams implies both of them.  It is implied by both
for every valuation that satisfies none of the incompatible pairs, and for every
valuation at all as long as the exclusions have not been built.  Every entry of
the memo table keeps this promise, so it does not matter what was computed
before.
-/

namespace Uv.Pep508

open Uv.Core Uv.Pep440

/-! ## Incompatible pairs -/

/-- The key has the given value. -/
def Valuation.Is (v : Valuation) (key : CanonicalMarkerValueString)
    (value : String) : Prop :=
  (v.string key).In (cutsOf (.included value.toList, .included value.toList))

/-- The known incompatible conditions. -/
def incompatiblePairs : List ((CanonicalMarkerValueString × String) ×
    (CanonicalMarkerValueString × String)) :=
  [((.osName, "nt"), (.sysPlatform, "linux")),
    ((.osName, "nt"), (.sysPlatform, "darwin")),
    ((.osName, "nt"), (.sysPlatform, "ios")),
    ((.osName, "posix"), (.sysPlatform, "win32"))] ++
  ["FreeBSD", "NetBSD", "OpenBSD", "SunOS", "iOS", "iPadOS"].flatMap
    fun platformSystem =>
      (["aix", "android", "emscripten", "ios", "linux", "darwin", "win32",
        "cygwin", "wasi"].filter fun sysPlatform => !(sysPlatform == "ios" &&
          (platformSystem == "iOS" || platformSystem == "iPadOS"))).map
        fun sysPlatform =>
          ((.platformSystem, platformSystem), (.sysPlatform, sysPlatform))

/-- The valuation satisfies an incompatible pair. -/
def Valuation.Excluded (v : Valuation) : Prop :=
  ∃ pair ∈ incompatiblePairs, v.Is pair.1.1 pair.1.2 ∧ v.Is pair.2.1 pair.2.2

namespace Interner

/-! ## The promise -/

/-- What is promised about the conjunction of two diagrams. -/
structure Conj (s : Interner) (x y r : NodeId) : Prop where
  left : s.Valid x
  right : s.Valid y
  valid : s.Valid r
  sound : ∀ v, Holds s v r → Holds s v x ∧ Holds s v y
  complete : ∀ v, s.exclusions = none ∨ ¬ v.Excluded → Holds s v x →
    Holds s v y → Holds s v r
  accepts : OnlyPython s x ∨ OnlyPython s y → ∀ v,
    Accepts s v r ↔ Accepts s v x ∧ Accepts s v y
  vars : ∀ P, AllVars s P x → AllVars s P y → AllVars s P r

/-- A relation between the variable of a node and the variables below it that
survives every expansion of the smaller variable. -/
structure Strata (below : Variable → Variable → Prop) : Prop where
  of_lt : ∀ {upper lower}, upper < lower → below upper lower
  trans : ∀ {upper middle lower}, upper < middle → below middle lower →
    below upper lower
  irrefl : ∀ {var}, below var var → var = .version .pythonFullVersion

theorem strata_lt : Strata (· < ·) :=
  ⟨id, lt_trans, fun hlt => (lt_irrefl _ hlt).elim⟩

/-- The order of the variables, except that the Python version may occur below
any variable. -/
def Variable.Below (upper lower : Variable) : Prop :=
  upper < lower ∨ lower = .version .pythonFullVersion

theorem strata_below : Strata Variable.Below where
  of_lt := .inl
  trans hlt hbelow := hbelow.imp_left hlt.trans
  irrefl hbelow := hbelow.elim (fun hlt => (lt_irrefl _ hlt).elim) id

/-- Below every node there are only variables the relation allows. -/
def Stratified (below : Variable → Variable → Prop) (s : Interner) : Prop :=
  ∀ node ∈ s.nodes, ∀ child ∈ node.children.nodes,
    AllVars s (below node.var) child

/-- The table is well-formed and stratified, and the memo table and the
exclusions mean what they should. -/
structure Sound (below : Variable → Variable → Prop) (s : Interner) : Prop where
  wellFormed : s.WellFormed
  strata : Strata below
  stratified : Stratified below s
  cache : ∀ {x y r}, ((x, y), r) ∈ s.cache → Conj s x y r
  exclusions : ∀ {tree}, s.exclusions = some tree →
    s.Valid tree ∧ ∀ v, Holds s v tree ↔ v.Excluded

variable {s s' : Interner} {x y r : NodeId}
  {below : Variable → Variable → Prop}

theorem sound_default (hstrata : Strata below) : Sound below default where
  wellFormed := wellFormed_default
  strata := hstrata
  stratified node hmem := by cases hmem
  cache hmem := by cases hmem
  exclusions hsome := by cases hsome

theorem Sound.allVars_child (hsound : Sound below s) {node : Node}
    (hnode : s.node x = some node) {child : NodeId}
    (hchild : child ∈ node.children.nodes) : AllVars s (below node.var) child := by
  obtain ⟨index, -, hget⟩ := exists_index hnode
  exact hsound.stratified node (List.mem_of_getElem? hget) child hchild

/-- Everything in a diagram whose root lies below a variable lies below it. -/
theorem Sound.allVars_of_lt (hsound : Sound below s) {node : Node} {var : Variable}
    (hnode : s.node x = some node) (hlt : var < node.var) :
    AllVars s (below var) x :=
  .node hnode (hsound.strata.of_lt hlt) fun _ hchild =>
    (hsound.allVars_child hnode hchild).imp fun _ => hsound.strata.trans hlt

theorem exclusions_eq_none_of_le (hle : s ≤ s') (hnone : s'.exclusions = none) :
    s.exclusions = none := by
  rw [Option.eq_none_iff_forall_ne_some]
  intro tree hsome
  rw [hle.2 tree hsome] at hnone
  cases hnone

namespace Conj

theorem of_iff (hx : s.Valid x) (hy : s.Valid y) (hr : s.Valid r)
    (hiff : ∀ v, Holds s v r ↔ Holds s v x ∧ Holds s v y)
    (haccepts : ∀ v, Accepts s v r ↔ Accepts s v x ∧ Accepts s v y)
    (hvars : ∀ P, AllVars s P x → AllVars s P y → AllVars s P r) :
    Conj s x y r :=
  ⟨hx, hy, hr, fun v => (hiff v).mp, fun v _ hx hy => (hiff v).mpr ⟨hx, hy⟩,
    fun _ => haccepts, hvars⟩

theorem symm (hconj : Conj s y x r) : Conj s x y r where
  left := hconj.right
  right := hconj.left
  valid := hconj.valid
  sound v hholds := (hconj.sound v hholds).symm
  complete v hv hx hy := hconj.complete v hv hy hx
  accepts hpython v := (hconj.accepts hpython.symm v).trans and_comm
  vars P hx hy := hconj.vars P hy hx

theorem mono (hwf : s.WellFormed) (hwf' : s'.WellFormed) (hle : s ≤ s')
    (hconj : Conj s x y r) : Conj s' x y r where
  left := hconj.left.mono hle
  right := hconj.right.mono hle
  valid := hconj.valid.mono hle
  sound v := by
    rw [holds_mono hwf hwf' hle hconj.valid, holds_mono hwf hwf' hle hconj.left,
      holds_mono hwf hwf' hle hconj.right]
    exact hconj.sound v
  complete v hv := by
    rw [holds_mono hwf hwf' hle hconj.valid, holds_mono hwf hwf' hle hconj.left,
      holds_mono hwf hwf' hle hconj.right]
    exact hconj.complete v (hv.imp_left (exclusions_eq_none_of_le hle))
  accepts hpython v := by
    rw [accepts_mono hwf hwf' hle hconj.valid, accepts_mono hwf hwf' hle hconj.left,
      accepts_mono hwf hwf' hle hconj.right]
    exact hconj.accepts (hpython.imp (·.of_mono hwf hle hconj.left)
      (·.of_mono hwf hle hconj.right)) v
  vars P hx hy := (hconj.vars P (hx.of_mono hwf hle hconj.left)
    (hy.of_mono hwf hle hconj.right)).mono hle

end Conj

/-- A state with more nodes and the same memo table and exclusions. -/
theorem Sound.extend (hsound : Sound below s) (hwf : s'.WellFormed) (hle : s ≤ s')
    (hstratified : Stratified below s') (hcache : s'.cache = s.cache)
    (hexclusions : s'.exclusions = s.exclusions) : Sound below s' where
  wellFormed := hwf
  strata := hsound.strata
  stratified := hstratified
  cache hmem := (hsound.cache (hcache ▸ hmem)).mono hsound.wellFormed hwf hle
  exclusions hsome := by
    obtain ⟨hvalid, hiff⟩ := hsound.exclusions (hexclusions ▸ hsome)
    exact ⟨hvalid.mono hle, fun v =>
      (holds_mono hsound.wellFormed hwf hle hvalid).trans (hiff v)⟩

/-- Sound states whose exclusions satisfy a condition. -/
def SoundWith (below : Variable → Variable → Prop) (Q : Option NodeId → Prop)
    (s : Interner) : Prop :=
  Sound below s ∧ Q s.exclusions

theorem createNode_ensures {Q : Option NodeId → Prop} {var : Variable}
    {children : Edges} (hinv : SoundWith below Q s) (hfits : children.Fits var)
    (hvalid : ∀ child ∈ children.nodes, s.Valid child)
    (hbelow : ∀ child ∈ children.nodes, AllVars s (below var) child) :
    Ensures (SoundWith below Q) (createNode var children) s fun s' r =>
      s'.Valid r ∧ Represents s' var children r := by
  obtain ⟨r, s', hrun, hwf, hle, hcache, hexclusions, hrep, hnodes⟩ :=
    createNode_spec hinv.1.wellFormed hfits hvalid
  have hstratified : Stratified below s' := by
    intro node hmem child hchild
    rcases hnodes node hmem with hold | ⟨rfl, hnew⟩
    · exact (hinv.1.stratified node hold child hchild).mono hle
    · rcases hnew child hchild with hchild | hchild
      · exact (hbelow child hchild).mono hle
      · exact NodeId.not_not child ▸ ((hbelow _ hchild).mono hle).not
  refine ⟨r, s', hrun, ⟨hinv.1.extend hwf hle hstratified hcache hexclusions, ?_⟩,
    hle, ?_, hrep⟩
  · rw [hexclusions]
    exact hinv.2
  · exact hrep.valid hfits.nodes_ne_nil fun child hchild => (hvalid child hchild).mono hle

/-- What is left of a diagram once a smaller variable has its value lies below
that variable. -/
theorem Cofactor.allVars_below (hsound : Sound below s) {v : Valuation}
    {var : Variable} (hcofactor : Cofactor s v var x y) :
    AllVars s (below var) y := by
  cases hcofactor with
  | child hnode hvar hpick =>
      exact hvar ▸ (hsound.allVars_child hnode hpick.mem).negate x
  | self hnode hlt => exact hsound.allVars_of_lt hnode hlt

theorem conjoins_sound (below : Variable → Variable → Prop)
    (Q : Option NodeId → Prop) :
    Conjoins (SoundWith below Q) (fun s x y => s.Valid x ∧ s.Valid y) Conj where
  wellFormed hinv := hinv.1.wellFormed
  stable _ _ _ _ _ hinv hinv' hle hconj :=
    hconj.mono hinv.1.wellFormed hinv'.1.wellFormed hle
  pre_stable _ _ _ _ _ _ hle hpre := ⟨hpre.1.mono hle, hpre.2.mono hle⟩
  pre_valid hpre := hpre
  left_true _ hpre := .of_iff hpre.1 hpre.2 hpre.2 (by simp) (by simp) fun _ _ hy => hy
  right_true _ hpre := .of_iff hpre.1 hpre.2 hpre.1 (by simp) (by simp) fun _ hx _ => hx
  same _ hpre := .of_iff hpre.1 hpre.2 hpre.1 (by simp) (by simp) fun _ hx _ => hx
  left_false _ hpre := .of_iff hpre.1 hpre.2 hpre.1 (by simp) (by simp) fun _ hx _ => hx
  right_false _ hpre := .of_iff hpre.1 hpre.2 hpre.2 (by simp) (by simp) fun _ _ hy => hy
  opposite hinv hpre := .of_iff hpre.1 hpre.2 valid_false
    (fun v => by simp [holds_not hinv.1.wellFormed hpre.1])
    (fun v => iff_of_false not_accepts_false fun hboth =>
      (holds_not hinv.1.wellFormed hpre.1).mp hboth.2.holds hboth.1.holds)
    fun _ _ _ => .false
  cached hinv _ hmem := hinv.1.cache hmem
  pre_sub hinv _ hx hy hsub := hsub.valid hinv.1.wellFormed hx hy
  create := by
    intro s xi yi x y var children hinv hpre hx hy hexpanded
    have hwf := hinv.1.wellFormed
    have hfits := hexpanded.fits hwf hx hy
    have hcofactors : ∀ {v : Valuation} {child}, v.Picks var children child →
        ∃ xi' yi', Cofactor s v var xi xi' ∧ Cofactor s v var yi yi' ∧
          Conj s xi' yi' child := fun hpick => by
      refine Expanded.cofactors ?_ hx hy hexpanded hpick
      exact fun _ _ _ => Conj.symm
    have hchild : ∀ child ∈ children.nodes, ∃ v xi' yi',
        Cofactor s v var xi xi' ∧ Cofactor s v var yi yi' ∧
          Conj s xi' yi' child := fun child hmem => by
      obtain ⟨v, hpick⟩ := exists_picks_of_mem hfits hmem
      exact ⟨v, hcofactors hpick⟩
    have hvalid : ∀ child ∈ children.nodes, s.Valid child := fun child hmem => by
      obtain ⟨v, xi', yi', -, -, hconj⟩ := hchild child hmem
      exact hconj.valid
    have hbelow : ∀ child ∈ children.nodes, AllVars s (below var) child :=
      fun child hmem => by
        obtain ⟨v, xi', yi', hcx, hcy, hconj⟩ := hchild child hmem
        exact hconj.vars _ (hcx.allVars_below hinv.1) (hcy.allVars_below hinv.1)
    refine (createNode_ensures hinv hfits hvalid hbelow).weaken
      fun r s' hinv' hle ⟨hvalidR, hrep⟩ => ?_
    have hwf' := hinv'.1.wellFormed
    -- At a valuation, the node is the conjunction of the two cofactors.
    have hpoint : ∀ v, ∃ child xi' yi', Conj s' xi' yi' child ∧
        (Holds s' v r ↔ Holds s' v child) ∧ (Holds s' v xi ↔ Holds s' v xi') ∧
        (Holds s' v yi ↔ Holds s' v yi') := by
      intro v
      obtain ⟨child, hpick⟩ := v.exists_picks hfits
      obtain ⟨xi', yi', hcx, hcy, hconj⟩ := hcofactors hpick
      refine ⟨child, xi', yi', hconj.mono hwf hwf' hle, hrep.holds_iff hwf' hpick,
        ?_, ?_⟩
      · rw [holds_mono hwf hwf' hle hpre.1, holds_mono hwf hwf' hle hconj.left]
        exact hcx.holds_iff hwf
      · rw [holds_mono hwf hwf' hle hpre.2, holds_mono hwf hwf' hle hconj.right]
        exact hcy.holds_iff hwf
    refine ⟨hpre.1.mono hle, hpre.2.mono hle, hvalidR, fun v hholds => ?_,
      fun v hv hholdsX hholdsY => ?_, fun hpython v => ?_, fun P hvarsX hvarsY => ?_⟩
    · obtain ⟨child, xi', yi', hconj, hr, hx, hy⟩ := hpoint v
      rw [hx, hy]
      exact hconj.sound v (hr.mp hholds)
    · obtain ⟨child, xi', yi', hconj, hr, hx, hy⟩ := hpoint v
      exact hr.mpr (hconj.complete v hv (hx.mp hholdsX) (hy.mp hholdsY))
    -- The variable of the node is no malformed name, so that its cofactors are picked.
    · have hpython' : OnlyPython s xi ∨ OnlyPython s yi :=
        hpython.imp (·.of_mono hwf hle hpre.1) (·.of_mono hwf hle hpre.2)
      have hvar := hexpanded.isArbitrary hx hy hpython'
      obtain ⟨child, hpick⟩ := v.exists_picks hfits
      obtain ⟨xi', yi', hcx, hcy, hconj⟩ := hcofactors hpick
      have hcofactor := hconj.accepts (hpython'.imp hcx.allVars hcy.allVars) v
      rw [hrep.accepts_iff hwf' hvar hpick, accepts_mono hwf hwf' hle hconj.valid,
        accepts_mono hwf hwf' hle hpre.1, accepts_mono hwf hwf' hle hpre.2, hcofactor,
        hcx.accepts_iff hwf hvar, hcy.accepts_iff hwf hvar]
    · have hvarsX := hvarsX.of_mono hwf hle hpre.1
      have hvarsY := hvarsY.of_mono hwf hle hpre.2
      refine hrep.allVars ?_ hfits.nodes_ne_nil fun child hmem => ?_
      · cases hexpanded with
        | left => exact (hvarsX.cases_node hx).1
        | right => exact (hvarsY.cases_node hy).1
        | both => exact (hvarsX.cases_node hx).1
      · obtain ⟨v, xi', yi', hcx, hcy, hconj⟩ := hchild child hmem
        exact (hconj.vars P (hcx.allVars hvarsX) (hcy.allVars hvarsY)).mono hle
  memoize := by
    intro s x y r hinv hconj
    let next : Interner := { s with cache := ((x, y), r) :: s.cache }
    have hle : s ≤ next := ⟨List.prefix_refl _, fun _ h => h⟩
    have hwf := hinv.1.wellFormed
    have hwf' : next.WellFormed := ⟨hwf.node, hwf.unique⟩
    have hstratified : Stratified below next := fun node hmem child hchild =>
      (hinv.1.stratified node hmem child hchild).mono hle
    refine ⟨⟨hwf', hinv.1.strata, hstratified, fun hmem => ?_, fun hsome => ?_⟩,
      hinv.2⟩
    · rcases List.mem_cons.mp hmem with heq | hold
      · cases heq
        exact hconj.mono hwf hwf' hle
      · exact (hinv.1.cache hold).mono hwf hwf' hle
    · obtain ⟨hvalid, hiff⟩ := hinv.1.exclusions hsome
      exact ⟨hvalid, fun v => (holds_mono hwf hwf' hle hvalid).trans (hiff v)⟩

end Interner

end Uv.Pep508
