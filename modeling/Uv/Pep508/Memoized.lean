import Uv.Pep508.ExclusionCheck
import Uv.Pep508.Growth

/-!
# Promises about every conjunction

A promise about the conjunction of two markers that each way of making one keeps holds for
every entry of the memo table, in every state that can be reached, whatever was computed
before: conjunctions are only ever memoized by `combine`, and everything else adds nodes at
most.
-/

namespace Uv.Pep508

open Uv.Core Uv.Pep440

/-- Every child of mapped edges has an image. -/
theorem Edges.Mapped.exists_image {related : NodeId → NodeId → Prop} {var : Variable}
    {edges edges' : Edges} (hmapped : Mapped related edges edges') (hfits : edges.Fits var)
    {child : NodeId} (hchild : child ∈ edges.nodes) :
    ∃ child' ∈ edges'.nodes, related child child' := by
  obtain ⟨v, hpick⟩ := Interner.exists_picks_of_mem hfits hchild
  obtain ⟨child', hpick'⟩ := v.exists_picks (hmapped.fits hfits)
  obtain ⟨source, hsource, hrelated⟩ := hmapped.picks hpick'
  rw [Valuation.picks_unique hfits hpick hsource]
  exact ⟨child', hpick'.mem, hrelated⟩

namespace Interner

variable {s s' : Interner} {x y r xi yi : NodeId} {xNode yNode : Node}
  {below : Variable → Variable → Prop}

/-! ## The pairs and the children -/

namespace Expanded

variable {Good Good' : NodeId → NodeId → NodeId → Prop} {var : Variable} {children : Edges}

theorem imp (himp : ∀ x y r, Good x y r → Good' x y r)
    (hexpanded : Expanded Good xi yi xNode yNode var children) :
    Expanded Good' xi yi xNode yNode var children := by
  cases hexpanded with
  | left hlt hmapped => exact .left hlt (hmapped.imp fun _ _ => himp _ _ _)
  | right hlt hmapped => exact .right hlt (hmapped.imp fun _ _ => himp _ _ _)
  | both heq hcombined =>
      refine .both heq ⟨hcombined.fits, hcombined.merged, fun hpick => ?_⟩
      obtain ⟨left, right, hleft, hright, hgood⟩ := hcombined.picks hpick
      exact ⟨left, right, hleft, hright, himp _ _ _ hgood⟩

/-- Every child is the result for one of the pairs. -/
theorem exists_subPair (hexpanded : Expanded Good xi yi xNode yNode var children)
    {child : NodeId} (hchild : child ∈ children.nodes) :
    ∃ xi' yi', SubPair xi yi xNode yNode xi' yi' ∧ Good xi' yi' child := by
  cases hexpanded with
  | left hlt hmapped =>
      obtain ⟨source, hsource, hgood⟩ := hmapped.exists_of_mem hchild
      exact ⟨_, _, .left hlt hsource, hgood⟩
  | right hlt hmapped =>
      obtain ⟨source, hsource, hgood⟩ := hmapped.exists_of_mem hchild
      exact ⟨_, _, .right hlt hsource, hgood⟩
  | both heq hcombined =>
      obtain ⟨v, hpick⟩ := exists_picks_of_mem hcombined.fits hchild
      obtain ⟨left, right, hleft, hright, hgood⟩ := hcombined.picks hpick
      exact ⟨_, _, .both heq hleft hright, hgood⟩

/-- Every pair has its result among the children. -/
theorem exists_child (hwf : WellFormed s) (hx : s.node xi = some xNode)
    (hy : s.node yi = some yNode) (hexpanded : Expanded Good xi yi xNode yNode var children)
    {xi' yi' : NodeId} (hsub : SubPair xi yi xNode yNode xi' yi') :
    ∃ child ∈ children.nodes, Good xi' yi' child := by
  cases hexpanded with
  | left hlt hmapped =>
      cases hsub with
      | left _ hchild => exact hmapped.exists_image (hwf.fits hx) hchild
      | right hgt => exact absurd hgt hlt.not_gt
      | both heq => exact absurd heq hlt.ne
  | right hlt hmapped =>
      cases hsub with
      | left hgt => exact absurd hgt hlt.not_gt
      | right _ hchild => exact hmapped.exists_image (hwf.fits hy) hchild
      | both heq => exact absurd heq hlt.ne'
  | both heq hcombined =>
      cases hsub with
      | left hlt => exact absurd heq hlt.ne
      | right hlt => exact absurd heq hlt.ne'
      | @both left right v _ hleft hright =>
          obtain ⟨child, hpick⟩ := v.exists_picks hcombined.fits
          obtain ⟨left', right', hleft', hright', hgood⟩ := hcombined.picks hpick
          have hfits : yNode.children.Fits xNode.var := heq ▸ hwf.fits hy
          rw [Valuation.picks_unique (hwf.fits hx) hleft hleft',
            Valuation.picks_unique hfits hright hright']
          exact ⟨child, hpick.mem, hgood⟩

end Expanded

/-! ## The rule -/

/-- A promise about the conjunction of two markers, kept by every way of making one. -/
structure Promise (below : Variable → Variable → Prop)
    (Kept : Interner → NodeId → NodeId → NodeId → Prop) : Prop where
  mono : ∀ {s s' x y r}, WellFormed s → WellFormed s' → s ≤ s' → Conj s x y r →
    Kept s x y r → Kept s' x y r
  left_true : ∀ s y, Kept s .TRUE y y
  right_true : ∀ s x, Kept s x .TRUE x
  same : ∀ s x, Kept s x x x
  left_false : ∀ s y, Kept s .FALSE y .FALSE
  right_false : ∀ s x, Kept s x .FALSE .FALSE
  opposite : ∀ {s x}, WellFormed s → s.Valid x → Kept s x x.not .FALSE
  create : ∀ {s xi yi x y var children r}, Sound below s → s.node xi = some x →
    s.node yi = some y → Expanded (fun x y r => Conj s x y r ∧ Kept s x y r) xi yi x y var
      children → Represents s var children r → Kept s xi yi r
  excluded : ∀ {s xi yi x y r}, Sound below s → s.node xi = some x → s.node yi = some y →
    (x.var.isConflictingVariable && y.var.isConflictingVariable) = true → Conj s xi yi r →
      (∀ v, Holds s v r → v.Excluded) → Kept s xi yi .FALSE

variable {Kept : Interner → NodeId → NodeId → NodeId → Prop}

/-- Every entry of the memo table keeps the promise. -/
def Keeping (Kept : Interner → NodeId → NodeId → NodeId → Prop) (s : Interner) : Prop :=
  ∀ ⦃x y r⦄, ((x, y), r) ∈ s.cache → Kept s x y r

/-- A state with more nodes and the same memo table. -/
theorem Promise.extend (hpromise : Promise below Kept) (hkeeping : Keeping Kept s)
    (hsound : Sound below s) (hwf' : WellFormed s') (hle : s ≤ s')
    (hcache : s'.cache = s.cache) : Keeping Kept s' := by
  intro x y r hmem
  rw [hcache] at hmem
  exact hpromise.mono hsound.wellFormed hwf' hle (hsound.cache hmem) (hkeeping hmem)

/-- Sound states with such a memo table, whose exclusions satisfy a condition. -/
def KeepingWith (below : Variable → Variable → Prop)
    (Kept : Interner → NodeId → NodeId → NodeId → Prop) (Q : Option NodeId → Prop)
    (s : Interner) : Prop :=
  SoundWith below Q s ∧ Keeping Kept s

variable [RangeOps ValidVersion] [RangeOps Text]

omit [RangeOps ValidVersion] [RangeOps Text] in
theorem Promise.conjoins (hpromise : Promise below Kept) (Q : Option NodeId → Prop) :
    Conjoins (KeepingWith below Kept Q) (fun s x y => s.Valid x ∧ s.Valid y)
      (fun s x y r => Conj s x y r ∧ Kept s x y r) where
  wellFormed hinv := hinv.1.1.wellFormed
  stable _ _ _ _ _ hinv hinv' hle hgood := by
    have hwf := hinv.1.1.wellFormed
    have hwf' := hinv'.1.1.wellFormed
    exact ⟨hgood.1.mono hwf hwf' hle, hpromise.mono hwf hwf' hle hgood.1 hgood.2⟩
  pre_stable _ _ _ _ _ _ hle hpre := ⟨hpre.1.mono hle, hpre.2.mono hle⟩
  pre_valid hpre := hpre
  left_true hinv hpre :=
    ⟨(conjoins_sound below Q).left_true hinv.1 hpre, hpromise.left_true _ _⟩
  right_true hinv hpre :=
    ⟨(conjoins_sound below Q).right_true hinv.1 hpre, hpromise.right_true _ _⟩
  same hinv hpre := ⟨(conjoins_sound below Q).same hinv.1 hpre, hpromise.same _ _⟩
  left_false hinv hpre :=
    ⟨(conjoins_sound below Q).left_false hinv.1 hpre, hpromise.left_false _ _⟩
  right_false hinv hpre :=
    ⟨(conjoins_sound below Q).right_false hinv.1 hpre, hpromise.right_false _ _⟩
  opposite hinv hpre := ⟨(conjoins_sound below Q).opposite hinv.1 hpre,
    hpromise.opposite hinv.1.1.wellFormed hpre.1⟩
  cached hinv _ hmem := ⟨hinv.1.1.cache hmem, hinv.2 hmem⟩
  pre_sub hinv _ hx hy hsub := hsub.valid hinv.1.1.wellFormed hx hy
  create := by
    intro s xi yi x y var children ⟨hinv, hkeeping⟩ hpre hx hy hexpanded
    have hwf := hinv.1.wellFormed
    have hconj : Expanded (Conj s) xi yi x y var children :=
      hexpanded.imp fun _ _ _ => And.left
    have hvalid : ∀ child ∈ children.nodes, s.Valid child := by
      intro child hchild
      obtain ⟨_, _, -, hchildConj⟩ := hconj.exists_subPair hchild
      exact hchildConj.valid
    obtain ⟨r, s', hrun, hinv', hle, hgood⟩ :=
      (conjoins_sound below Q).create hinv hpre hx hy hconj
    obtain ⟨_, _, hrun', -, -, hcache, -, hrep, -⟩ :=
      createNode_spec hwf (hconj.fits hwf hx hy) hvalid
    rw [hrun] at hrun'
    cases hrun'
    have hwf' := hinv'.1.wellFormed
    have hchildren : Expanded (fun x y r => Conj s' x y r ∧ Kept s' x y r) xi yi x y var
        children :=
      hexpanded.imp fun _ _ _ hchild => ⟨hchild.1.mono hwf hwf' hle,
        hpromise.mono hwf hwf' hle hchild.1 hchild.2⟩
    exact ⟨r, s', hrun, ⟨hinv', hpromise.extend hkeeping hinv.1 hwf' hle hcache⟩, hle, hgood,
      hpromise.create hinv'.1 (node_mono hle hx) (node_mono hle hy) hchildren hrep⟩
  memoize := by
    intro s x y r ⟨hinv, hkeeping⟩ ⟨hconj, hkept⟩
    have hinv' := (conjoins_sound below Q).memoize hinv hconj
    let next : Interner := { s with cache := ((x, y), r) :: s.cache }
    have hle : s ≤ next := ⟨List.prefix_refl _, fun _ h => h⟩
    have hmono : ∀ {x y r}, Conj s x y r → Kept s x y r → Kept next x y r :=
      hpromise.mono hinv.1.wellFormed hinv'.1.wellFormed hle
    refine ⟨hinv', fun _ _ _ hmem => ?_⟩
    rcases List.mem_cons.mp hmem with heq | hold
    · cases heq
      exact hmono hconj hkept
    · exact hmono (hinv.1.cache hold) (hkeeping hold)

/-! ## Building the exclusions -/

namespace Promise

theorem conjunction_ensures (hpromise : Promise below Kept) {Q : Option NodeId → Prop}
    (hinv : KeepingWith below Kept Q s) (hx : s.Valid xi) (hy : s.Valid yi) :
    Ensures (KeepingWith below Kept Q) (conjunction xi yi) s fun s' r => s'.Valid r :=
  ((hpromise.conjoins Q).combine_ensures (fun hinv _ _ _ hgood => Ensures.pure hinv hgood)
    hinv ⟨hx, hy⟩ (Nat.lt_succ_self _)).weaken fun _ _ _ _ hgood => hgood.1.valid

theorem disjunction_ensures (hpromise : Promise below Kept) {Q : Option NodeId → Prop}
    (hinv : KeepingWith below Kept Q s) (hx : s.Valid xi) (hy : s.Valid yi) :
    Ensures (KeepingWith below Kept Q) (disjunction xi yi) s fun s' r => s'.Valid r := by
  apply (hpromise.conjunction_ensures hinv (valid_not.mpr hx) (valid_not.mpr hy)).bind
  intro r s' hinv' _ hvalid
  exact Ensures.pure hinv' (valid_not.mpr hvalid)

theorem exclusions_ensures (hpromise : Promise below Kept) (hsound : Sound below s)
    (hkeeping : Keeping Kept s) :
    Ensures (Keeping Kept) Pep508.exclusions s fun _ _ => True := by
  cases hexclusions : s.exclusions with
  | some tree =>
      unfold Pep508.exclusions
      apply Ensures.get_bind
      rw [hexclusions]
      exact Ensures.pure hkeeping trivial
  | none =>
      apply exclusions_rule ⟨hsound, hexclusions⟩
      intro pairs s₁ hadds hopen hpairs
      have hinv : KeepingWith below Kept (· = none) s₁ :=
        ⟨hopen, hpromise.extend hkeeping hsound hopen.1.wellFormed hadds.le hadds.cache⟩
      have hvalid : ∀ pair ∈ pairs, s₁.Valid pair.1 ∧ s₁.Valid pair.2 := by
        intro pair hmem
        obtain ⟨names, -, hmeans, hmeans'⟩ := exists_of_mem_forall₂ hpairs.flip hmem
        exact ⟨hmeans.valid, hmeans'.valid⟩
      have hfold : Ensures (KeepingWith below Kept (· = none))
          (pairs.foldlM (fun tree pair => do
            let aAndB ← conjunction pair.1 pair.2
            disjunction tree aAndB) NodeId.FALSE) s₁ fun s' tree => s'.Valid tree := by
        let P (s' : Interner) (_ : List (NodeId × NodeId)) (tree : NodeId) : Prop :=
          s'.Valid tree
        have hstart : P s₁ [] .FALSE := valid_false
        apply Ensures.foldlM hinv hstart
        rintro _ ⟨a, b⟩ hpair s' tree hle hinv' htree
        obtain ⟨ha, hb⟩ := hvalid _ hpair
        apply (hpromise.conjunction_ensures hinv' (ha.mono hle) (hb.mono hle)).bind
        intro both s'' hinv'' hle' hboth
        exact hpromise.disjunction_ensures hinv'' (htree.mono hle') hboth
      obtain ⟨tree, s₂, hrun, ⟨hopen₂, hkeeping₂⟩, hle, htree⟩ := hfold
      let last : Interner := { s₂ with exclusions := some tree }
      have hgrow : s₂ ≤ last := ⟨List.prefix_refl _, fun _ hsome => by
        rw [hopen₂.2] at hsome
        cases hsome⟩
      have hwf : WellFormed last := ⟨hopen₂.1.wellFormed.node, hopen₂.1.wellFormed.unique⟩
      refine ⟨tree, last, ?_, hpromise.extend hkeeping₂ hopen₂.1 hwf hgrow rfl,
        hle.trans hgrow, trivial⟩
      rw [StateT.run_bind, hrun]
      rfl

theorem checkExclusions_ensures (hpromise : Promise below Kept)
    (hinv : KeepingWith below Kept (fun _ => True) s) (hx : s.node xi = some xNode)
    (hy : s.node yi = some yNode) (hconj : Conj s xi yi r) (hkept : Kept s xi yi r) :
    Ensures (KeepingWith below Kept fun _ => True) (checkExclusions xNode yNode r) s
      fun s' r' => Conj s' xi yi r' ∧ Kept s' xi yi r' := by
  by_cases hboth : (xNode.var.isConflictingVariable && yNode.var.isConflictingVariable) = true
  · obtain ⟨r', last, hrun, hsound', hle, hconj'⟩ :=
      Interner.checkExclusions_ensures hinv.1.1 hx hy hconj
    obtain ⟨tree, s', hexclusions, hsoundTree, hleTree, htree⟩ :=
      Interner.exclusions_ensures hinv.1.1
    obtain ⟨hkeeping', -, -⟩ :=
      (hpromise.exclusions_ensures hinv.1.1 hinv.2).of_run hexclusions
    refine ⟨r', last, hrun, ?_⟩
    rw [checkExclusions, if_pos hboth, StateT.run_bind, hexclusions] at hrun
    simp only [Option.bind_eq_bind, Option.bind_some, run_get_bind] at hrun
    have hwf := hsoundTree.wellFormed
    have hconjTree := hconj.mono hinv.1.1.wellFormed hwf hleTree
    obtain ⟨hvalid, hiff⟩ := hsoundTree.exclusions htree
    obtain ⟨answer, hanswer, hdisjoint⟩ := disjointness_sound hwf hconjTree.valid
      (valid_not.mpr hvalid) (Nat.lt_succ_self _)
    rw [hanswer] at hrun
    cases answer with
    | false =>
        cases hrun
        exact ⟨⟨⟨hsound', trivial⟩, hkeeping'⟩, hle, hconj',
          hpromise.mono hinv.1.1.wellFormed hwf hle hconj hkept⟩
    | true =>
        have hexcluded : ∀ v, Holds s' v r → v.Excluded := by
          intro v hholds
          by_contra hnot
          refine hdisjoint rfl v ⟨hholds, ?_⟩
          rw [holds_not hwf hvalid, hiff]
          exact hnot
        cases hrun
        exact ⟨⟨⟨hsound', trivial⟩, hkeeping'⟩, hle, hconj', hpromise.excluded hsoundTree
          (node_mono hleTree hx) (node_mono hleTree hy) hboth hconjTree hexcluded⟩
  · rw [checkExclusions, if_neg hboth]
    exact Ensures.pure hinv ⟨hconj, hkept⟩

end Promise

/-! ## Operations that use the memo table -/

omit [RangeOps ValidVersion] [RangeOps Text] in
theorem run_readNode_bind {β : Type} {node : Node} {next : Node → InternerM β}
    (hnode : s.node xi = some node) : (readNode xi >>= next).run s = (next node).run s := by
  have hread : (readNode xi).run s = some (node, s) := by
    change (s.node xi).map _ = _
    rw [hnode]
    rfl
  rw [StateT.run_bind, hread]
  rfl

/-- Sound states whose memo table keeps the promise. -/
def Consistent (below : Variable → Variable → Prop)
    (Kept : Interner → NodeId → NodeId → NodeId → Prop) (s : Interner) : Prop :=
  Sound below s ∧ Keeping Kept s

namespace Promise

theorem and_ensures (hpromise : Promise below Kept) (hinv : Consistent below Kept s)
    (hx : s.Valid xi) (hy : s.Valid yi) :
    Ensures (Consistent below Kept) (and xi yi) s
      fun s' r => Conj s' xi yi r ∧ Kept s' xi yi r := by
  have hand : Ensures (KeepingWith below Kept fun _ => True) (and xi yi) s
      fun s' r => Conj s' xi yi r ∧ Kept s' xi yi r :=
    (hpromise.conjoins fun _ => True).combine_ensures
      (fun hinv _ hx hy hgood => hpromise.checkExclusions_ensures hinv hx hy hgood.1 hgood.2)
      ⟨⟨hinv.1, trivial⟩, hinv.2⟩ ⟨hx, hy⟩ (Nat.lt_succ_self _)
  exact hand.imp_inv fun _ hinv' => ⟨hinv'.1.1, hinv'.2⟩

theorem or_ensures (hpromise : Promise below Kept) (hinv : Consistent below Kept s)
    (hx : s.Valid xi) (hy : s.Valid yi) :
    Ensures (Consistent below Kept) (or xi yi) s
      fun s' r => Conj s' xi.not yi.not r.not ∧ Kept s' xi.not yi.not r.not := by
  apply (hpromise.and_ensures hinv (valid_not.mpr hx) (valid_not.mpr hy)).bind
  intro r s' hinv' _ hgood
  apply Ensures.pure hinv'
  rwa [NodeId.not_not]

/-- The state is that of the conjunction, if it is computed. -/
theorem isDisjoint_allows (hpromise : Promise below Kept) (hinv : Consistent below Kept s)
    (hx : s.Valid xi) (hy : s.Valid yi) :
    Allows (Consistent below Kept) (isDisjoint xi yi) s fun _ _ => True := by
  rw [isDisjoint]
  split_ifs with hfalse htrue
  · exact .pure hinv trivial
  · exact .pure hinv trivial
  · exact .pure hinv trivial
  · exact .pure hinv trivial
  obtain ⟨x, y, hx', hy'⟩ := exists_nodes hx hy htrue hfalse
  apply readNode_allows hx'
  apply readNode_allows hy'
  split
  · apply Allows.bind (.of_ensures (hpromise.and_ensures hinv hx hy))
    intro r s' hinv' _ _
    exact .pure hinv' trivial
  · intro answer s' hrun
    rw [run_get_bind] at hrun
    split at hrun
    · cases hrun
    · cases hrun
      exact ⟨hinv, le_rfl, trivial⟩

theorem anyChild_ensures (hpromise : Promise below Kept) {node : Node}
    (hinv : Consistent below Kept s) (hnode : s.node xi = some node) :
    Ensures (Consistent below Kept) (anyChild xi node) s fun s' tree => s'.Valid tree := by
  let P (s' : Interner) (_ : List NodeId) (tree : NodeId) : Prop := s'.Valid tree
  have hstart : P s [] .FALSE := valid_false
  apply Ensures.foldlM hinv hstart
  intro _ child hchild s' tree hle hinv' htree
  have hvalid := hinv.1.wellFormed.valid_child hnode hchild
  apply (hpromise.or_ensures hinv' htree ((valid_negate.mpr hvalid).mono hle)).weaken
  intro r s'' _ _ hgood
  exact valid_not.mp hgood.1.valid

theorem withoutVariables_keeping (hpromise : Promise below Kept) {drop : Variable → Bool}
    {fuel : ℕ} (hinv : Consistent below Kept s) (hvalid : s.Valid xi)
    (hrun : (withoutVariables drop fuel xi).run s = some (r, s')) : Keeping Kept s' := by
  induction fuel generalizing s xi r s' with
  | zero => cases hrun
  | succ fuel ih =>
      have hallows : ∀ {s xi}, Consistent below Kept s → s.Valid xi →
          Allows (Consistent below Kept) (withoutVariables drop fuel xi) s
            (Dropped drop · xi) := by
        intro s xi hinv hvalid r s' hrun
        obtain ⟨hsound', hle, hdropped⟩ := withoutVariables_allows hinv.1 hvalid r s' hrun
        exact ⟨⟨hsound', ih hinv hvalid hrun⟩, hle, hdropped⟩
      have hsound' := (withoutVariables_allows hinv.1 hvalid r s' hrun).1
      rw [withoutVariables] at hrun
      split at hrun
      · cases hrun
        exact hinv.2
      rename_i hterminal
      rw [Bool.or_eq_true, not_or, NodeId.isTrue_iff, NodeId.isFalse_iff] at hterminal
      obtain ⟨node, hnode⟩ :=
        (hvalid.cases.resolve_left hterminal.1).resolve_left hterminal.2
      rw [run_readNode_bind hnode] at hrun
      by_cases hdrop : drop node.var = true
      · rw [if_pos hdrop] at hrun
        obtain ⟨tree, s₁, hany, hinv₁, -, htree⟩ := hpromise.anyChild_ensures hinv hnode
        rw [StateT.run_bind, hany] at hrun
        simp only [Option.bind_eq_bind, Option.bind_some] at hrun
        split at hrun
        · cases hrun
          exact hinv₁.2
        · exact ih hinv₁ htree hrun
      · rw [if_neg hdrop, StateT.run_bind] at hrun
        obtain ⟨⟨children, s₁⟩, hmap, hcreate⟩ := Option.bind_eq_some_iff.mp hrun
        have hstable : ∀ x r, Stable (Consistent below Kept) (Dropped drop · x r) :=
          fun x r _ _ hinv hinv' => (rebuilds_dropped drop).stable x r hinv.1 hinv'.1
        obtain ⟨hinv₁, -, -⟩ := Edges.map_allows hstable hinv
          (fun s'' hle hinv'' child hchild => hallows hinv''
            ((hinv.1.wellFormed.valid_step hnode hchild).mono hle)) children s₁ hmap
        exact hpromise.extend hinv₁.2 hinv₁.1 hsound'.wellFormed
          (createNode_grows _ _ _ _ _ hcreate) (cache_createNode hcreate)

end Promise

/-! ## Operations that only add nodes -/

instance addsNodesPreorder : IsPreorder Interner AddsNodes where
  refl _ := ⟨le_rfl, rfl⟩
  trans _ _ _ hadds hadds' := ⟨hadds.le.trans hadds'.le, hadds'.cache.trans hadds.cache⟩

theorem createNode_adds (var : Variable) (children : Edges) :
    Moves AddsNodes (createNode var children) :=
  fun _ _ _ hrun => ⟨createNode_grows _ _ _ _ _ hrun, cache_createNode hrun⟩

omit [RangeOps ValidVersion] [RangeOps Text] in
theorem readNode_adds (id : NodeId) : Moves AddsNodes (readNode id) := by
  intro s node s' hrun
  obtain ⟨_, _, hpair⟩ := Option.map_eq_some_iff.mp hrun
  cases hpair
  exact ⟨le_rfl, rfl⟩

theorem expression_adds (expr : MarkerExpression) : Moves AddsNodes (expression expr) := by
  rw [expression]
  split
  · exact .failure
  · exact .pure _
  · exact createNode_adds _ _

theorem restrict_adds (f : Variable → Option Bool) (fuel : ℕ) (id : NodeId) :
    Moves AddsNodes (restrict f fuel id) := by
  induction fuel generalizing id with
  | zero => exact .failure
  | succ fuel ih =>
      rw [restrict]
      split
      · exact .pure _
      apply (readNode_adds id).bind
      intro node
      split
      · exact ih _
      · exact (Edges.map_moves ih _ _).bind fun _ => createNode_adds _ _

theorem simplifyPythonVersionsFuel_adds (pyLower pyUpper : Bound ValidVersion) (fuel : ℕ)
    (id : NodeId) : Moves AddsNodes (simplifyPythonVersionsFuel pyLower pyUpper fuel id) := by
  induction fuel generalizing id with
  | zero => exact .failure
  | succ fuel ih =>
      rw [simplifyPythonVersionsFuel]
      split
      · exact .pure _
      apply (readNode_adds id).bind
      intro node
      split
      · dsimp only
        split
        · exact .pure _
        · split
          · exact .failure
          · exact (createNode_adds _ _).bind fun _ => .pure _
      · exact (Edges.map_moves ih _ _).bind fun _ => createNode_adds _ _

theorem complexifyPythonVersionsFuel_adds (pyLower pyUpper : Bound ValidVersion) (fuel : ℕ)
    (id : NodeId) : Moves AddsNodes (complexifyPythonVersionsFuel pyLower pyUpper fuel id) := by
  induction fuel generalizing id with
  | zero => exact .failure
  | succ fuel ih =>
      rw [complexifyPythonVersionsFuel]
      split
      · exact .pure _
      dsimp only
      split
      · exact .pure _
      split
      · exact (createNode_adds _ _).bind fun _ => .pure _
      apply (readNode_adds id).bind
      intro node
      split
      · split
        · exact .failure
        · exact (createNode_adds _ _).bind fun _ => .pure _
      · exact (Edges.map_moves ih _ _).bind fun _ => createNode_adds _ _

/-! ## Runs -/

omit [RangeOps ValidVersion] [RangeOps Text] in
theorem run_of_map {α β : Type} {f : α → β} {action : InternerM α} {result : β}
    (hrun : (f <$> action).run s = some (result, s')) :
    ∃ value, action.run s = some (value, s') := by
  rw [map_eq_pure_bind, StateT.run_bind] at hrun
  obtain ⟨⟨value, _⟩, hfirst, hrest⟩ := Option.bind_eq_some_iff.mp hrun
  cases hrest
  exact ⟨value, hfirst⟩

/-- Every operation on valid markers keeps the promise. -/
theorem Promise.perform_consistent (hpromise : Promise below Kept) {op : Operation}
    {result : Option NodeId} (hinv : Consistent below Kept s)
    (hvalid : ∀ id ∈ op.arguments, s.Valid id) (hsound' : Sound below s')
    (hrun : op.perform.run s = some (result, s')) : Consistent below Kept s' := by
  have hadded : ∀ {action : InternerM NodeId}, Moves AddsNodes action →
      (some <$> action).run s = some (result, s') → Keeping Kept s' := by
    intro action hadds hrun
    obtain ⟨r, hrun⟩ := run_of_map hrun
    have hmoved := hadds _ _ _ hrun
    exact hpromise.extend hinv.2 hinv.1 hsound'.wellFormed hmoved.le hmoved.cache
  refine ⟨hsound', ?_⟩
  cases op with
  | expression expr => exact hadded (expression_adds expr) hrun
  | and x y =>
      obtain ⟨r, hrun⟩ := run_of_map hrun
      exact ((hpromise.and_ensures hinv (hvalid x (by simp [Operation.arguments]))
        (hvalid y (by simp [Operation.arguments]))).of_run hrun).1.2
  | or x y =>
      obtain ⟨r, hrun⟩ := run_of_map hrun
      exact ((hpromise.or_ensures hinv (hvalid x (by simp [Operation.arguments]))
        (hvalid y (by simp [Operation.arguments]))).of_run hrun).1.2
  | isDisjoint x y =>
      obtain ⟨answer, hrun⟩ := run_of_map hrun
      exact (hpromise.isDisjoint_allows hinv (hvalid x (by simp [Operation.arguments]))
        (hvalid y (by simp [Operation.arguments])) _ _ hrun).1.2
  | simplifyExtrasWith isExtra i => exact hadded (restrict_adds _ _ i) hrun
  | simplifyNotExtrasWith isExtra i => exact hadded (restrict_adds _ _ i) hrun
  | withoutExtras fuel i =>
      obtain ⟨r, hrun⟩ := run_of_map hrun
      exact hpromise.withoutVariables_keeping hinv
        (hvalid i (by simp [Operation.arguments])) hrun
  | onlyExtras fuel i =>
      obtain ⟨r, hrun⟩ := run_of_map hrun
      exact hpromise.withoutVariables_keeping hinv
        (hvalid i (by simp [Operation.arguments])) hrun
  | simplifyPythonVersions i pyLower pyUpper =>
      exact hadded (simplifyPythonVersionsFuel_adds _ _ _ i) hrun
  | complexifyPythonVersions i pyLower pyUpper =>
      exact hadded (complexifyPythonVersionsFuel_adds _ _ _ i) hrun

omit [RangeOps ValidVersion] [RangeOps Text] in
theorem consistent_default (hstrata : Strata below) :
    Consistent below Kept default :=
  ⟨sound_default hstrata, fun _ _ _ hmem => by cases hmem⟩

/-- In every reachable state the memo table keeps the promise. -/
theorem Reachable.consistent (hpromise : Promise Variable.Below Kept)
    (hreach : Reachable s) : Consistent Variable.Below Kept s := by
  induction hreach with
  | default => exact consistent_default strata_below
  | step op hreach hvalid hrun ih =>
      exact hpromise.perform_consistent ih hvalid
        (Reachable.step op hreach hvalid hrun).sound hrun

/-- The same for the runs that keep the order. -/
theorem ReachableInOrder.consistent (hpromise : Promise (· < ·) Kept)
    (hreach : ReachableInOrder s) : Consistent (· < ·) Kept s := by
  induction hreach with
  | default => exact consistent_default strata_lt
  | step op hreach hvalid hkeeps hrun ih =>
      exact hpromise.perform_consistent ih hvalid
        (ReachableInOrder.step op hreach hvalid hkeeps hrun).sound hrun

end Interner

end Uv.Pep508
