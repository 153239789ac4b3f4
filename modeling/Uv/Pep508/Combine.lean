import Uv.Pep508.EdgeOperations
import Uv.Pep508.WellFormed

/-!
# The conjunction recursion

`and` and the conjunction used for the exclusions are one recursion.  The rule
below reduces a promise about their results to its base cases, to the memo table
and to one step: the node made from the results for the cofactors.
-/

namespace Uv.Pep508

open Uv.Core Uv.Pep440

namespace Interner

/-! ## Cofactors -/

theorem exists_picks_of_mem {var : Variable} {edges : Edges}
    (hfits : edges.Fits var) {child : NodeId} (hchild : child ∈ edges.nodes) :
    ∃ v : Valuation, v.Picks var edges child := by
  unfold Edges.Fits at hfits
  unfold Valuation.Picks
  cases hdomain : var.domain <;> cases edges <;> simp only [hdomain] at hfits ⊢
  · obtain ⟨point, -, hedge⟩ := hfits.exists_point separates_all hchild
    exact ⟨.at point (.ofPosition ⊥), hedge⟩
  · obtain ⟨point, -, hedge⟩ := hfits.exists_point separates_all hchild
    exact ⟨.at (.ofPosition ⊥) point, hedge⟩
  · simp only [Edges.nodes, List.mem_cons, List.not_mem_nil, or_false] at hchild
    rcases hchild with rfl | rfl
    · exact ⟨⟨fun _ => .ofPosition ⊥, fun _ => .ofPosition ⊥, fun _ => true⟩, rfl⟩
    · exact ⟨⟨fun _ => .ofPosition ⊥, fun _ => .ofPosition ⊥, fun _ => false⟩, rfl⟩

/-- What is left of a diagram once the variable has its value: the picked child
of a node for the variable, and the diagram itself below that variable. -/
inductive Cofactor (s : Interner) (v : Valuation) (var : Variable)
    (id : NodeId) : NodeId → Prop where
  | child {node : Node} {child : NodeId} (hnode : s.node id = some node)
      (hvar : node.var = var) (hpick : v.Picks node.var node.children child) :
      Cofactor s v var id (child.negate id)
  | self {node : Node} (hnode : s.node id = some node) (hlt : var < node.var) :
      Cofactor s v var id id

variable {s s' : Interner} {v : Valuation} {var : Variable} {id id' : NodeId}

theorem Cofactor.holds_iff (hwf : WellFormed s)
    (hcofactor : Cofactor s v var id id') : Holds s v id ↔ Holds s v id' := by
  cases hcofactor with
  | child hnode _ hpick => exact holds_iff_child hwf hnode hpick
  | self => rfl

theorem Cofactor.allVars {P : Variable → Prop}
    (hcofactor : Cofactor s v var id id') (hvars : AllVars s P id) :
    AllVars s P id' := by
  cases hcofactor with
  | child hnode _ hpick =>
      exact ((hvars.cases_node hnode).2 _ hpick.mem).negate id
  | self => exact hvars

/-! ## One step -/

/-- The pairs of nodes a pair is reduced to. -/
inductive SubPair (xi yi : NodeId) (x y : Node) : NodeId → NodeId → Prop where
  | left {child : NodeId} (hlt : x.var < y.var)
      (hchild : child ∈ x.children.nodes) :
      SubPair xi yi x y (child.negate xi) yi
  | right {child : NodeId} (hlt : y.var < x.var)
      (hchild : child ∈ y.children.nodes) :
      SubPair xi yi x y (child.negate yi) xi
  | both {left right : NodeId} {v : Valuation} (heq : x.var = y.var)
      (hleft : v.Picks x.var x.children left)
      (hright : v.Picks x.var y.children right) :
      SubPair xi yi x y (left.negate xi) (right.negate yi)

theorem SubPair.rank_lt {xi yi xi' yi' : NodeId} {x y : Node} (hwf : WellFormed s)
    (hx : s.node xi = some x) (hy : s.node yi = some y)
    (hsub : SubPair xi yi x y xi' yi') :
    xi'.rank + yi'.rank < xi.rank + yi.rank := by
  cases hsub with
  | left _ hchild =>
      have hlt := hwf.rank_lt hx hchild
      rw [NodeId.rank_negate]
      omega
  | right _ hchild =>
      have hlt := hwf.rank_lt hy hchild
      rw [NodeId.rank_negate]
      omega
  | both _ hleft hright =>
      have hltLeft := hwf.rank_lt hx hleft.mem
      have hltRight := hwf.rank_lt hy hright.mem
      rw [NodeId.rank_negate, NodeId.rank_negate]
      omega

theorem SubPair.valid {xi yi xi' yi' : NodeId} {x y : Node} (hwf : WellFormed s)
    (hx : s.node xi = some x) (hy : s.node yi = some y)
    (hsub : SubPair xi yi x y xi' yi') : s.Valid xi' ∧ s.Valid yi' := by
  cases hsub with
  | left _ hchild =>
      exact ⟨hwf.valid_step hx hchild, valid_of_node hy⟩
  | right _ hchild =>
      exact ⟨hwf.valid_step hy hchild, valid_of_node hx⟩
  | both _ hleft hright =>
      exact ⟨hwf.valid_step hx hleft.mem, hwf.valid_step hy hright.mem⟩

/-- The edges made from the results for the cofactors of two nodes. -/
inductive Expanded (Good : NodeId → NodeId → NodeId → Prop) (xi yi : NodeId)
    (x y : Node) : Variable → Edges → Prop where
  | left {children : Edges} (hlt : x.var < y.var)
      (hmapped : Edges.Mapped (fun child r => Good (child.negate xi) yi r)
        x.children children) :
      Expanded Good xi yi x y x.var children
  | right {children : Edges} (hlt : y.var < x.var)
      (hmapped : Edges.Mapped (fun child r => Good (child.negate yi) xi r)
        y.children children) :
      Expanded Good xi yi x y y.var children
  | both {children : Edges} (heq : x.var = y.var)
      (hcombined : Edges.Combined Good x.var x.children xi y.children yi
        children) :
      Expanded Good xi yi x y x.var children

namespace Expanded

variable {Good : NodeId → NodeId → NodeId → Prop} {xi yi : NodeId} {x y : Node}
  {children : Edges}

theorem fits (hwf : WellFormed s) (hx : s.node xi = some x)
    (hy : s.node yi = some y) (hexpanded : Expanded Good xi yi x y var children) :
    children.Fits var := by
  cases hexpanded with
  | left _ hmapped => exact hmapped.fits (hwf.fits hx)
  | right _ hmapped => exact hmapped.fits (hwf.fits hy)
  | both _ hcombined => exact hcombined.fits

/-- Every child is the result for cofactors. -/
theorem cofactors (hsymm : ∀ x y r, Good y x r → Good x y r)
    (hx : s.node xi = some x) (hy : s.node yi = some y)
    (hexpanded : Expanded Good xi yi x y var children) {child : NodeId}
    (hpick : v.Picks var children child) :
    ∃ xi' yi', Cofactor s v var xi xi' ∧ Cofactor s v var yi yi' ∧
      Good xi' yi' child := by
  cases hexpanded with
  | left hlt hmapped =>
      obtain ⟨child', hpick', hgood⟩ := hmapped.picks hpick
      exact ⟨_, _, .child hx rfl hpick', .self hy hlt, hgood⟩
  | right hlt hmapped =>
      obtain ⟨child', hpick', hgood⟩ := hmapped.picks hpick
      exact ⟨_, _, .self hx hlt, .child hy rfl hpick', hsymm _ _ _ hgood⟩
  | both heq hcombined =>
      obtain ⟨left, right, hleft, hright, hgood⟩ := hcombined.picks hpick
      rw [heq] at hright
      exact ⟨_, _, .child hx rfl hleft, .child hy heq.symm hright, hgood⟩

end Expanded

/-! ## The rule -/

/-- A promise `Good` about the conjunction of two nodes that satisfy `Pre`, kept
by every state that satisfies `Inv`. -/
structure Conjoins (Inv : Interner → Prop) (Pre : Interner → NodeId → NodeId → Prop)
    (Good : Interner → NodeId → NodeId → NodeId → Prop) : Prop where
  wellFormed : ∀ {s}, Inv s → WellFormed s
  stable : ∀ x y r, Stable Inv (Good · x y r)
  pre_stable : ∀ x y, Stable Inv (Pre · x y)
  pre_valid : ∀ {s x y}, Pre s x y → s.Valid x ∧ s.Valid y
  left_true : ∀ {s y}, Inv s → Pre s .TRUE y → Good s .TRUE y y
  right_true : ∀ {s x}, Inv s → Pre s x .TRUE → Good s x .TRUE x
  same : ∀ {s x}, Inv s → Pre s x x → Good s x x x
  left_false : ∀ {s y}, Inv s → Pre s .FALSE y → Good s .FALSE y .FALSE
  right_false : ∀ {s x}, Inv s → Pre s x .FALSE → Good s x .FALSE .FALSE
  opposite : ∀ {s x}, Inv s → Pre s x x.not → Good s x x.not .FALSE
  cached : ∀ {s x y r}, Inv s → Pre s x y → ((x, y), r) ∈ s.cache → Good s x y r
  pre_sub : ∀ {s xi yi x y xi' yi'}, Inv s → Pre s xi yi → s.node xi = some x →
    s.node yi = some y → SubPair xi yi x y xi' yi' → Pre s xi' yi'
  create : ∀ {s xi yi x y var children}, Inv s → Pre s xi yi →
    s.node xi = some x → s.node yi = some y →
      Expanded (Good s) xi yi x y var children →
        Ensures Inv (createNode var children) s (Good · xi yi)
  memoize : ∀ {s x y r}, Inv s → Good s x y r →
    Inv { s with cache := ((x, y), r) :: s.cache }

theorem readNode_bind {Inv : Interner → Prop} {β : Type} {node : Node}
    {next : Node → InternerM β} {post : Interner → β → Prop}
    (hnode : s.node id = some node) (hnext : Ensures Inv (next node) s post) :
    Ensures Inv (readNode id >>= next) s post := by
  obtain ⟨value, s', hrun, hrest⟩ := hnext
  refine ⟨value, s', ?_, hrest⟩
  have hread : (readNode id).run s = some (node, s) := by
    show (s.node id).map _ = _
    rw [hnode]
    rfl
  rw [StateT.run_bind, hread]
  exact hrun

theorem readNode_allows {Inv : Interner → Prop} {β : Type} {node : Node}
    {next : Node → InternerM β} {post : Interner → β → Prop}
    (hnode : s.node id = some node) (hnext : Allows Inv (next node) s post) :
    Allows Inv (readNode id >>= next) s post := by
  have hread : (readNode id).run s = some (node, s) := by
    show (s.node id).map _ = _
    rw [hnode]
    rfl
  intro value s' hrun
  rw [StateT.run_bind, hread] at hrun
  exact hnext value s' hrun

namespace Conjoins

variable [RangeOps ValidVersion] [RangeOps Text] {Inv : Interner → Prop}
  {Pre : Interner → NodeId → NodeId → Prop}
  {Good : Interner → NodeId → NodeId → NodeId → Prop}
  {recurse : NodeId → NodeId → InternerM NodeId} {xi yi : NodeId} {x y : Node}

/-- One level of the recursion, for any treatment of the cofactors. -/
theorem expand_ensures (hconj : Conjoins Inv Pre Good) (hinv : Inv s)
    (hpre : Pre s xi yi) (hx : s.node xi = some x) (hy : s.node yi = some y)
    (hrecurse : ∀ s', s ≤ s' → Inv s' → ∀ xi' yi', Pre s' xi' yi' →
      xi'.rank + yi'.rank < xi.rank + yi.rank →
        Ensures Inv (recurse xi' yi') s' (Good · xi' yi')) :
    Ensures Inv (expand recurse xi yi x y) s fun s' result =>
      Expanded (Good s') xi yi x y result.1 result.2 := by
  have hwf := hconj.wellFormed hinv
  unfold expand
  have hsub : ∀ s', s ≤ s' → Inv s' → ∀ {xi' yi'}, SubPair xi yi x y xi' yi' →
      Ensures Inv (recurse xi' yi') s' (Good · xi' yi') :=
    fun s' hle hinv' _ _ hsub => hrecurse s' hle hinv' _ _
      (hconj.pre_stable _ _ hinv hinv' hle (hconj.pre_sub hinv hpre hx hy hsub))
      (hsub.rank_lt hwf hx hy)
  cases hcmp : x.var.cmp y.var with
  | lt =>
      have hlt := Variable.cmp_eq_lt.mp hcmp
      exact Ensures.bind (Edges.map_ensures (fun c r => hconj.stable c yi r) hinv
        fun s' hle hinv' child hchild => hsub s' hle hinv' (.left hlt hchild))
          fun children s' hinv' _ hmapped =>
            Ensures.pure hinv' (.left hlt hmapped)
  | gt =>
      have hlt := Variable.cmp_eq_gt.mp hcmp
      exact Ensures.bind (Edges.map_ensures (fun c r => hconj.stable c xi r) hinv
        fun s' hle hinv' child hchild => hsub s' hle hinv' (.right hlt hchild))
          fun children s' hinv' _ hmapped =>
            Ensures.pure hinv' (.right hlt hmapped)
  | eq =>
      have heq := Variable.cmp_eq_eq.mp hcmp
      have hfits : y.children.Fits x.var := heq ▸ hwf.fits hy
      exact Ensures.bind (Edges.apply_ensures hconj.stable (hwf.fits hx) hfits hinv
        fun s' hle hinv' v left right hleft hright =>
          hsub s' hle hinv' (.both heq hleft hright))
          fun children s' hinv' _ hcombined =>
            Ensures.pure hinv' (.both heq hcombined)

/-- The conjunction keeps the promise. -/
theorem combine_ensures (hconj : Conjoins Inv Pre Good)
    {finish : Node → Node → NodeId → InternerM NodeId}
    (hfinish : ∀ {s xi yi x y r}, Inv s → Pre s xi yi → s.node xi = some x →
      s.node yi = some y → Good s xi yi r →
        Ensures Inv (finish x y r) s (Good · xi yi))
    {fuel : ℕ} (hinv : Inv s) (hpre : Pre s xi yi)
    (hfuel : xi.rank + yi.rank < fuel) :
    Ensures Inv (combine finish fuel xi yi) s (Good · xi yi) := by
  induction fuel generalizing s xi yi with
  | zero => omega
  | succ fuel ih =>
      unfold combine
      by_cases hxTrue : xi.isTrue = true
      · rw [if_pos hxTrue]
        obtain rfl := NodeId.isTrue_iff.mp hxTrue
        exact Ensures.pure hinv (hconj.left_true hinv hpre)
      rw [if_neg hxTrue]
      by_cases hyTrue : yi.isTrue = true
      · rw [if_pos hyTrue]
        obtain rfl := NodeId.isTrue_iff.mp hyTrue
        exact Ensures.pure hinv (hconj.right_true hinv hpre)
      rw [if_neg hyTrue]
      by_cases hsame : xi = yi
      · rw [if_pos hsame]
        subst hsame
        exact Ensures.pure hinv (hconj.same hinv hpre)
      rw [if_neg hsame]
      by_cases hfalse : (xi.isFalse || yi.isFalse) = true
      · rw [if_pos hfalse]
        rcases Bool.or_eq_true _ _ |>.mp hfalse with hxFalse | hyFalse
        · obtain rfl := NodeId.isFalse_iff.mp hxFalse
          exact Ensures.pure hinv (hconj.left_false hinv hpre)
        · obtain rfl := NodeId.isFalse_iff.mp hyFalse
          exact Ensures.pure hinv (hconj.right_false hinv hpre)
      rw [if_neg hfalse]
      by_cases hopposite : xi.not = yi
      · rw [if_pos hopposite]
        subst hopposite
        exact Ensures.pure hinv (hconj.opposite hinv hpre)
      rw [if_neg hopposite]
      simp only [Bool.or_eq_true, not_or, NodeId.isTrue_iff, NodeId.isFalse_iff]
        at hxTrue hyTrue hfalse
      obtain ⟨hxValid, hyValid⟩ := hconj.pre_valid hpre
      obtain ⟨x, hx⟩ := (hxValid.cases.resolve_left hxTrue).resolve_left hfalse.1
      obtain ⟨y, hy⟩ := (hyValid.cases.resolve_left hyTrue).resolve_left hfalse.2
      refine Ensures.get_bind ?_
      cases hcached : s.cached xi yi with
      | some result =>
          exact Ensures.pure hinv
            (hconj.cached hinv hpre (mem_cache hcached))
      | none =>
          refine readNode_bind hx (readNode_bind hy ?_)
          refine Ensures.bind (hconj.expand_ensures hinv hpre hx hy
            fun s' hle hinv' xi' yi' hpre' hrank => ih hinv' hpre' (by omega)) ?_
          rintro ⟨var, children⟩ s' hinv' hle hexpanded
          have hpre' := hconj.pre_stable _ _ hinv hinv' hle hpre
          have hx' := node_mono hle hx
          have hy' := node_mono hle hy
          refine Ensures.bind (hconj.create hinv' hpre' hx' hy' hexpanded)
            fun r s'' hinv'' hle' hgood => ?_
          have hpre'' := hconj.pre_stable _ _ hinv' hinv'' hle' hpre'
          refine Ensures.bind (hfinish hinv'' hpre'' (node_mono hle' hx')
            (node_mono hle' hy') hgood) fun r' s''' hinv''' _ hgood' => ?_
          have hmemo := hconj.memoize hinv''' hgood'
          have hgrow : s''' ≤ { s''' with cache := ((xi, yi), r') :: s'''.cache } :=
            ⟨List.prefix_refl _, fun _ h => h⟩
          exact ⟨r', _, rfl, hmemo, hgrow,
            hconj.stable _ _ _ hinv''' hmemo hgrow hgood'⟩

end Conjoins

end Interner

end Uv.Pep508
