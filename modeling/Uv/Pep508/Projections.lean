import Uv.Pep508.ExtraSubstitution
import Uv.Pep508.Memoized

/-!
# Projections are existential quantification

`without_extras` asks for some choice of extras, and `only_extras` for some choice of
everything else.  The first is exact where no incompatible pair is satisfied.  The second
is exact as long as the diagrams are ordered: a disjunction may be true where neither side
is, but only for values of the variables that are projected away, and there are others.
-/

namespace Uv.Pep508

open Uv.Core Uv.Pep440

/-- The variables that `only_extras` projects away. -/
def isOther (var : Variable) : Bool :=
  !isExtraVariable var

namespace Valuation

/-- Giving a variable the value that another valuation gives it. -/
theorem AgreeOff.setVar {drop : Variable → Bool} {v v' w : Valuation} {var : Variable}
    (hagree : v.AgreeOff drop v') (hvar : drop var = true ∨ v = w) :
    v.AgreeOff drop (v'.setVar w var) := by
  have hkept : ∀ {other}, drop other = false → var = other → v = w := by
    rintro _ hkeep rfl
    exact hvar.resolve_left (by simp [hkeep])
  constructor
  · intro key hkeep
    simp only [Valuation.setVar]
    split
    · rename_i heq
      rw [hkept hkeep heq]
    · exact hagree.version key hkeep
  · intro key hkeep
    simp only [Valuation.setVar]
    split
    · rename_i heq
      rw [hkept hkeep heq]
    · exact hagree.string key hkeep
  · intro other hkeep
    simp only [Valuation.setVar]
    split
    · rename_i heq
      rw [hkept hkeep heq.symm]
    · exact hagree.bool other hkeep

/-- There are strings that satisfy no incompatible pair. -/
theorem exists_not_excluded (v : Valuation) :
    ∃ v', v.AgreeOff isOther v' ∧ ¬ v'.Excluded := by
  let plain : Valuation := { v with string := (Interner.ofStrings fun _ => "").string }
  have hdropped : ∀ key, isOther (.string key) = true := fun _ => rfl
  refine ⟨plain, ⟨fun _ _ => rfl, fun key hkeep => ?_, fun _ _ => rfl⟩, ?_⟩
  · rw [hdropped] at hkeep
    cases hkeep
  rintro ⟨pair, hmem, hfirst, -⟩
  have hname : (Interner.ofStrings fun _ => "").Is pair.1.1 pair.1.2 := hfirst
  rw [Interner.ofStrings_is_iff] at hname
  have hnonempty : ∀ pair ∈ incompatiblePairs, "".toList ≠ pair.1.2.toList := by decide
  exact hnonempty pair hmem hname

/-- The valuation gives the extras the values they have in the list. -/
def HasExtras (v : Valuation) (extras : List Text) : Prop :=
  ∀ name, v.bool (.extra name) = extras.contains name

end Valuation

namespace Interner

variable {s s' : Interner} {i x y r : NodeId}

/-! ## Conjunctions -/

/-- Where the conjunction does not hold, one of the markers does not hold for some other
values of the variables that are projected away. -/
def Realizes (s : Interner) (x y r : NodeId) : Prop :=
  ∀ v, ¬ Holds s v r → ∃ v', v.AgreeOff isOther v' ∧ ¬ (Holds s v' x ∧ Holds s v' y)

theorem Realizes.symm (hrealizes : Realizes s y x r) : Realizes s x y r := by
  intro v hnot
  obtain ⟨v', hagree, hnot'⟩ := hrealizes v hnot
  exact ⟨v', hagree, fun hboth => hnot' hboth.symm⟩

theorem Cofactor.congr {v w : Valuation} {var : Variable} {id id' : NodeId}
    (hagree : v.AgreeOn w var) (hcofactor : Cofactor s v var id id') :
    Cofactor s w var id id' := by
  cases hcofactor with
  | child hnode hvar hpick =>
      subst hvar
      exact .child hnode rfl ((hagree _ _).mp hpick)
  | self hnode hlt => exact .self hnode hlt

/-- The cofactor does not see the variable. -/
theorem Cofactor.holds_setVar (hsound : Sound (· < ·) s) {v v' : Valuation} {var : Variable}
    {id id' : NodeId} (hvalid : s.Valid id') (hcofactor : Cofactor s v var id id') :
    Holds s (v'.setVar v var) id ↔ Holds s v' id' := by
  have hagree : v.AgreeOn (v'.setVar v var) var := fun edges child =>
    (v'.setVar_agreeOn_self v var edges child).symm
  rw [(hcofactor.congr hagree).holds_iff hsound.wellFormed]
  exact hsound.holds_setVar hvalid (hcofactor.allVars_below hsound) v' v

theorem promise_realizes : Promise (· < ·) Realizes where
  mono hwf hwf' hle hconj hrealizes := by
    intro v hnot
    rw [holds_mono hwf hwf' hle hconj.valid] at hnot
    obtain ⟨v', hagree, hnot'⟩ := hrealizes v hnot
    refine ⟨v', hagree, ?_⟩
    rwa [holds_mono hwf hwf' hle hconj.left, holds_mono hwf hwf' hle hconj.right]
  left_true _ _ v hnot := ⟨v, .refl v, fun hboth => hnot hboth.2⟩
  right_true _ _ v hnot := ⟨v, .refl v, fun hboth => hnot hboth.1⟩
  same _ _ v hnot := ⟨v, .refl v, fun hboth => hnot hboth.1⟩
  left_false _ _ v _ := ⟨v, .refl v, fun hboth => not_holds_false hboth.1⟩
  right_false _ _ v _ := ⟨v, .refl v, fun hboth => not_holds_false hboth.2⟩
  opposite hwf hvalid v _ := ⟨v, .refl v, fun hboth => (holds_not hwf hvalid).mp hboth.2 hboth.1⟩
  create := by
    intro s xi yi x y var children r hsound hx hy hexpanded hrep v hnot
    have hwf := hsound.wellFormed
    obtain ⟨child, hpick⟩ := v.exists_picks (hexpanded.fits hwf hx hy)
    have hchild : ¬ Holds s v child := mt (hrep.holds_iff hwf hpick).mpr hnot
    obtain ⟨xi', yi', hcx, hcy, hconj, hrealizes⟩ := hexpanded.cofactors
      (fun _ _ _ hgood => ⟨hgood.1.symm, hgood.2.symm⟩) hx hy hpick
    obtain ⟨v', hagree, hnot'⟩ := hrealizes v hchild
    refine ⟨v'.setVar v var, hagree.setVar (.inr rfl), ?_⟩
    rwa [hcx.holds_setVar hsound hconj.left, hcy.holds_setVar hsound hconj.right]
  -- What is replaced by `false` holds for no valuation that satisfies no pair.
  excluded _ _ _ _ hconj hexcluded := by
    intro v _
    obtain ⟨v', hagree, hplain⟩ := v.exists_not_excluded
    exact ⟨v', hagree, fun hboth =>
      hplain (hexcluded v' (hconj.complete v' (.inr hplain) hboth.1 hboth.2))⟩

/-! ## Disjunctions -/

section Runs

variable [RangeOps ValidVersion] [RangeOps Text]

/-- Where the disjunction of the children holds, one of them holds for some other values of
the variables that are projected away. -/
theorem anyChild_realizes {node : Node} (hinv : Consistent (· < ·) Realizes s)
    (hnode : s.node i = some node) :
    Ensures (Consistent (· < ·) Realizes) (anyChild i node) s fun s' tree => s'.Valid tree ∧
      ∀ v, Holds s' v tree → ∃ v', v.AgreeOff isOther v' ∧
        ∃ child ∈ node.children.nodes, Holds s' v' (child.negate i) := by
  let P (s' : Interner) (done : List NodeId) (tree : NodeId) : Prop := s'.Valid tree ∧
    (∀ child ∈ done, s'.Valid (child.negate i)) ∧
      ∀ v, Holds s' v tree → ∃ v', v.AgreeOff isOther v' ∧
        ∃ child ∈ done, Holds s' v' (child.negate i)
  have hstart : P s [] .FALSE := ⟨valid_false, by simp, by simp⟩
  have hstep : ∀ done, ∀ child ∈ node.children.nodes, ∀ s' tree, s ≤ s' →
      Consistent (· < ·) Realizes s' → P s' done tree →
      Ensures (Consistent (· < ·) Realizes) (or tree (child.negate i)) s'
        fun s'' tree' => P s'' (done ++ [child]) tree' := by
    intro done child hchild s' tree hle hinv' ⟨htree, hdone, hrealized⟩
    have hvalid : s'.Valid (child.negate i) :=
      (hinv.1.wellFormed.valid_step hnode hchild).mono hle
    apply (promise_realizes.or_ensures hinv' htree hvalid).weaken
    intro tree' s'' hinv'' hle' ⟨hconj, hrealizes⟩
    have hwf' := hinv'.1.wellFormed
    have hwf'' := hinv''.1.wellFormed
    refine ⟨valid_not.mp hconj.valid, ?_, fun v hholds => ?_⟩
    · intro other hother
      rcases List.mem_append.mp hother with hold | hnew
      · exact (hdone other hold).mono hle'
      · exact List.mem_singleton.mp hnew ▸ hvalid.mono hle'
    have hnot : ¬ Holds s'' v tree'.not := by
      rw [holds_not hwf'' (valid_not.mp hconj.valid), Classical.not_not]
      exact hholds
    obtain ⟨v₁, hagree, hneither⟩ := hrealizes v hnot
    rw [holds_not hwf'' (htree.mono hle'), holds_not hwf'' (hvalid.mono hle'), not_and_or,
      Classical.not_not, Classical.not_not] at hneither
    rcases hneither with hholdsTree | hholdsChild
    · rw [holds_mono hwf' hwf'' hle' htree] at hholdsTree
      obtain ⟨v₂, hagree', other, hother, hholdsOther⟩ := hrealized v₁ hholdsTree
      exact ⟨v₂, hagree.trans hagree', other, List.mem_append_left _ hother,
        (holds_mono hwf' hwf'' hle' (hdone other hother)).mpr hholdsOther⟩
    · exact ⟨v₁, hagree, child, by simp, hholdsChild⟩
  apply (Ensures.foldlM hinv hstart hstep).weaken
  intro tree s' _ _ hpost
  rw [List.nil_append] at hpost
  exact ⟨hpost.1, hpost.2.2⟩

/-! ## Only extras -/

/-- What asking for values of everything but the extras promises. -/
structure Quantified (s : Interner) (i r : NodeId) : Prop where
  dropped : Dropped isOther s i r
  sound : ∀ v, Holds s v r → ∃ v', v.AgreeOff isOther v' ∧ Holds s v' i

omit [RangeOps ValidVersion] [RangeOps Text] in
theorem Quantified.stable (x r : NodeId) :
    Stable (Consistent (· < ·) Realizes) (Quantified · x r) := by
  intro s s' hinv hinv' hle hquantified
  have hwf := hinv.1.wellFormed
  have hwf' := hinv'.1.wellFormed
  refine ⟨(rebuilds_dropped isOther).stable x r hinv.1 hinv'.1 hle hquantified.dropped,
    fun v hholds => ?_⟩
  rw [holds_mono hwf hwf' hle hquantified.dropped.valid] at hholds
  obtain ⟨v', hagree, hholds'⟩ := hquantified.sound v hholds
  exact ⟨v', hagree, (holds_mono hwf hwf' hle hquantified.dropped.source).mpr hholds'⟩

theorem onlyExtras_projects {fuel : ℕ} (hinv : Consistent (· < ·) Realizes s)
    (hvalid : s.Valid i) :
    Allows (Consistent (· < ·) Realizes) (onlyExtras fuel i) s (Quantified · i) := by
  intro r s' hrun
  change (withoutVariables isOther fuel i).run s = some (r, s') at hrun
  induction fuel generalizing s i r s' with
  | zero => cases hrun
  | succ fuel ih =>
      have hwf := hinv.1.wellFormed
      obtain ⟨hsound', hle, hdropped⟩ := withoutVariables_allows hinv.1 hvalid r s' hrun
      have hkeeping := promise_realizes.withoutVariables_keeping hinv hvalid hrun
      have hwf' := hsound'.wellFormed
      refine ⟨⟨hsound', hkeeping⟩, hle, hdropped, fun v hholds => ?_⟩
      rw [withoutVariables] at hrun
      split at hrun
      · cases hrun
        exact ⟨v, .refl v, hholds⟩
      rename_i hterminal
      rw [Bool.or_eq_true, not_or, NodeId.isTrue_iff, NodeId.isFalse_iff] at hterminal
      obtain ⟨node, hnode⟩ :=
        (hvalid.cases.resolve_left hterminal.1).resolve_left hterminal.2
      rw [run_readNode_bind hnode] at hrun
      have hnode' := node_mono hle hnode
      by_cases hdrop : isOther node.var = true
      · rw [if_pos hdrop] at hrun
        obtain ⟨tree, s₁, hany, hinv₁, hle₁, htree, hrealized⟩ := anyChild_realizes hinv hnode
        rw [StateT.run_bind, hany] at hrun
        simp only [Option.bind_eq_bind, Option.bind_some] at hrun
        have hsteps : s₁ ≤ s' ∧ ∃ v₁, v.AgreeOff isOther v₁ ∧ Holds s' v₁ tree := by
          split at hrun
          · rename_i htrue
            cases hrun
            rw [NodeId.isTrue_iff] at htrue
            exact ⟨le_rfl, v, .refl v, htrue ▸ .true⟩
          · obtain ⟨-, hle₁', -, hsound⟩ := ih hinv₁ htree _ _ hrun
            exact ⟨hle₁', hsound v hholds⟩
        obtain ⟨hle₁', v₁, hagree, hholdsTree⟩ := hsteps
        rw [holds_mono hinv₁.1.wellFormed hwf' hle₁' htree] at hholdsTree
        obtain ⟨v₂, hagree', child, hchild, hholdsChild⟩ := hrealized v₁ hholdsTree
        have hchildValid : s₁.Valid (child.negate i) :=
          (hwf.valid_step hnode hchild).mono hle₁
        obtain ⟨w, hpick⟩ := exists_picks_of_mem (hwf.fits hnode) hchild
        refine ⟨v₂.setVar w node.var, (hagree.trans hagree').setVar (.inl hdrop),
          hsound'.holds_of_child hnode' hpick ?_⟩
        exact (holds_mono hinv₁.1.wellFormed hwf' hle₁' hchildValid).mpr hholdsChild
      · rw [if_neg hdrop, StateT.run_bind] at hrun
        rw [Bool.not_eq_true] at hdrop
        obtain ⟨⟨children, s₁⟩, hmap, hcreate⟩ := Option.bind_eq_some_iff.mp hrun
        have hchildren : ∀ s₀, s ≤ s₀ → Consistent (· < ·) Realizes s₀ →
            ∀ child ∈ node.children.nodes, Allows (Consistent (· < ·) Realizes)
              (withoutVariables isOther fuel (child.negate i)) s₀
                (Quantified · (child.negate i)) := by
          intro s₀ hle₀ hinv₀ child hchild r s₁ hrun
          have hchildValid : s.Valid (child.negate i) :=
            hwf.valid_step hnode hchild
          exact ih hinv₀ (hchildValid.mono hle₀) _ _ hrun
        obtain ⟨hinv₁, hle₁, hmapped⟩ :=
          Edges.map_allows Quantified.stable hinv hchildren children s₁ hmap
        obtain ⟨hfits, hvalidChildren, -⟩ := (rebuilds_dropped isOther).children_spec hinv₁.1
          (node_mono hle₁ hnode) (fun _ hfalse => hfalse.elim)
          (hmapped.imp fun _ _ hquantified => hquantified.dropped)
        obtain ⟨_, _, hrun', -, hle₁', -, -, hrep, -⟩ :=
          createNode_spec hinv₁.1.wellFormed hfits hvalidChildren
        rw [hcreate] at hrun'
        cases hrun'
        have hmapped' := hmapped.imp fun child r hquantified =>
          Quantified.stable _ _ hinv₁ ⟨hsound', hkeeping⟩ hle₁' hquantified
        obtain ⟨child, child', hpick, hquantified, hr, -⟩ :=
          exists_mapped_child hwf' hnode' hmapped' hrep v
        obtain ⟨v', hagree, hholds'⟩ := hquantified.sound v (hr.mp hholds)
        have hpick' := (hagree.agreeOn hdrop _ _).mp hpick
        exact ⟨v', hagree, (holds_iff_child hwf' hnode' hpick').mpr hholds'⟩

/-! ## Enough fuel -/

/-- In an ordered table the variables get fewer with every step. -/
theorem withoutVariables_eventually {drop : Variable → Bool} {names : Finset Variable}
    (count : ℕ) (hcount : names.card = count) (hsound : Sound (· < ·) s) (hvalid : s.Valid i)
    (hvars : AllVars s (· ∈ names) i) :
    Eventually (Sound (· < ·)) (fun fuel => withoutVariables drop fuel i) s
      (Dropped drop · i) := by
  induction count using Nat.strong_induction_on generalizing names s i with
  | _ count ih =>
      -- The variable of a node is smaller than those below it.
      have hchild : ∀ node, s.node i = some node → ∀ child ∈ node.children.nodes,
          AllVars s (· ∈ names.erase node.var) (child.negate i) := by
        intro node hnode child hmem
        have hboth := (hsound.allVars_child hnode hmem).and
          ((hvars.cases_node hnode).2 child hmem)
        exact (hboth.imp fun var hvar => Finset.mem_erase.mpr ⟨hvar.1.ne', hvar.2⟩).negate i
      have hcard : ∀ node, s.node i = some node → (names.erase node.var).card < count := by
        intro node hnode
        rw [← hcount]
        exact Finset.card_erase_lt_of_mem (hvars.cases_node hnode).1
      refine withoutVariables_eventually_of_step hsound hvalid
        (fun node hnode _ s' tree hle hsound' htree => ?_)
        fun node hnode s' hle hsound' child hmem => ?_
      · refine ih _ (hcard node hnode) rfl hsound' htree.valid (htree.vars _ fun child hmem => ?_)
        obtain ⟨source, hsource, rfl⟩ := List.mem_map.mp hmem
        exact (hchild node hnode source hsource).mono hle
      · have hvalidChild : s.Valid (child.negate i) :=
          hsound.wellFormed.valid_step hnode hmem
        exact ih _ (hcard node hnode) rfl hsound' (hvalidChild.mono hle)
          ((hchild node hnode child hmem).mono hle)

theorem exists_onlyExtras (hsound : Sound (· < ·) s) (hvalid : s.Valid i) :
    ∃ fuel r s', (onlyExtras fuel i).run s = some (r, s') := by
  have hvars : AllVars s (· ∈ (s.nodes.map Node.var).toFinset) i :=
    (allVars_nodes hsound.wellFormed hvalid).imp fun _ hvar => List.mem_toFinset.mpr hvar
  have hruns : Eventually (Sound (· < ·)) (fun fuel => withoutVariables isOther fuel i) s
      (Dropped isOther · i) :=
    withoutVariables_eventually _ rfl hsound hvalid hvars
  obtain ⟨fuel, r, s', hrun, -⟩ := hruns
  exact ⟨fuel, r, s', hrun⟩

/-! ## Environments -/

omit [RangeOps ValidVersion] [RangeOps Text] in
/-- Some list of extras makes the marker see the extras of a valuation. -/
theorem exists_extras (hwf : s.WellFormed) (hvalid : s.Valid i) {env : MarkerEnvironment}
    {extras : List Text} {v : Valuation}
    (hagree : (env.valuation (.extras extras)).AgreeOff isExtraVariable v) :
    ∃ active, Holds s (env.valuation (.extras active)) i ↔ Holds s v i := by
  obtain ⟨active, hactive⟩ := exists_lists hwf hvalid fun name => v.bool (.extra name)
  refine ⟨active, hactive.holds_congr hwf (fun var hvar => ?_) hvalid⟩
  cases hextra : isExtraVariable var with
  | true =>
      cases var <;> simp only [isExtraVariable, Bool.false_eq_true] at hextra
      rename_i name
      intro edges child
      have hname : (env.valuation (.extras active)).bool (.extra name) =
          v.bool (.extra name) := hvar name rfl
      unfold Valuation.Picks
      cases edges <;> simp [Variable.domain, hname]
  | false =>
      intro edges child
      rw [← hagree.agreeOn hextra edges child]
      cases var <;> cases edges <;> first | rfl | cases hextra
      all_goals rename_i pair _ _; cases pair <;> rfl

/-- Asking for extras is exact for every marker without malformed list names, wherever no
incompatible pair is satisfied.  Asking for everything else is exact in every run whose
steps all keep the order. -/
theorem Reachable.evaluate_projections (hreach : Reachable s) (hvalid : s.Valid i) :
    (AllVars s (·.isArbitrary = false) i →
      ∃ fuel r s', (withoutExtras fuel i).run s = some (r, s') ∧
        ∀ env extras, env.isExcluded = false →
          (s'.evaluate env (.extras extras) r = true ↔
            ∃ active, s.evaluate env (.extras active) i = true)) ∧
    (ReachableInOrder s →
      ∃ fuel r s', (onlyExtras fuel i).run s = some (r, s') ∧
        ∀ env extras, s'.evaluate env (.extras extras) r = true ↔
          ∃ v : Valuation, v.HasExtras extras ∧ Holds s v i) := by
  constructor
  · intro hnamed
    have hwf := hreach.sound.wellFormed
    obtain ⟨fuel, r, s', hrun, hsound', hle, hdropped⟩ :=
      withoutExtras_eventually hreach.sound hvalid
    have hwf' := hsound'.wellFormed
    have hnamed' : AllVars s' (·.isArbitrary = false) r :=
      (hdropped.vars _ (hnamed.mono hle)).imp fun _ hvar => hvar.1
    refine ⟨fuel, r, s', hrun, fun env extras hplain => ?_⟩
    simp only [evaluate_iff_holds hwf' hdropped.valid hnamed', evaluate_iff_holds hwf hvalid hnamed]
    constructor
    · intro hholds
      obtain ⟨v, hagree, hholds'⟩ := hdropped.sound (fun _ h => h) _
        (.inr (not_excluded_valuation hplain)) hholds
      obtain ⟨active, hactive⟩ := exists_extras hwf hvalid hagree
      rw [holds_mono hwf hwf' hle hvalid] at hholds'
      exact ⟨active, hactive.mpr hholds'⟩
    · rintro ⟨active, hholds⟩
      refine hdropped.complete _ (env.valuation (.extras active)) ⟨fun _ _ => rfl,
        fun _ _ => rfl, fun var hkeep => ?_⟩ ((holds_mono hwf hwf' hle hvalid).mpr hholds)
      cases var with
      | extra name => cases hkeep
      | list pair => cases pair <;> rfl
      | _ => rfl
  · intro horder
    have hinv := horder.consistent promise_realizes
    have hwf := hinv.1.wellFormed
    obtain ⟨fuel, r, s', hrun⟩ := exists_onlyExtras hinv.1 hvalid
    obtain ⟨hinv', hle, hquantified⟩ := onlyExtras_projects hinv hvalid r s' hrun
    have hwf' := hinv'.1.wellFormed
    have hextras : AllVars s' (isOther · = false) r :=
      (hquantified.dropped.vars (fun _ => True) ((allVars_nodes hwf' (hvalid.mono hle)).imp
        fun _ _ => trivial)).imp fun _ hvar => hvar.2
    have hnamed : AllVars s' (·.isArbitrary = false) r := by
      refine hextras.imp fun var hvar => ?_
      cases var <;> first | rfl | cases hvar
    refine ⟨fuel, r, s', hrun, fun env extras => ?_⟩
    rw [evaluate_iff_holds hwf' hquantified.dropped.valid hnamed]
    constructor
    · intro hholds
      obtain ⟨v, hagree, hholds'⟩ := hquantified.sound _ hholds
      rw [holds_mono hwf hwf' hle hvalid] at hholds'
      exact ⟨v, fun name => (hagree.bool (.extra name) rfl).symm, hholds'⟩
    · rintro ⟨v, hextras', hholds⟩
      rw [← holds_mono hwf hwf' hle hvalid] at hholds
      refine hquantified.dropped.complete _ v ⟨fun _ hkeep => ?_, fun _ hkeep => ?_,
        fun var hkeep => ?_⟩ hholds
      · cases hkeep
      · cases hkeep
      · cases var with
        | extra name => exact (hextras' name).symm
        | _ => cases hkeep

end Runs

section Examples

/-- `extra == 'test'`. -/
private def testExtra : Operation :=
  .expression (.extra (.extra "test".toList) .equal)

private def testExtraNode : Node :=
  ⟨.extra "test".toList, .boolean .TRUE .FALSE⟩

theorem Reachable.evaluate_projections_test : ∃ s : Interner,
    (∃ fuel r s', (withoutExtras fuel (.new 0 false)).run s = some (r, s') ∧
      ∀ env extras, env.isExcluded = false → (s'.evaluate env (.extras extras) r = true ↔
        ∃ active, s.evaluate env (.extras active) (.new 0 false) = true)) ∧
    ∃ fuel r s', (onlyExtras fuel (.new 0 false)).run s = some (r, s') ∧
      ∀ env extras, s'.evaluate env (.extras extras) r = true ↔
        ∃ v : Valuation, v.HasExtras extras ∧ Holds s v (.new 0 false) := by
  let s : Interner := ⟨[testExtraNode], [], none⟩
  have hrun : testExtra.perform.run Interner.default = some (some (.new 0 false), s) := rfl
  have hreach : Reachable s := .step _ .default (by simp [testExtra, Operation.arguments]) hrun
  have horder : ReachableInOrder s := .step _ .default
    (by simp [testExtra, Operation.arguments]) (fun _ _ _ h => by cases h) hrun
  have hnamed : AllVars s (·.isArbitrary = false) (.new 0 false) := by
    have hnode : s.node (.new 0 false) = some testExtraNode := rfl
    refine .node hnode rfl fun child hchild => ?_
    simp only [testExtraNode, Edges.nodes, List.mem_cons, List.not_mem_nil, or_false] at hchild
    rcases hchild with rfl | rfl
    · exact .true
    · exact .false
  have hboth := Reachable.evaluate_projections hreach
    (show s.Valid (.new 0 false) by decide)
  exact ⟨s, hboth.1 hnamed, hboth.2 horder⟩

/-- `(extra == 'test' and 'foo bar' in extras) or (extra != 'test' and 'foo bar' not in
extras)`, with a malformed name. -/
private def eitherWay : List Operation :=
  [testExtra, .expression (.list (.arbitrary .extras "foo bar".toList) .isIn),
    .and (.new 0 false) (.new 1 false), .and (.new 0 true) (.new 1 true),
    .or (.new 2 false) (.new 3 true)]

/-- A malformed name makes both sides false, but one or the other is true for every other
reading of it. -/
private theorem not_withoutExtras : ∃ (s : Interner) (r : NodeId) (s' : Interner),
    Reachable s ∧ s.Valid (.new 4 false) ∧
      (withoutExtras 5 (.new 4 false)).run s = some (r, s') ∧
      s'.evaluate linuxEnvironment (.extras []) r = true ∧
      ∀ active, s.evaluate linuxEnvironment (.extras active) (.new 4 false) = false := by
  have hrun : ((performAll eitherWay Interner.default).bind fun s =>
      ((withoutExtras 5 (.new 4 false)).run s).map fun (r, s') =>
        decide (s.Valid (.new 4 false)) && s'.evaluate linuxEnvironment (.extras []) r &&
          (!s.evaluate linuxEnvironment (.extras []) (.new 4 false) &&
          !s.evaluate linuxEnvironment (.extras ["test".toList]) (.new 4 false)) &&
          s.extraNames.all (· == "test".toList)) = some true := by
    decide +kernel
  obtain ⟨s, hperform, hrun⟩ := Option.bind_eq_some_iff.mp hrun
  obtain ⟨⟨r, s'⟩, hwithout, hcheck⟩ := Option.map_eq_some_iff.mp hrun
  simp only [Bool.and_eq_true, decide_eq_true_eq, Bool.not_eq_true', List.all_eq_true,
    beq_iff_eq] at hcheck
  obtain ⟨⟨⟨hvalid, htrue⟩, hnone, htest⟩, hnames⟩ := hcheck
  have hreach : Reachable s := Reachable.default.performAll hperform
  have hwf := hreach.sound.wellFormed
  refine ⟨s, r, s', hreach, hvalid, hwithout, htrue, fun active => ?_⟩
  -- Only the one extra matters.
  have hsame : ∀ other : List Text, other.contains "test".toList =
      active.contains "test".toList →
      s.evaluate linuxEnvironment (.extras active) (.new 4 false) =
        s.evaluate linuxEnvironment (.extras other) (.new 4 false) := by
    intro other hother
    refine (allVars_nodes hwf hvalid).evaluate_extras_congr hwf (fun name hvar => ?_) hvalid
    have hmem : name ∈ s.extraNames := by
      obtain ⟨node, hnode, hname⟩ := List.mem_map.mp hvar
      exact List.mem_filterMap.mpr ⟨node, hnode, by rw [hname]⟩
    rw [hnames name hmem]
    exact hother.symm
  cases hcontains : active.contains "test".toList with
  | true => exact (hsame ["test".toList] (by rw [hcontains]; decide)).trans htest
  | false => exact (hsame [] (by rw [hcontains]; rfl)).trans hnone

/-- Requiring Python 3.8 or later of `extra == 'test'` puts a Python node below the extra, and
in the conjunction with an earlier Python there is another one above it. -/
private theorem not_onlyExtras : ∃ (s : Interner) (m r : NodeId) (s' : Interner),
    Reachable s ∧ s.Valid m ∧ (onlyExtras 6 m).run s = some (r, s') ∧
      s'.evaluate linuxEnvironment (.extras ["test".toList]) r = true ∧
      ∀ v, ¬ Holds s v m := by
  let bound : ValidVersion := .new [3, 8]
  have hrun : ((performAll [testExtra] Interner.default).bind fun s₀ =>
      ((complexifyPythonVersions (.new 0 false) (.included bound) .unbounded).run s₀).bind
        fun (x, s₁) =>
      ((complexifyPythonVersions .TRUE .unbounded (.excluded bound)).run s₁).bind fun (y, s₂) =>
      ((and x y).run s₂).bind fun (m, s) => ((onlyExtras 6 m).run s).map fun (r, s') =>
        decide (s₀.Valid (.new 0 false)) &&
          s'.evaluate linuxEnvironment (.extras ["test".toList]) r) = some true := by
    decide +kernel
  obtain ⟨s₀, hperform, hrun⟩ := Option.bind_eq_some_iff.mp hrun
  obtain ⟨⟨x, s₁⟩, hlater, hrun⟩ := Option.bind_eq_some_iff.mp hrun
  obtain ⟨⟨y, s₂⟩, hearlier, hrun⟩ := Option.bind_eq_some_iff.mp hrun
  obtain ⟨⟨m, s⟩, hand, hrun⟩ := Option.bind_eq_some_iff.mp hrun
  obtain ⟨⟨r, s'⟩, honly, hcheck⟩ := Option.map_eq_some_iff.mp hrun
  simp only [Bool.and_eq_true, decide_eq_true_eq] at hcheck
  have hreach₀ : Reachable s₀ := Reachable.default.performAll hperform
  obtain ⟨hsound₁, -, hx⟩ := (complexifyPythonVersions_ensures hreach₀.sound hcheck.1 _ _
    fun _ => admits_below hreach₀.sound.wellFormed hcheck.1).of_run hlater
  obtain ⟨hsound₂, hle₂, hy⟩ := (complexifyPythonVersions_ensures hsound₁ valid_true _ _
    fun _ => admits_below hsound₁.wellFormed valid_true).of_run hearlier
  obtain ⟨hsound, hle, hconj⟩ :=
    (and_ensures hsound₂ (hx.valid.mono hle₂) hy.valid).of_run hand
  have hreach₁ : Reachable s₁ := .step (.complexifyPythonVersions _ _ _) hreach₀
    (by simpa [Operation.arguments] using hcheck.1) (run_map_some hlater)
  have hreach₂ : Reachable s₂ := .step (.complexifyPythonVersions _ _ _) hreach₁
    (by simpa [Operation.arguments] using valid_true) (run_map_some hearlier)
  have hreach : Reachable s := .step (.and x y) hreach₂
    (by simpa [Operation.arguments] using And.intro (hx.valid.mono hle₂) hy.valid)
    (run_map_some hand)
  refine ⟨s, m, r, s', hreach, hconj.valid, honly, hcheck.2, fun v hholds => ?_⟩
  obtain ⟨hholdsX, hholdsY⟩ := hconj.sound v hholds
  rw [holds_mono hsound₂.wellFormed hsound.wellFormed hle (hx.valid.mono hle₂),
    holds_mono hsound₁.wellFormed hsound₂.wellFormed hle₂ hx.valid, hx.holds_iff] at hholdsX
  rw [holds_mono hsound₂.wellFormed hsound.wellFormed hle hy.valid, hy.holds_iff] at hholdsY
  exact hholdsY.2.2 hholdsX.2.1

/-- Malformed list names are false either way, and two nodes for the Python version on one
path are projected away one by one. -/
theorem not_evaluate_projections :
    (¬ ∀ (s : Interner) (m : NodeId), Reachable s → s.Valid m → ∀ fuel r s',
      (withoutExtras fuel m).run s = some (r, s') →
        ∀ env extras, env.isExcluded = false → (s'.evaluate env (.extras extras) r = true ↔
          ∃ active, s.evaluate env (.extras active) m = true)) ∧
    ¬ ∀ (s : Interner) (m : NodeId), Reachable s → s.Valid m → ∀ fuel r s',
      (onlyExtras fuel m).run s = some (r, s') →
        ∀ env extras, s'.evaluate env (.extras extras) r = true ↔
          ∃ v : Valuation, v.HasExtras extras ∧ Holds s v m := by
  constructor
  · intro hclaim
    obtain ⟨s, r, s', hreach, hvalid, hrun, htrue, hnever⟩ := not_withoutExtras
    obtain ⟨active, hholds⟩ := (hclaim s _ hreach hvalid 5 r s' hrun linuxEnvironment []
      (by decide +kernel)).mp htrue
    rw [hnever active] at hholds
    cases hholds
  · intro hclaim
    obtain ⟨s, m, r, s', hreach, hvalid, hrun, htrue, hnever⟩ := not_onlyExtras
    obtain ⟨v, -, hholds⟩ := (hclaim s m hreach hvalid 6 r s' hrun linuxEnvironment
      ["test".toList]).mp htrue
    exact hnever v hholds

end Examples

end Interner

end Uv.Pep508
