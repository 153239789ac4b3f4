import Uv.Pep508.Ordering

/-!
# Completeness of the exclusion check

In an ordered diagram the variables of a path are independent, so every diagram
but `false` is true somewhere and two diagrams that are not disjoint are both true
somewhere.  A conjunction that only holds where an incompatible pair does is then
replaced by `false`, unless it is read from the memo table.
-/

namespace Uv.Pep508

open Uv.Core Uv.Pep440

/-! ## Independent variables -/

/-- The valuation with the value that another one gives to the variable. -/
def Valuation.setVar (v w : Valuation) (var : Variable) : Valuation where
  version key := if var = .version key then w.version key else v.version key
  string key := if var = .string key then w.string key else v.string key
  bool other := if other = var then w.bool other else v.bool other

theorem Valuation.setVar_agreeOn_self (v w : Valuation) (var : Variable) :
    (v.setVar w var).AgreeOn w var := by
  intro edges child
  cases var <;> cases edges <;> simp [Picks, Variable.domain, setVar]

theorem Valuation.setVar_agreeOn_of_ne (v w : Valuation) {var other : Variable}
    (hne : other ≠ var) : v.AgreeOn (v.setVar w var) other := by
  have hagree : v.AgreeOff (fun other => decide (other = var)) (v.setVar w var) := by
    constructor
    · intro key hkeep
      exact (if_neg fun heq => of_decide_eq_false hkeep heq.symm).symm
    · intro key hkeep
      exact (if_neg fun heq => of_decide_eq_false hkeep heq.symm).symm
    · intro other hkeep
      exact (if_neg (of_decide_eq_false hkeep)).symm
  exact hagree.agreeOn (decide_eq_false hne)

namespace Interner

variable {s : Interner} {xi yi xi' yi' : NodeId} {x y : Node}

/-- A diagram below a variable does not see the variable's value. -/
theorem Sound.holds_setVar (hsound : Sound (· < ·) s) {id : NodeId} {var : Variable}
    (hvalid : s.Valid id) (hbelow : AllVars s (var < ·) id) (v w : Valuation) :
    Holds s (v.setVar w var) id ↔ Holds s v id := by
  symm
  apply hbelow.holds_congr hsound.wellFormed (fun other hlt => ?_) hvalid
  exact v.setVar_agreeOn_of_ne w hlt.ne'

/-- A valuation that satisfies a child can be changed to satisfy the node. -/
theorem Sound.holds_of_child (hsound : Sound (· < ·) s) (hx : s.node xi = some x)
    {child : NodeId} {v w : Valuation} (hpick : w.Picks x.var x.children child)
    (hholds : Holds s v (child.negate xi)) : Holds s (v.setVar w x.var) xi := by
  have hwf := hsound.wellFormed
  have hpick' := (v.setVar_agreeOn_self w x.var _ _).mpr hpick
  have hvalid : s.Valid (child.negate xi) := hwf.valid_step hx hpick.mem
  have hbelow := (hsound.allVars_child hx hpick.mem).negate xi
  rw [holds_iff_child hwf hx hpick']
  exact (hsound.holds_setVar hvalid hbelow v w).mpr hholds

/-- Every diagram but `false` is true somewhere. -/
theorem exists_holds (hsound : Sound (· < ·) s) (hvalid : s.Valid xi)
    (hne : xi ≠ .FALSE) : ∃ v, Holds s v xi := by
  have hwf := hsound.wellFormed
  induction xi, hvalid using Valid.induct hwf with
  | true => exact ⟨⟨fun _ => .ofPosition ⊥, fun _ => .ofPosition ⊥, fun _ => false⟩, .true⟩
  | false => exact absurd rfl hne
  | @step xi x hx ih =>
      obtain ⟨left, hleft, right, hright, hchildren⟩ := hwf.reduced hx
      have hchild : ∃ child ∈ x.children.nodes, child.negate xi ≠ .FALSE := by
        by_contra hnone
        push Not at hnone
        apply hchildren
        apply NodeId.negate_injective xi
        exact (hnone left hleft).trans (hnone right hright).symm
      obtain ⟨child, hmem, hchild⟩ := hchild
      obtain ⟨v, hholds⟩ := ih child hmem xi
        (hwf.valid_step hx hmem) hchild
      obtain ⟨w, hpick⟩ := exists_picks_of_mem (hwf.fits hx) hmem
      exact ⟨v.setVar w x.var, hsound.holds_of_child hx hpick hholds⟩

/-! ## Disjointness -/

/-- A valuation that satisfies a pair can be changed to satisfy the pair it comes
from. -/
theorem SubPair.exists_holds (hsound : Sound (· < ·) s) (hx : s.node xi = some x)
    (hy : s.node yi = some y) (hsub : SubPair xi yi x y xi' yi') {v : Valuation}
    (hholds : Holds s v xi') (hholds' : Holds s v yi') :
    ∃ v', Holds s v' xi ∧ Holds s v' yi := by
  have hwf := hsound.wellFormed
  cases hsub with
  | left hlt hchild =>
      obtain ⟨w, hpick⟩ := exists_picks_of_mem (hwf.fits hx) hchild
      have hbelow := hsound.allVars_of_lt hy hlt
      exact ⟨v.setVar w x.var, hsound.holds_of_child hx hpick hholds,
        (hsound.holds_setVar (valid_of_node hy) hbelow v w).mpr hholds'⟩
  | right hlt hchild =>
      obtain ⟨w, hpick⟩ := exists_picks_of_mem (hwf.fits hy) hchild
      have hbelow := hsound.allVars_of_lt hx hlt
      exact ⟨v.setVar w y.var,
        (hsound.holds_setVar (valid_of_node hx) hbelow v w).mpr hholds',
        hsound.holds_of_child hy hpick hholds⟩
  | @both left right w heq hleft hright =>
      refine ⟨v.setVar w x.var, hsound.holds_of_child hx hleft hholds, ?_⟩
      rw [heq] at hright ⊢
      exact hsound.holds_of_child hy hright hholds'

variable [RangeOps ValidVersion] [RangeOps Text]

/-- Diagrams that are not disjoint are both true somewhere. -/
theorem disjointness_complete (hsound : Sound (· < ·) s) (hxValid : s.Valid xi)
    (hyValid : s.Valid yi) {fuel : ℕ} (hfuel : xi.rank + yi.rank < fuel)
    (hanswer : disjointness s fuel xi yi = some false) :
    ∃ v, Holds s v xi ∧ Holds s v yi := by
  have hwf := hsound.wellFormed
  induction fuel generalizing xi yi with
  | zero => omega
  | succ fuel ih =>
      by_cases hfalse : (xi.isFalse || yi.isFalse) = true
      · rw [disjointness, if_pos hfalse] at hanswer
        cases hanswer
      have hnotFalse := hfalse
      simp only [Bool.or_eq_true, not_or, NodeId.isFalse_iff] at hnotFalse
      by_cases hxTrue : xi = .TRUE
      · obtain ⟨v, hholds⟩ := exists_holds hsound hyValid hnotFalse.2
        exact ⟨v, hxTrue ▸ .true, hholds⟩
      by_cases hyTrue : yi = .TRUE
      · obtain ⟨v, hholds⟩ := exists_holds hsound hxValid hnotFalse.1
        exact ⟨v, hholds, hyTrue ▸ .true⟩
      by_cases hsame : xi = yi
      · obtain ⟨v, hholds⟩ := exists_holds hsound hxValid hnotFalse.1
        exact ⟨v, hholds, hsame ▸ hholds⟩
      have htrue : ¬ (xi.isTrue || yi.isTrue) = true := by
        simp [NodeId.isTrue_iff, hxTrue, hyTrue]
      by_cases hopposite : xi.not = yi
      · rw [disjointness, if_neg hfalse, if_neg htrue, if_neg hsame,
          if_pos hopposite] at hanswer
        cases hanswer
      obtain ⟨x, hx⟩ := (hxValid.cases.resolve_left hxTrue).resolve_left hnotFalse.1
      obtain ⟨y, hy⟩ := (hyValid.cases.resolve_left hyTrue).resolve_left hnotFalse.2
      have hlt : ∀ xi' yi', SubPair xi yi x y xi' yi' → xi'.rank + yi'.rank < fuel := by
        intro xi' yi' hsub
        have hrank := hsub.rank_lt hwf hx hy
        omega
      obtain ⟨answer, hrun, hiff⟩ := disjointness_step hwf hx hy hsame hopposite
        fun xi' yi' hsub => (disjointness_sound hwf (hsub.valid hwf hx hy).1
          (hsub.valid hwf hx hy).2 (hlt xi' yi' hsub)).imp fun _ h => h.1
      rw [hrun] at hanswer
      cases hanswer
      by_contra hnever
      -- If no pair is ever satisfied, all of them are disjoint.
      refine absurd (hiff.mpr fun xi' yi' hsub => ?_) Bool.false_ne_true
      obtain ⟨hvalid, hvalid'⟩ := hsub.valid hwf hx hy
      obtain ⟨answer, hanswer, -⟩ := disjointness_sound hwf hvalid hvalid'
        (hlt xi' yi' hsub)
      cases answer with
      | true => exact hanswer
      | false =>
          obtain ⟨v, hholds, hholds'⟩ := ih hvalid hvalid' (hlt xi' yi' hsub) hanswer
          exact absurd (hsub.exists_holds hsound hx hy hholds hholds') hnever

/-! ## Excluded conjunctions -/

/-- Both markers only hold together where an incompatible pair does. -/
def Excludes (s : Interner) (xi yi : NodeId) : Prop :=
  ∀ v : Valuation, Holds s v xi → Holds s v yi → v.Excluded

/-- The check finds out that a conjunction is excluded. -/
theorem checkExclusions_excludes (hsound : Sound (· < ·) s)
    (hxVar : x.var.isConflictingVariable = true)
    (hyVar : y.var.isConflictingVariable = true) {r : NodeId} (hconj : Conj s xi yi r)
    (hexcludes : Excludes s xi yi) :
    Ensures (Sound (· < ·)) (checkExclusions x y r) s fun _ r' => r' = .FALSE := by
  have hboth : (x.var.isConflictingVariable && y.var.isConflictingVariable) = true := by
    rw [hxVar, hyVar]
    rfl
  rw [checkExclusions, if_pos hboth]
  apply Ensures.bind (exclusions_ensures hsound)
  intro tree s' hsound' hle htree
  apply Ensures.get_bind
  have hwf := hsound'.wellFormed
  obtain ⟨hvalid, hiff⟩ := hsound'.exclusions htree
  have hconj' := hconj.mono hsound.wellFormed hwf hle
  obtain ⟨answer, hanswer, -⟩ := disjointness_sound hwf hconj'.valid
    (valid_not.mpr hvalid) (Nat.lt_succ_self _)
  rw [hanswer]
  cases answer with
  | true => exact Ensures.pure hsound' rfl
  | false =>
      obtain ⟨v, hholds, hnot⟩ := disjointness_complete hsound' hconj'.valid
        (valid_not.mpr hvalid) (Nat.lt_succ_self _) hanswer
      rw [holds_not hwf hvalid, hiff] at hnot
      obtain ⟨hholdsX, hholdsY⟩ := hconj'.sound v hholds
      rw [holds_mono hsound.wellFormed hwf hle hconj.left] at hholdsX
      rw [holds_mono hsound.wellFormed hwf hle hconj.right] at hholdsY
      exact absurd (hexcludes v hholdsX hholdsY) hnot

omit [RangeOps ValidVersion] [RangeOps Text] in
theorem no_terminals (hx : s.node xi = some x) (hy : s.node yi = some y) :
    (¬ xi.isTrue = true ∧ ¬ yi.isTrue = true) ∧ ¬ (xi.isFalse || yi.isFalse) = true := by
  simp [isTrue_of_node hx, isTrue_of_node hy, isFalse_of_node hx, isFalse_of_node hy]

/-- The memo table has no other result for the conjunction than `false`. -/
def Unanswered (s : Interner) (xi yi : NodeId) : Prop :=
  ∀ r, s.cached xi yi = some r → r = .FALSE

theorem and_excludes (hsound : Sound (· < ·) s) (hx : s.node xi = some x)
    (hy : s.node yi = some y) (hxVar : x.var.isConflictingVariable = true)
    (hyVar : y.var.isConflictingVariable = true) (hexcludes : Excludes s xi yi)
    (hne : xi ≠ yi) (hunanswered : xi.not = yi ∨ Unanswered s xi yi) :
    Ensures (Sound (· < ·)) (and xi yi) s fun _ r => r = .FALSE := by
  obtain ⟨htrue, hfalse⟩ := no_terminals hx hy
  rw [Pep508.and, combine, if_neg htrue.1, if_neg htrue.2, if_neg hne, if_neg hfalse]
  by_cases hopposite : xi.not = yi
  · rw [if_pos hopposite]
    exact Ensures.pure hsound rfl
  rw [if_neg hopposite]
  apply Ensures.get_bind
  cases hcached : s.cached xi yi with
  | some r => exact Ensures.pure hsound (hunanswered.resolve_left hopposite r hcached)
  | none =>
      have hrules := conjoins_sound (· < ·) fun _ => True
      have hinv : SoundWith (· < ·) (fun _ => True) s := ⟨hsound, trivial⟩
      have hpre : s.Valid xi ∧ s.Valid yi := ⟨valid_of_node hx, valid_of_node hy⟩
      have hrecurse : ∀ s', s ≤ s' → SoundWith (· < ·) (fun _ => True) s' → ∀ xi' yi',
          s'.Valid xi' ∧ s'.Valid yi' → xi'.rank + yi'.rank < xi.rank + yi.rank →
            Ensures (SoundWith (· < ·) fun _ => True)
              (combine checkExclusions (xi.rank + yi.rank) xi' yi') s' (Conj · xi' yi') :=
        fun s' hle hinv' xi' yi' hpre' hrank =>
          hrules.combine_ensures (fun hinv _ hx hy hconj =>
            (checkExclusions_ensures hinv.1 hx hy hconj).imp_inv fun _ h => ⟨h, trivial⟩)
            hinv' hpre' hrank
      have hexpand := hrules.expand_ensures hinv hpre hx hy hrecurse
      have hsound_of : ∀ s', SoundWith (· < ·) (fun _ => True) s' → Sound (· < ·) s' :=
        fun _ hinv => hinv.1
      refine Ensures.imp_inv ?_ hsound_of
      apply readNode_bind hx
      apply readNode_bind hy
      apply hexpand.bind
      rintro ⟨var, children⟩ s' hinv' hle hexpanded
      have hpre' := hrules.pre_stable _ _ hinv hinv' hle hpre
      apply (hrules.create hinv' hpre' (node_mono hle hx) (node_mono hle hy)
        hexpanded).bind
      intro r s'' hinv'' hle' hconj
      have hwf'' := hinv''.1.wellFormed
      have hexcludes' : Excludes s'' xi yi := by
        intro v hholdsX hholdsY
        rw [holds_mono hsound.wellFormed hwf'' (hle.trans hle') hpre.1] at hholdsX
        rw [holds_mono hsound.wellFormed hwf'' (hle.trans hle') hpre.2] at hholdsY
        exact hexcludes v hholdsX hholdsY
      obtain ⟨_, last, hrun, hsoundLast, hleLast, rfl⟩ :=
        checkExclusions_excludes hinv''.1 hxVar hyVar hconj hexcludes'
      have hconjLast := (checkExclusions_ensures hinv''.1 (node_mono (hle.trans hle') hx)
        (node_mono (hle.trans hle') hy) hconj).of_run hrun
      have hfinish : Ensures (SoundWith (· < ·) fun _ => True) (checkExclusions x y r) s''
          fun s r' => Conj s xi yi r' ∧ r' = .FALSE :=
        ⟨_, last, hrun, ⟨hsoundLast, trivial⟩, hleLast, hconjLast.2.2, rfl⟩
      apply hfinish.bind
      intro r' last hinvLast _ ⟨hconjLast, hr'⟩
      have hmemo := hrules.memoize hinvLast hconjLast
      exact ⟨r', _, rfl, hmemo, ⟨List.prefix_refl _, fun _ h => h⟩, hr'⟩

theorem isDisjoint_excludes (hsound : Sound (· < ·) s) (hx : s.node xi = some x)
    (hy : s.node yi = some y) (hxVar : x.var.isConflictingVariable = true)
    (hyVar : y.var.isConflictingVariable = true) (hexcludes : Excludes s xi yi)
    (hne : xi ≠ yi) (hunanswered : xi.not = yi ∨ Unanswered s xi yi) :
    Ensures (Sound (· < ·)) (isDisjoint xi yi) s fun _ answer => answer = true := by
  have htrue : ¬ (xi.isTrue || yi.isTrue) = true := by
    simp [isTrue_of_node hx, isTrue_of_node hy]
  have hfalse : ¬ (xi.isFalse || yi.isFalse) = true := by
    simp [isFalse_of_node hx, isFalse_of_node hy]
  have hboth : (x.var.isConflictingVariable && y.var.isConflictingVariable) = true := by
    rw [hxVar, hyVar]
    rfl
  rw [isDisjoint, if_neg hfalse, if_neg htrue, if_neg hne]
  by_cases hopposite : xi.not = yi
  · rw [if_pos hopposite]
    exact Ensures.pure hsound rfl
  rw [if_neg hopposite]
  apply readNode_bind hx
  apply readNode_bind hy
  rw [if_pos hboth]
  apply (and_excludes hsound hx hy hxVar hyVar hexcludes hne hunanswered).bind
  rintro _ s' hsound' _ rfl
  exact Ensures.pure hsound' rfl

omit [RangeOps ValidVersion] [RangeOps Text] in
theorem run_get_bind {β : Type} (next : Interner → InternerM β) (s : Interner) :
    (get >>= next).run s = (next s).run s := rfl

/-- In every run whose steps all keep the order, two markers of conflicting
variables that exclude each other have the conjunction `false`, and are disjoint,
exactly if they are not the same marker and no other result has been memoized for
them. -/
theorem ReachableInOrder.excludes_iff (hreach : ReachableInOrder s)
    (hx : s.node xi = some x) (hy : s.node yi = some y)
    (hxVar : x.var.isConflictingVariable = true)
    (hyVar : y.var.isConflictingVariable = true) (hexcludes : Excludes s xi yi) :
    ((∃ s', (and xi yi).run s = some (.FALSE, s')) ∧
        ∃ s', (isDisjoint xi yi).run s = some (true, s')) ↔
      xi ≠ yi ∧ (xi.not = yi ∨ Unanswered s xi yi) := by
  have hsound := hreach.sound
  constructor
  · rintro ⟨⟨s', hand⟩, -⟩
    have htrue : ¬ xi.isTrue = true ∧ ¬ yi.isTrue = true := by
      simp [isTrue_of_node hx, isTrue_of_node hy]
    have hfalse : ¬ (xi.isFalse || yi.isFalse) = true := by
      simp [isFalse_of_node hx, isFalse_of_node hy]
    rw [Pep508.and, combine, if_neg htrue.1, if_neg htrue.2] at hand
    have hne : xi ≠ yi := by
      intro hsame
      rw [if_pos hsame] at hand
      cases hand
      cases isFalse_of_node hx
    rw [if_neg hne, if_neg hfalse] at hand
    refine ⟨hne, ?_⟩
    by_cases hopposite : xi.not = yi
    · exact .inl hopposite
    · rw [if_neg hopposite, run_get_bind] at hand
      refine .inr fun r hcached => ?_
      rw [hcached] at hand
      cases hand
      rfl
  · rintro ⟨hne, hunanswered⟩
    obtain ⟨_, s', hand, -, -, rfl⟩ :=
      and_excludes hsound hx hy hxVar hyVar hexcludes hne hunanswered
    obtain ⟨_, s'', hdisjoint, -, -, rfl⟩ :=
      isDisjoint_excludes hsound hx hy hxVar hyVar hexcludes hne hunanswered
    exact ⟨⟨s', hand⟩, s'', hdisjoint⟩

/-! ## What building the exclusions leaves in the memo table -/

/-- Some entries are in the memo table. -/
def Keeps (entries : List ((NodeId × NodeId) × NodeId)) (s : Interner) : Prop :=
  ∀ entry ∈ entries, entry ∈ s.cache

omit [RangeOps ValidVersion] [RangeOps Text] in
/-- A promise about conjunctions is also kept by the states with these entries. -/
theorem Conjoins.keeping {Inv : Interner → Prop}
    {Pre : Interner → NodeId → NodeId → Prop}
    {Good : Interner → NodeId → NodeId → NodeId → Prop}
    (hconj : Conjoins Inv Pre Good) (entries : List ((NodeId × NodeId) × NodeId)) :
    Conjoins (fun s => Inv s ∧ Keeps entries s) Pre Good where
  wellFormed hinv := hconj.wellFormed hinv.1
  stable x y r _ _ hinv hinv' := hconj.stable x y r hinv.1 hinv'.1
  pre_stable x y _ _ hinv hinv' := hconj.pre_stable x y hinv.1 hinv'.1
  pre_valid := hconj.pre_valid
  left_true hinv := hconj.left_true hinv.1
  right_true hinv := hconj.right_true hinv.1
  same hinv := hconj.same hinv.1
  left_false hinv := hconj.left_false hinv.1
  right_false hinv := hconj.right_false hinv.1
  opposite hinv := hconj.opposite hinv.1
  cached hinv := hconj.cached hinv.1
  pre_sub hinv := hconj.pre_sub hinv.1
  create := by
    intro s xi yi x y var children hinv hpre hx hy hexpanded
    obtain ⟨r, s', hrun, hinv', hle, hgood⟩ :=
      hconj.create hinv.1 hpre hx hy hexpanded
    refine ⟨r, s', hrun, ⟨hinv', fun entry hentry => ?_⟩, hle, hgood⟩
    rw [cache_createNode hrun]
    exact hinv.2 entry hentry
  memoize hinv hgood := ⟨hconj.memoize hinv.1 hgood, fun entry hentry =>
    List.mem_cons_of_mem _ (hinv.2 entry hentry)⟩

variable {below : Variable → Variable → Prop}

/-- The states before the exclusions are built that have these entries. -/
def OpenKeeping (below : Variable → Variable → Prop)
    (entries : List ((NodeId × NodeId) × NodeId)) (s : Interner) : Prop :=
  Open below s ∧ Keeps entries s

theorem conjunction_keeping {entries : List ((NodeId × NodeId) × NodeId)}
    (hinv : OpenKeeping below entries s) (hx : s.Valid xi) (hy : s.Valid yi) :
    Ensures (OpenKeeping below entries) (conjunction xi yi) s (Conj · xi yi) :=
  ((conjoins_sound below (· = none)).keeping entries).combine_ensures
    (fun hinv _ _ _ hconj => Ensures.pure hinv hconj) hinv ⟨hx, hy⟩
    (Nat.lt_succ_self _)

theorem disjunction_keeping {entries : List ((NodeId × NodeId) × NodeId)}
    (hinv : OpenKeeping below entries s) (hx : s.Valid xi) (hy : s.Valid yi) :
    Ensures (OpenKeeping below entries) (disjunction xi yi) s fun s' r => s'.Valid r := by
  apply (conjunction_keeping hinv (valid_not.mpr hx) (valid_not.mpr hy)).bind
  intro r s' hinv' _ hconj
  exact Ensures.pure hinv' (valid_not.mpr hconj.valid)

/-- A conjunction that is computed is memoized. -/
theorem conjunction_memoized (hx : s.node xi = some x) (hy : s.node yi = some y)
    (hne : xi ≠ yi) (hopposite : xi.not ≠ yi) {r : NodeId} {s' : Interner}
    (hrun : (conjunction xi yi).run s = some (r, s')) : ((xi, yi), r) ∈ s'.cache := by
  obtain ⟨htrue, hfalse⟩ := no_terminals hx hy
  rw [conjunction, combine, if_neg htrue.1, if_neg htrue.2, if_neg hne, if_neg hfalse,
    if_neg hopposite, run_get_bind] at hrun
  cases hcached : s.cached xi yi with
  | some result =>
      rw [hcached] at hrun
      cases hrun
      exact mem_cache hcached
  | none =>
      rw [hcached] at hrun
      simp only [StateT.run_bind, Option.bind_eq_bind, Option.bind_eq_some_iff] at hrun
      obtain ⟨_, -, _, -, _, -, _, -, _, -, hmemo⟩ := hrun
      cases hmemo
      exact List.mem_cons_self

omit [RangeOps ValidVersion] [RangeOps Text] in
theorem exists_cached {r : NodeId} (hmem : ((xi, yi), r) ∈ s.cache) :
    ∃ r', s.cached xi yi = some r' := by
  cases hcached : s.cached xi yi with
  | some r' => exact ⟨r', rfl⟩
  | none =>
      have hnone := List.lookup_eq_none_iff.mp hcached _ hmem
      simp at hnone

/-- The first incompatible pair has a memoized conjunction other than `false`. -/
def AnswersPair (s : Interner) : Prop :=
  ∃ nt linux, Means s (nt, .osName, "nt") ∧ Means s (linux, .sysPlatform, "linux") ∧
    ∃ r, s.cached nt linux = some r ∧ r ≠ .FALSE

omit [RangeOps ValidVersion] [RangeOps Text] in
/-- A conjunction of satisfiable markers is not `false` before the exclusions are
built. -/
theorem cached_ne_false (hopen : Open below s) {r : NodeId}
    (hcached : s.cached xi yi = some r) {v : Valuation} (hx : Holds s v xi)
    (hy : Holds s v yi) : r ≠ .FALSE := by
  rintro rfl
  have hconj := hopen.1.cache (mem_cache hcached)
  exact not_holds_false (hconj.complete v (.inl hopen.2) hx hy)

/-- The valuation that gives every string variable a value of its own. -/
def ofStrings (value : CanonicalMarkerValueString → String) : Valuation where
  version _ := .ofPosition ⊥
  string key := .ofPosition (Cut.before (value key).toList)
  bool _ := false

omit [RangeOps ValidVersion] [RangeOps Text] in
theorem ofStrings_is_iff {value : CanonicalMarkerValueString → String}
    {key : CanonicalMarkerValueString} {other : String} :
    (ofStrings value).Is key other ↔ (value key).toList = other.toList := by
  constructor
  · intro hin
    obtain ⟨hle, hlt⟩ := Point.ofPosition_in.mp hin
    rw [cutsOf, Bound.upperCut, WithTop.coe_lt_coe, Cut.before_lt_after] at hlt
    rw [cutsOf, Bound.lowerCut, ← not_lt, Cut.before_lt_before, not_lt] at hle
    exact le_antisymm hlt hle
  · intro heq
    unfold Valuation.Is
    rw [← heq]
    exact Point.ofPosition_in.mpr
      ⟨le_rfl, WithTop.coe_lt_coe.mpr (Cut.before_lt_after.mpr le_rfl)⟩

omit [RangeOps ValidVersion] [RangeOps Text] in
theorem Means.exists_node {id : NodeId} {key : CanonicalMarkerValueString}
    {value : String} (hmeans : Means s (id, key, value)) : ∃ x, s.node id = some x := by
  rcases hmeans.valid.cases with htrue | hfalse | hnode
  · have hholds := hmeans.holds_iff (ofStrings fun _ => value ++ "x")
    rw [ofStrings_is_iff, show id = .TRUE from htrue] at hholds
    simp at hholds
  · have hholds := hmeans.holds_iff (ofStrings fun _ => value)
    rw [ofStrings_is_iff, show id = .FALSE from hfalse] at hholds
    simp at hholds
  · exact hnode

omit [RangeOps ValidVersion] [RangeOps Text] in
/-- Different keys have different nodes. -/
theorem Means.ne_of_key {id id' : NodeId} {key key' : CanonicalMarkerValueString}
    {value value' : String} (hmeans : Means s (id, key, value))
    (hmeans' : Means s (id', key', value')) (hne : key ≠ key') : id ≠ id' := by
  rintro rfl
  obtain ⟨x, hx⟩ := hmeans.exists_node
  have hvar := (hmeans.vars.cases_node hx).1
  have hvar' := (hmeans'.vars.cases_node hx).1
  rw [hvar] at hvar'
  cases hvar'
  exact hne rfl

omit [RangeOps ValidVersion] [RangeOps Text] in
/-- Both markers of the pair hold on a Linux that claims to be `nt`. -/
theorem holds_ntOnLinux {nt linux : NodeId} (hnt : Means s (nt, .osName, "nt"))
    (hlinux : Means s (linux, .sysPlatform, "linux")) :
    ∃ v, Holds s v nt ∧ Holds s v linux := by
  let v := ofStrings fun key => if key = .osName then "nt" else "linux"
  have hv : v.Is .osName "nt" ∧ v.Is .sysPlatform "linux" :=
    ⟨ofStrings_is_iff.mpr rfl, ofStrings_is_iff.mpr rfl⟩
  exact ⟨v, (hnt.holds_iff v).mpr hv.1, (hlinux.holds_iff v).mpr hv.2⟩

/-- The conjunction of the first pair is memoized while the tree is built. -/
theorem foldlM_answersPair {nt linux : NodeId} {rest : List (NodeId × NodeId)}
    (hopen : Open below s) (hnt : Means s (nt, .osName, "nt"))
    (hlinux : Means s (linux, .sysPlatform, "linux"))
    (hvalid : ∀ pair ∈ rest, s.Valid pair.1 ∧ s.Valid pair.2) :
    Ensures (Open below) (((nt, linux) :: rest).foldlM (fun tree (a, b) => do
      let aAndB ← conjunction a b
      disjunction tree aAndB) NodeId.FALSE) s fun s' _ =>
        ∃ r, s'.cached nt linux = some r ∧ r ≠ .FALSE := by
  have hwf := hopen.1.wellFormed
  obtain ⟨x, hx⟩ := hnt.exists_node
  obtain ⟨y, hy⟩ := hlinux.exists_node
  obtain ⟨v, hholdsNt, hholdsLinux⟩ := holds_ntOnLinux hnt hlinux
  have hne := hnt.ne_of_key hlinux (by decide)
  have hopposite : nt.not ≠ linux := by
    intro hnot
    rw [← hnot, holds_not hwf hnt.valid] at hholdsLinux
    exact hholdsLinux hholdsNt
  rw [List.foldlM_cons]
  obtain ⟨r, s₁, hrun, hopen₁, hle₁, hconj⟩ :=
    conjunction_ensures hopen hnt.valid hlinux.valid
  have hentry := conjunction_memoized hx hy hne hopposite hrun
  have hkeeps : OpenKeeping below [((nt, linux), r)] s₁ :=
    ⟨hopen₁, fun entry hmem => List.mem_singleton.mp hmem ▸ hentry⟩
  have hstep : ∀ tree s', OpenKeeping below [((nt, linux), r)] s' → s'.Valid tree →
      ∀ a b, s'.Valid a → s'.Valid b →
      Ensures (OpenKeeping below [((nt, linux), r)]) (do
        let aAndB ← conjunction a b
        disjunction tree aAndB) s' fun s'' tree' => s''.Valid tree' := by
    intro tree s' hinv htree a b ha hb
    apply (conjunction_keeping hinv ha hb).bind
    intro both s'' hinv' hle hboth
    exact disjunction_keeping hinv' (htree.mono hle) hboth.valid
  have hrest : Ensures (OpenKeeping below [((nt, linux), r)]) (do
      let tree ← disjunction NodeId.FALSE r
      rest.foldlM (fun tree (a, b) => do
        let aAndB ← conjunction a b
        disjunction tree aAndB) tree) s₁ fun s' tree => s'.Valid tree := by
    apply (disjunction_keeping hkeeps valid_false hconj.valid).bind
    intro tree s₂ hinv₂ hle₂ htree
    let P (s' : Interner) (_ : List (NodeId × NodeId)) (tree : NodeId) : Prop :=
      s'.Valid tree
    have hstart : P s₂ [] tree := htree
    apply Ensures.foldlM hinv₂ hstart
    intro _ pair hpair s' tree' hle hinv' htree'
    have hpairValid := hvalid pair hpair
    exact hstep tree' s' hinv' htree' _ _ (hpairValid.1.mono ((hle₁.trans hle₂).trans hle))
      (hpairValid.2.mono ((hle₁.trans hle₂).trans hle))
  obtain ⟨tree, s', hrun', ⟨hopen', hkeeps'⟩, hle', -⟩ := hrest
  have hcached := exists_cached (hkeeps' _ List.mem_cons_self)
  refine ⟨tree, s', ?_, hopen', hle₁.trans hle', ?_⟩
  · rw [bind_assoc, StateT.run_bind, hrun]
    exact hrun'
  · obtain ⟨r', hcached⟩ := hcached
    have hwf' := hopen'.1.wellFormed
    have hle := hle₁.trans hle'
    refine ⟨r', hcached, cached_ne_false hopen' hcached
      ((holds_mono hwf hwf' hle hnt.valid).mpr hholdsNt)
      ((holds_mono hwf hwf' hle hlinux.valid).mpr hholdsLinux)⟩

/-- Building the exclusions memoizes the conjunction of the first pair. -/
theorem exclusions_answersPair (hopen : Open below s) :
    Ensures (Sound below) Pep508.exclusions s fun s' _ => AnswersPair s' := by
  apply exclusions_rule hopen
  intro pairs s' _ hopen' hpairs
  obtain ⟨tree, last, hrun, hsound, hle, -⟩ := storePairs_ensures hopen' hpairs
  have hvalid : ∀ pair ∈ pairs, s'.Valid pair.1 ∧ s'.Valid pair.2 := by
    intro pair hmem
    obtain ⟨names, -, hmeans, hmeans'⟩ := exists_of_mem_forall₂ hpairs.flip hmem
    exact ⟨hmeans.valid, hmeans'.valid⟩
  cases hpairs with
  | @cons pair names rest _ hmeans _ =>
      obtain ⟨nt, linux⟩ := pair
      obtain ⟨tree', s₁, hfold, hopen₁, hle₁, hanswer⟩ := foldlM_answersPair hopen'
        hmeans.1 hmeans.2 fun pair hpair => hvalid pair (List.mem_cons_of_mem _ hpair)
      rw [StateT.run_bind, hfold] at hrun
      cases hrun
      have hwf' := hopen'.1.wellFormed
      refine ⟨tree', _, ?_, hsound, hle, nt, linux,
        hmeans.1.mono hwf' hsound.wellFormed hle,
        hmeans.2.mono hwf' hsound.wellFormed hle, hanswer⟩
      rw [StateT.run_bind, hfold]
      rfl

/-! ## Runs -/

omit [RangeOps ValidVersion] [RangeOps Text] in
theorem Means.excludes {nt linux : NodeId} (hnt : Means s (nt, .osName, "nt"))
    (hlinux : Means s (linux, .sysPlatform, "linux")) : Excludes s nt linux := by
  intro v hholdsNt hholdsLinux
  exact ⟨((.osName, "nt"), (.sysPlatform, "linux")), by simp [incompatiblePairs],
    (hnt.holds_iff v).mp hholdsNt, (hlinux.holds_iff v).mp hholdsLinux⟩

/-- The conjunction with a terminal is answered at once. -/
theorem combine_terminal {finish : Node → Node → NodeId → InternerM NodeId} {fuel : ℕ}
    (hopen : Open below s) (hrank : xi.rank = 0) (hy : s.Valid yi) :
    Ensures (Open below) (combine finish (fuel + 1) xi yi) s (Conj · xi yi) := by
  have hrules := conjoins_sound below (· = none)
  have hx : xi = .TRUE ∨ xi = .FALSE := by
    have hraw : xi.raw = 0 ∨ xi.raw = 1 := by
      unfold NodeId.rank at hrank
      omega
    exact hraw.imp NodeId.ext NodeId.ext
  have hx' : s.Valid xi := hx.elim (· ▸ valid_true) (· ▸ valid_false)
  rw [combine]
  by_cases htrue : xi = .TRUE
  · rw [if_pos (NodeId.isTrue_iff.mpr htrue)]
    subst htrue
    exact Ensures.pure hopen (hrules.left_true hopen ⟨hx', hy⟩)
  · have hfalse := hx.resolve_left htrue
    subst hfalse
    rw [if_neg (by decide)]
    by_cases hyTrue : yi.isTrue = true
    · rw [if_pos hyTrue]
      rw [NodeId.isTrue_iff] at hyTrue
      subst hyTrue
      exact Ensures.pure hopen (hrules.right_true hopen ⟨hx', hy⟩)
    rw [if_neg hyTrue]
    by_cases hsame : NodeId.FALSE = yi
    · rw [if_pos hsame]
      subst hsame
      exact Ensures.pure hopen (hrules.same hopen ⟨hx', hy⟩)
    rw [if_neg hsame, if_pos (by rfl)]
    exact Ensures.pure hopen (hrules.left_false hopen ⟨hx', hy⟩)

/-- The first conjunction of markers of conflicting variables builds the exclusions,
which leaves an answer for the first pair behind. -/
theorem and_answersPair (hopen : Open below s) (hx : s.node xi = some x)
    (hy : s.node yi = some y) (hxVar : x.var.isConflictingVariable = true)
    (hyVar : y.var.isConflictingVariable = true) (hlt : x.var < y.var)
    (hterminal : ∀ child ∈ x.children.nodes, child.rank = 0)
    (hopposite : xi.not ≠ yi) (hcached : s.cached xi yi = none)
    (hposix : Means s (xi, .osName, "posix")) :
    Ensures (fun _ => True) (and xi yi) s fun s' _ => AnswersPair s' := by
  have hrules := conjoins_sound below (· = none)
  have hpre : s.Valid xi ∧ s.Valid yi := ⟨valid_of_node hx, valid_of_node hy⟩
  have hne : xi ≠ yi := by
    rintro rfl
    rw [hx] at hy
    cases hy
    exact lt_irrefl _ hlt
  obtain ⟨htrue, hfalse⟩ := no_terminals hx hy
  have hboth : (x.var.isConflictingVariable && y.var.isConflictingVariable) = true := by
    rw [hxVar, hyVar]
    rfl
  have hrank : xi.rank + yi.rank ≠ 0 := by
    obtain ⟨index, hindex, -⟩ := exists_index hx
    rw [hindex, NodeId.rank_new]
    omega
  obtain ⟨fuel, hfuel⟩ : ∃ fuel, xi.rank + yi.rank = fuel + 1 :=
    Nat.exists_eq_succ_of_ne_zero hrank
  rw [Pep508.and, combine, if_neg htrue.1, if_neg htrue.2, if_neg hne, if_neg hfalse,
    if_neg hopposite, hfuel]
  apply Ensures.get_bind
  rw [hcached]
  apply readNode_bind hx
  apply readNode_bind hy
  have hexpand : Ensures (Open below)
      (expand (combine checkExclusions (fuel + 1)) xi yi x y) s
      fun s' result => Expanded (Conj s') xi yi x y result.1 result.2 := by
    rw [expand, Variable.cmp_eq_lt.mpr hlt]
    apply Ensures.bind (Edges.map_ensures (fun c r => hrules.stable c yi r) hopen ?_)
    · intro children s' hopen' _ hmapped
      exact Ensures.pure hopen' (.left hlt hmapped)
    · intro s' hle hopen' child hchild
      apply combine_terminal hopen' ?_ (hpre.2.mono hle)
      rw [NodeId.rank_negate]
      exact hterminal child hchild
  obtain ⟨⟨var, children⟩, s₁, hrun₁, hopen₁, hle₁, hexpanded⟩ := hexpand
  obtain ⟨r, s₂, hrun₂, hopen₂, hle₂, hconj⟩ := hrules.create hopen₁
    (hrules.pre_stable _ _ hopen hopen₁ hle₁ hpre) (node_mono hle₁ hx) (node_mono hle₁ hy)
    hexpanded
  obtain ⟨tree, s₃, hrun₃, -, hle₃, hanswers⟩ := exclusions_answersPair hopen₂
  obtain ⟨r', s', hrun', hsound', -, -⟩ := checkExclusions_ensures hopen₂.1
    (node_mono (hle₁.trans hle₂) hx) (node_mono (hle₁.trans hle₂) hy) hconj
  -- The check builds the exclusions and changes nothing else.
  have hsame : s' = s₃ := by
    rw [checkExclusions, if_pos hboth, StateT.run_bind, hrun₃] at hrun'
    simp only [Option.bind_eq_bind, Option.bind_some, run_get_bind] at hrun'
    split at hrun' <;> cases hrun' <;> rfl
  subst hsame
  obtain ⟨nt, linux, hnt, hlinux, answer, hanswer, hanswerNe⟩ := hanswers
  have hle : s ≤ s' := hle₁.trans (hle₂.trans hle₃)
  have hother : xi ≠ nt :=
    (hposix.mono hopen.1.wellFormed hsound'.wellFormed hle).ne hnt (by decide)
  let last : Interner := { s' with cache := ((xi, yi), r') :: s'.cache }
  have hgrow : s' ≤ last := ⟨List.prefix_refl _, fun _ h => h⟩
  have hwfLast : last.WellFormed := ⟨hsound'.wellFormed.node, hsound'.wellFormed.unique⟩
  refine ⟨r', last, ?_, trivial, hle.trans hgrow, nt, linux,
    hnt.mono hsound'.wellFormed hwfLast hgrow,
    hlinux.mono hsound'.wellFormed hwfLast hgrow, answer, ?_, hanswerNe⟩
  · rw [StateT.run_bind, hrun₁]
    simp only [Option.bind_eq_bind, Option.bind_some, StateT.run_bind, hrun₂, hrun']
    rfl
  · have hkey : ((nt, linux) == (xi, yi)) = false := by
      simp [hother.symm]
    change List.lookup (nt, linux) (((xi, yi), r') :: s'.cache) = _
    rw [List.lookup_cons, hkey]
    exact hanswer

end Interner

section Runs

open Interner

/-- `<key> == '<value>'` with the edges complemented, as the table stores it. -/
def equalsNode (key : CanonicalMarkerValueString) (value : String) : Node :=
  Node.not ⟨.string key, .string (Edges.fromRange (.singleton value.toList))⟩

theorem osName_plain (value : String) :
    expressionEdges (.string .osName .equal value.toList) = some (.ok (.string .osName,
      .string (Edges.fromRange (.singleton value.toList)))) := rfl

theorem sysPlatform_plain (value : String) :
    expressionEdges (.string .sysPlatform .equal value.toList) =
      some (.ok (.string .sysPlatform,
        .string (Edges.fromRange (.singleton value.toList)))) := rfl

theorem run_map_some {action : InternerM NodeId} {s s' : Interner} {r : NodeId}
    (hrun : action.run s = some (r, s')) :
    (some <$> action).run s = some (some r, s') := by
  rw [map_eq_pure_bind, StateT.run_bind, hrun]
  rfl

/-- The table after two such markers. -/
def equalsTable (os platform : String) : Interner :=
  ⟨[equalsNode .osName os, equalsNode .sysPlatform platform], [], none⟩

/-- In a new interner, `os_name == 'nt'` and `sys_platform == 'linux'` are found to be
incompatible. -/
theorem Interner.ReachableInOrder.excludes_iff_ntOnLinux :
    (∃ s', (and (.new 0 true) (.new 1 true)).run (equalsTable "nt" "linux") =
        some (.FALSE, s')) ∧
      ∃ s', (isDisjoint (.new 0 true) (.new 1 true)).run (equalsTable "nt" "linux") =
        some (true, s') := by
  have hstart : Open (· < ·) Interner.default := ⟨sound_default strata_lt, rfl⟩
  have hntRun : (equals .osName "nt").run Interner.default =
      some (.new 0 true, ⟨[equalsNode .osName "nt"], [], none⟩) := rfl
  have hlinuxRun : (equals .sysPlatform "linux").run ⟨[equalsNode .osName "nt"], [], none⟩ =
      some (.new 1 true, equalsTable "nt" "linux") := rfl
  obtain ⟨hopen₁, -, hnt⟩ :=
    (equals_ensures (osName_plain "nt") hstart).of_run hntRun
  obtain ⟨hopen₂, hle, hlinux⟩ :=
    (equals_ensures (sysPlatform_plain "linux") hopen₁).of_run hlinuxRun
  have hreach₁ : ReachableInOrder ⟨[equalsNode .osName "nt"], [], none⟩ :=
    .step (.expression (.string .osName .equal "nt".toList)) .default
      (by simp [Operation.arguments]) (fun _ _ _ h => by cases h) (run_map_some hntRun)
  have hreach₂ : ReachableInOrder (equalsTable "nt" "linux") :=
    .step (.expression (.string .sysPlatform .equal "linux".toList)) hreach₁
      (by simp [Operation.arguments]) (fun _ _ _ h => by cases h) (run_map_some hlinuxRun)
  have hexcludes := (hnt.mono hopen₁.1.wellFormed hopen₂.1.wellFormed hle).excludes hlinux
  exact (hreach₂.excludes_iff rfl rfl rfl rfl hexcludes).mpr
    ⟨by decide, .inr fun r hcached => by cases hcached⟩

/-- Once any incompatible markers have been combined, `os_name == 'nt'` and
`sys_platform == 'linux'` are not found to be incompatible any more. -/
theorem Interner.not_excluded_after_exclusions :
    ¬ ∀ s : Interner, Reachable s → ∀ xi yi x y, s.node xi = some x →
      s.node yi = some y → x.var.isConflictingVariable = true →
      y.var.isConflictingVariable = true → Excludes s xi yi →
      (∃ s', (and xi yi).run s = some (.FALSE, s')) ∧
        ∃ s', (isDisjoint xi yi).run s = some (true, s') := by
  intro hclaim
  have hstart : Open (· < ·) Interner.default := ⟨sound_default strata_lt, rfl⟩
  have hposixRun : (equals .osName "posix").run Interner.default =
      some (.new 0 true, ⟨[equalsNode .osName "posix"], [], none⟩) := rfl
  have hwin32Run : (equals .sysPlatform "win32").run
      ⟨[equalsNode .osName "posix"], [], none⟩ = some (.new 1 true, equalsTable "posix" "win32") := rfl
  obtain ⟨hopen₁, hle₁, hposix⟩ :=
    (equals_ensures (osName_plain "posix") hstart).of_run hposixRun
  obtain ⟨hopen₂, hle₂, -⟩ :=
    (equals_ensures (sysPlatform_plain "win32") hopen₁).of_run hwin32Run
  have hposix₂ := hposix.mono hopen₁.1.wellFormed hopen₂.1.wellFormed hle₂
  have hx : (equalsTable "posix" "win32").node (.new 0 true) =
      some (equalsNode .osName "posix") := rfl
  have hy : (equalsTable "posix" "win32").node (.new 1 true) =
      some (equalsNode .sysPlatform "win32") := rfl
  obtain ⟨r, s, hrun, -, -, nt, linux, hnt, hlinux, answer, hanswer, hne⟩ :=
    and_answersPair hopen₂ hx hy rfl rfl (by decide) (by decide) (by decide) rfl hposix₂
  have hreach : Reachable s := by
    have hreach₁ : Reachable ⟨[equalsNode .osName "posix"], [], none⟩ :=
      .step (.expression (.string .osName .equal "posix".toList)) .default
        (by simp [Operation.arguments]) (run_map_some hposixRun)
    have hreach₂ : Reachable (equalsTable "posix" "win32") :=
      .step (.expression (.string .sysPlatform .equal "win32".toList)) hreach₁
        (by simp [Operation.arguments]) (run_map_some hwin32Run)
    exact .step (.and (.new 0 true) (.new 1 true)) hreach₂ (by decide) (run_map_some hrun)
  obtain ⟨x, hx⟩ := hnt.exists_node
  obtain ⟨y, hy⟩ := hlinux.exists_node
  have hxVar : x.var.isConflictingVariable = true := by
    rw [(hnt.vars.cases_node hx).1]
    rfl
  have hyVar : y.var.isConflictingVariable = true := by
    rw [(hlinux.vars.cases_node hy).1]
    rfl
  obtain ⟨⟨s', hand⟩, -⟩ := hclaim s hreach nt linux x y hx hy hxVar hyVar
    (hnt.excludes hlinux)
  obtain ⟨v, hholdsNt, hholdsLinux⟩ := holds_ntOnLinux hnt hlinux
  have hneSame : nt ≠ linux := hnt.ne_of_key hlinux (by decide)
  have hopposite : nt.not ≠ linux := by
    intro hnot
    rw [← hnot, holds_not hreach.sound.wellFormed hnt.valid] at hholdsLinux
    exact hholdsLinux hholdsNt
  rw [Pep508.and, combine, if_neg (by simp [isTrue_of_node hx]),
    if_neg (by simp [isTrue_of_node hy]), if_neg hneSame,
    if_neg (by simp [isFalse_of_node hx, isFalse_of_node hy]), if_neg hopposite,
    run_get_bind, hanswer] at hand
  cases hand
  exact hne rfl

end Runs

end Uv.Pep508
