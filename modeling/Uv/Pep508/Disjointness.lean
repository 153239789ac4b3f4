import Uv.Pep508.Combine

/-!
# Disjointness of diagrams

`disjointness` searches two diagrams at once for a common path to `true`.  It
always answers, and it is reduced to the same pairs of nodes as the conjunction.
-/

namespace Uv.Pep508

open Uv.Core Uv.Pep440

/-! ## Loops that stop at the first `false` -/

theorem allM_spec {α : Type} {f : α → Option Bool} {xs : List α}
    (htotal : ∀ x ∈ xs, ∃ answer, f x = some answer) :
    ∃ answer, xs.allM f = some answer ∧
      (answer = true ↔ ∀ x ∈ xs, f x = some true) := by
  induction xs with
  | nil => exact ⟨true, rfl, by simp⟩
  | cons x xs ih =>
      obtain ⟨first, hfirst⟩ := htotal x (by simp)
      obtain ⟨rest, hrest, hiff⟩ :=
        ih fun y hy => htotal y (List.mem_cons_of_mem _ hy)
      rw [List.allM_cons, hfirst]
      cases first with
      | false => exact ⟨false, rfl, by simp [hfirst]⟩
      | true => exact ⟨rest, hrest, by simp [hfirst, hiff]⟩

section Ranges

variable {T : Type} [OrdKey T] [RangeOps T]

/-- Two intervals are disjoint when no point lies in both. -/
theorem isDisjoint_eq_false_iff {left right : Ranges T}
    (hleft : left.IsInterval left.hull) (hright : right.IsInterval right.hull) :
    RangeOps.isDisjoint right left = false ↔
      ∃ point : Point (Cut T), point.In left.hull ∧ point.In right.hull := by
  rw [← Bool.not_eq_true, RangeOps.isDisjoint_iff hright.valid hleft.valid]
  simp only [not_forall, not_not, hleft.mem_iff, hright.mem_iff]
  constructor
  · rintro ⟨position, hinRight, hinLeft⟩
    exact ⟨.ofPosition position, Point.ofPosition_in.mpr hinLeft,
      Point.ofPosition_in.mpr hinRight⟩
  · rintro ⟨point, hinLeft, hinRight⟩
    -- The intervals overlap right after the later of their starts.
    have hstop : ∀ {cut : Cut T} {cuts : Cut T × WithTop (Cut T)},
        point.below cut → point.In cuts → (cut : WithTop (Cut T)) < cuts.2 := by
      intro cut cuts hbelow hin
      by_contra hle
      exact hin.2 (point.belowTop_of_le (not_lt.mp hle) hbelow)
    have hstart : point.below (max left.hull.1 right.hull.1) := by
      rcases max_choice left.hull.1 right.hull.1 with hmax | hmax
      · rw [hmax]; exact hinLeft.1
      · rw [hmax]; exact hinRight.1
    exact ⟨max left.hull.1 right.hull.1,
      ⟨le_max_right _ _, hstop hstart hinRight⟩,
      ⟨le_max_left _ _, hstop hstart hinLeft⟩⟩

theorem isDisjointRanges_spec {left right : List (Ranges T × NodeId)}
    (hleft : Cover left) (hright : Cover right) {leftParent rightParent : NodeId}
    {disjointness : NodeId → NodeId → Option Bool}
    (htotal : ∀ point l r, OnEdge point left l → OnEdge point right r →
      ∃ answer, disjointness (l.negate leftParent) (r.negate rightParent) =
        some answer) :
    ∃ answer, Edges.isDisjointRanges left leftParent right rightParent
        disjointness = some answer ∧
      (answer = true ↔ ∀ point l r, OnEdge point left l → OnEdge point right r →
        disjointness (l.negate leftParent) (r.negate rightParent) = some true) := by
  have hinner : ∀ edge ∈ left, ∀ edge' ∈ right,
      RangeOps.isDisjoint edge'.1 edge.1 = false →
        ∃ point, OnEdge point left edge.2 ∧ OnEdge point right edge'.2 := by
    intro edge hedge edge' hedge' hoverlap
    obtain ⟨point, hin, hin'⟩ := (isDisjoint_eq_false_iff
      (hleft.interval edge hedge) (hright.interval edge' hedge')).mp hoverlap
    exact ⟨point, onEdge_iff.mpr ⟨edge, hedge, rfl, hin⟩,
      onEdge_iff.mpr ⟨edge', hedge', rfl, hin'⟩⟩
  let step (edge edge' : Ranges T × NodeId) : Option Bool :=
    if RangeOps.isDisjoint edge'.1 edge.1 then pure true
    else disjointness (edge.2.negate leftParent) (edge'.2.negate rightParent)
  have hstep : ∀ edge ∈ left, ∀ edge' ∈ right,
      ∃ answer, step edge edge' = some answer := by
    intro edge hedge edge' hedge'
    simp only [step]
    split
    · exact ⟨true, rfl⟩
    · rename_i hoverlap
      obtain ⟨point, hl, hr⟩ :=
        hinner edge hedge edge' hedge' (by simpa using hoverlap)
      exact htotal point _ _ hl hr
  have hrow : ∀ edge ∈ left, ∃ answer, right.allM (step edge) = some answer ∧
      (answer = true ↔ ∀ edge' ∈ right, step edge edge' = some true) :=
    fun edge hedge => allM_spec (hstep edge hedge)
  have hrowTotal : ∀ edge ∈ left, ∃ answer, right.allM (step edge) = some answer :=
    fun edge hedge => (hrow edge hedge).imp fun _ h => h.1
  obtain ⟨answer, hanswer, hiff⟩ := allM_spec hrowTotal
  refine ⟨answer, hanswer, hiff.trans ⟨?_, ?_⟩⟩
  · intro hall point l r hl hr
    obtain ⟨edge, hedge, rfl, hin⟩ := onEdge_iff.mp hl
    obtain ⟨edge', hedge', rfl, hin'⟩ := onEdge_iff.mp hr
    obtain ⟨answer, hrun, hiff⟩ := hrow edge hedge
    have htrue := hall edge hedge
    rw [hrun, Option.some.injEq] at htrue
    have hboth := hiff.mp htrue edge' hedge'
    have hoverlap := (isDisjoint_eq_false_iff (hleft.interval edge hedge)
      (hright.interval edge' hedge')).mpr ⟨point, hin, hin'⟩
    simpa [step, hoverlap] using hboth
  · intro hall edge hedge
    obtain ⟨answer, hrun, hiff⟩ := hrow edge hedge
    rw [hrun, Option.some.injEq, hiff]
    intro edge' hedge'
    simp only [step]
    split
    · rfl
    · rename_i hoverlap
      obtain ⟨point, hl, hr⟩ :=
        hinner edge hedge edge' hedge' (by simpa using hoverlap)
      exact hall point _ _ hl hr

end Ranges

variable [RangeOps ValidVersion] [RangeOps Text]

theorem Edges.isDisjoint_spec {var : Variable} {left right : Edges}
    (hleft : left.Fits var) (hright : right.Fits var)
    {leftParent rightParent : NodeId}
    {disjointness : NodeId → NodeId → Option Bool}
    (htotal : ∀ (v : Valuation) l r, v.Picks var left l → v.Picks var right r →
      ∃ answer, disjointness (l.negate leftParent) (r.negate rightParent) =
        some answer) :
    ∃ answer, left.isDisjoint leftParent right rightParent disjointness =
        some answer ∧
      (answer = true ↔ ∀ (v : Valuation) l r, v.Picks var left l →
        v.Picks var right r →
          disjointness (l.negate leftParent) (r.negate rightParent) =
            some true) := by
  unfold Fits at hleft hright
  cases hdomain : var.domain with
  | version key =>
      cases left <;> cases right <;> simp only [hdomain] at hleft hright
      simp only [Valuation.Picks, hdomain] at htotal ⊢
      obtain ⟨answer, hrun, hiff⟩ := isDisjointRanges_spec hleft hright
        fun point => htotal (.at point (.ofPosition ⊥))
      exact ⟨answer, hrun, hiff.trans ⟨fun hall v => hall _,
        fun hall point => hall (.at point (.ofPosition ⊥))⟩⟩
  | string key =>
      cases left <;> cases right <;> simp only [hdomain] at hleft hright
      simp only [Valuation.Picks, hdomain] at htotal ⊢
      obtain ⟨answer, hrun, hiff⟩ := isDisjointRanges_spec hleft hright
        fun point => htotal (.at (.ofPosition ⊥) point)
      exact ⟨answer, hrun, hiff.trans ⟨fun hall v => hall _,
        fun hall point => hall (.at (.ofPosition ⊥) point)⟩⟩
  | boolean =>
      cases left <;> cases right <;> simp only [hdomain] at hleft hright
      rename_i high low rightHigh rightLow
      have hpick := Valuation.picks_boolean hdomain
      obtain ⟨first, hfirst⟩ := htotal _ _ _ (hpick true high low)
        (hpick true rightHigh rightLow)
      obtain ⟨second, hsecond⟩ := htotal _ _ _ (hpick false high low)
        (hpick false rightHigh rightLow)
      simp only [if_true, Bool.false_eq_true, if_false] at hfirst hsecond
      refine ⟨first && second, ?_, ?_⟩
      · simp only [isDisjoint, hfirst]
        cases first
        · rfl
        · simpa using hsecond
      · rw [Bool.and_eq_true]
        simp only [Valuation.Picks, hdomain]
        constructor
        · rintro ⟨rfl, rfl⟩ v l r rfl rfl
          cases v.bool var
          · exact hsecond
          · exact hfirst
        · intro hall
          have hvalue : ∀ value : Bool, disjointness
              ((if value then high else low).negate leftParent)
              ((if value then rightHigh else rightLow).negate rightParent) =
                some true := fun value =>
            hall ⟨fun _ => .ofPosition ⊥, fun _ => .ofPosition ⊥, fun _ => value⟩
              _ _ rfl rfl
          exact ⟨Option.some.inj (hfirst.symm.trans (hvalue true)),
            Option.some.inj (hsecond.symm.trans (hvalue false))⟩

namespace Interner

variable {s : Interner} {xi yi : NodeId} {x y : Node}

/-- Two nodes are disjoint when all the pairs they are reduced to are. -/
theorem disjointness_step (hwf : WellFormed s) (hx : s.node xi = some x)
    (hy : s.node yi = some y) (hne : xi ≠ yi) (hopposite : xi.not ≠ yi) {fuel : ℕ}
    (htotal : ∀ xi' yi', SubPair xi yi x y xi' yi' →
      ∃ answer, disjointness s fuel xi' yi' = some answer) :
    ∃ answer, disjointness s (fuel + 1) xi yi = some answer ∧
      (answer = true ↔ ∀ xi' yi', SubPair xi yi x y xi' yi' →
        disjointness s fuel xi' yi' = some true) := by
  have hrun : disjointness s (fuel + 1) xi yi =
      if x.var.cmp y.var = .lt then
        x.children.nodes.allM fun node => disjointness s fuel (node.negate xi) yi
      else if x.var.cmp y.var = .gt then
        y.children.nodes.allM fun node => disjointness s fuel (node.negate yi) xi
      else x.children.isDisjoint xi y.children yi (disjointness s fuel) := by
    simp only [disjointness, isTrue_of_node hx, isTrue_of_node hy,
      isFalse_of_node hx, isFalse_of_node hy, Bool.or_self, Bool.false_eq_true,
      if_false, hne, hopposite, hx, hy, Option.bind_eq_bind, Option.bind_some]
    cases x.var.cmp y.var <;> rfl
  rw [hrun]
  cases hcmp : x.var.cmp y.var with
  | lt =>
      have hlt := Variable.cmp_eq_lt.mp hcmp
      obtain ⟨answer, hanswer, hiff⟩ := allM_spec fun child hchild =>
        htotal (child.negate xi) yi (.left hlt hchild)
      refine ⟨answer, hanswer, hiff.trans ⟨?_, ?_⟩⟩
      · intro hall xi' yi' hsub
        cases hsub with
        | left _ hchild => exact hall _ hchild
        | right hgt => exact absurd hgt hlt.not_gt
        | both heq => exact absurd heq hlt.ne
      · exact fun hall child hchild => hall _ _ (.left hlt hchild)
  | gt =>
      have hlt := Variable.cmp_eq_gt.mp hcmp
      obtain ⟨answer, hanswer, hiff⟩ := allM_spec fun child hchild =>
        htotal (child.negate yi) xi (.right hlt hchild)
      refine ⟨answer, hanswer, hiff.trans ⟨?_, ?_⟩⟩
      · intro hall xi' yi' hsub
        cases hsub with
        | left hgt => exact absurd hgt hlt.not_gt
        | right _ hchild => exact hall _ hchild
        | both heq => exact absurd heq hlt.ne'
      · exact fun hall child hchild => hall _ _ (.right hlt hchild)
  | eq =>
      have heq := Variable.cmp_eq_eq.mp hcmp
      obtain ⟨answer, hanswer, hiff⟩ := Edges.isDisjoint_spec (hwf.fits hx)
        (heq ▸ hwf.fits hy) fun v l r hl hr => htotal _ _ (.both heq hl hr)
      refine ⟨answer, hanswer, hiff.trans ⟨?_, ?_⟩⟩
      · intro hall xi' yi' hsub
        cases hsub with
        | left hlt => exact absurd heq hlt.ne
        | right hgt => exact absurd heq hgt.ne'
        | both _ hleft hright => exact hall _ _ _ hleft hright
      · exact fun hall v l r hl hr => hall _ _ (.both heq hl hr)

omit [RangeOps ValidVersion] [RangeOps Text] in
/-- A valuation that satisfies both nodes satisfies one of the pairs they are
reduced to. -/
theorem exists_subPair (hwf : WellFormed s) (hx : s.node xi = some x)
    (hy : s.node yi = some y) {v : Valuation} (hholdsX : Holds s v xi)
    (hholdsY : Holds s v yi) :
    ∃ xi' yi', SubPair xi yi x y xi' yi' ∧ Holds s v xi' ∧ Holds s v yi' := by
  obtain ⟨left, hleft⟩ := v.exists_picks (hwf.fits hx)
  obtain ⟨right, hright⟩ := v.exists_picks (hwf.fits hy)
  have hholdsLeft := (holds_iff_child hwf hx hleft).mp hholdsX
  have hholdsRight := (holds_iff_child hwf hy hright).mp hholdsY
  rcases lt_trichotomy x.var y.var with hlt | heq | hlt
  · exact ⟨_, _, .left hlt hleft.mem, hholdsLeft, hholdsY⟩
  · rw [← heq] at hright
    exact ⟨_, _, .both heq hleft hright, hholdsLeft, hholdsRight⟩
  · exact ⟨_, _, .right hlt hright.mem, hholdsRight, hholdsX⟩

/-- With enough fuel there is an answer, and disjoint diagrams are never both
true. -/
theorem disjointness_sound (hwf : WellFormed s) (hxValid : s.Valid xi)
    (hyValid : s.Valid yi) {fuel : ℕ} (hfuel : xi.rank + yi.rank < fuel) :
    ∃ answer, disjointness s fuel xi yi = some answer ∧
      (answer = true → ∀ v, ¬ (Holds s v xi ∧ Holds s v yi)) := by
  induction fuel generalizing xi yi with
  | zero => omega
  | succ fuel ih =>
      by_cases hfalse : (xi.isFalse || yi.isFalse) = true
      · refine ⟨true, by simp [disjointness, hfalse], fun _ v hboth => ?_⟩
        rcases Bool.or_eq_true _ _ |>.mp hfalse with hx | hy
        · exact not_holds_false (NodeId.isFalse_iff.mp hx ▸ hboth.1)
        · exact not_holds_false (NodeId.isFalse_iff.mp hy ▸ hboth.2)
      by_cases htrue : (xi.isTrue || yi.isTrue) = true
      · exact ⟨false, by simp [disjointness, hfalse, htrue], by simp⟩
      by_cases hsame : xi = yi
      · refine ⟨false, ?_, by simp⟩
        rw [disjointness, if_neg hfalse, if_neg htrue, if_pos hsame]
      by_cases hopposite : xi.not = yi
      · refine ⟨true, ?_, fun _ v hboth => ?_⟩
        · rw [disjointness, if_neg hfalse, if_neg htrue, if_neg hsame,
            if_pos hopposite]
        rw [← hopposite] at hboth
        exact (holds_not hwf hxValid).mp hboth.2 hboth.1
      obtain ⟨x, y, hx, hy⟩ := exists_nodes hxValid hyValid htrue hfalse
      have hrec : ∀ xi' yi', SubPair xi yi x y xi' yi' →
          ∃ answer, disjointness s fuel xi' yi' = some answer ∧
            (answer = true → ∀ v, ¬ (Holds s v xi' ∧ Holds s v yi')) := by
        intro xi' yi' hsub
        obtain ⟨hvalid, hvalid'⟩ := hsub.valid hwf hx hy
        have hrank := hsub.rank_lt hwf hx hy
        exact ih hvalid hvalid' (by omega)
      obtain ⟨answer, hanswer, hiff⟩ := disjointness_step hwf hx hy hsame hopposite
        fun xi' yi' hsub => (hrec xi' yi' hsub).imp fun _ h => h.1
      refine ⟨answer, hanswer, fun htrue v hboth => ?_⟩
      obtain ⟨xi', yi', hsub, hholds, hholds'⟩ :=
        exists_subPair hwf hx hy hboth.1 hboth.2
      obtain ⟨answer', hanswer', hsound⟩ := hrec xi' yi' hsub
      have htrue' := hiff.mp htrue xi' yi' hsub
      rw [hanswer', Option.some.injEq] at htrue'
      exact hsound htrue' v ⟨hholds, hholds'⟩

end Interner

end Uv.Pep508
