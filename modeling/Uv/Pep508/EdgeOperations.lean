import Uv.Pep508.Meaning

/-!
# Operations on edges

What the loops over the edges of nodes produce, for any action on the children:
edges that cover the order again, with labels that the action relates to the
labels of the operands at every point.
-/

namespace Uv.Pep508

open Uv.Core Uv.Pep440

/-! ## Assembling edges from left to right -/

section Assemble

variable {T : Type} [OrdKey T]

/-- The edges cover everything below `stop`, neighbours lead to different
children, and the labels are as described. -/
structure Assembled (Label : Point (Cut T) → NodeId → Prop)
    (stop : WithTop (Cut T)) (combined : List (Ranges T × NodeId)) : Prop where
  interval : ∀ edge ∈ combined, edge.1.IsInterval edge.1.hull
  tiles : Tiles ((⊥ : Cut T) : WithTop (Cut T))
    ((tilesOf combined).map Prod.fst) stop
  chain : (combined.map Prod.snd).IsChain (· ≠ ·)
  label : ∀ {point child}, OnEdge point combined child → Label point child

theorem assembled_nil (Label : Point (Cut T) → NodeId → Prop) :
    Assembled Label ((⊥ : Cut T) : WithTop (Cut T)) [] where
  interval := by simp
  tiles := rfl
  chain := .nil
  label hedge := by
    obtain ⟨tile, htile, -⟩ := hedge
    cases htile

theorem Assembled.cover {Label : Point (Cut T) → NodeId → Prop}
    {combined : List (Ranges T × NodeId)}
    (hassembled : Assembled Label ⊤ combined) : Cover combined :=
  ⟨hassembled.interval, hassembled.tiles⟩

theorem Assembled.imp {Label Label' : Point (Cut T) → NodeId → Prop}
    (himp : ∀ {point child}, Label point child → Label' point child)
    {stop : WithTop (Cut T)} {combined : List (Ranges T × NodeId)}
    (hassembled : Assembled Label stop combined) :
    Assembled Label' stop combined :=
  { hassembled with label := fun hedge => himp (hassembled.label hedge) }

theorem onEdge_append {point : Point (Cut T)} {child : NodeId}
    {left right : List (Ranges T × NodeId)} :
    OnEdge point (left ++ right) child ↔
      OnEdge point left child ∨ OnEdge point right child := by
  simp only [onEdge_iff, List.mem_append]
  constructor
  · rintro ⟨edge, hmem | hmem, hrest⟩
    · exact .inl ⟨edge, hmem, hrest⟩
    · exact .inr ⟨edge, hmem, hrest⟩
  · rintro (⟨edge, hmem, hrest⟩ | ⟨edge, hmem, hrest⟩)
    · exact ⟨edge, .inl hmem, hrest⟩
    · exact ⟨edge, .inr hmem, hrest⟩

theorem onEdge_singleton {point : Point (Cut T)} {child : NodeId}
    {edge : Ranges T × NodeId} :
    OnEdge point [edge] child ↔ edge.2 = child ∧ point.In edge.1.hull := by
  simp [onEdge_iff]

/-- Neighbouring intervals can be conjoined. -/
theorem canConjoin_of_adjacent {left right : Ranges T} {start middle : Cut T}
    {stop : WithTop (Cut T)}
    (hleft : left.IsInterval (start, (middle : WithTop (Cut T))))
    (hright : right.IsInterval (middle, stop)) : canConjoin left right = true := by
  obtain ⟨⟨start₁, stop₁⟩, hbounds₁, hcuts₁⟩ := hleft.exists_boundingRange
  obtain ⟨⟨start₂, stop₂⟩, hbounds₂, hcuts₂⟩ := hright.exists_boundingRange
  have hmeet : stop₁.upperCut = (start₂.lowerCut : WithTop (Cut T)) := by
    have hstop : stop₁.upperCut = (middle : WithTop (Cut T)) :=
      congrArg Prod.snd hcuts₁
    have hstart : start₂.lowerCut = middle := congrArg Prod.fst hcuts₂
    rw [hstop, hstart]
  simp only [canConjoin, hbounds₁, hbounds₂]
  cases stop₁ <;> cases start₂ <;>
    simp_all [Bound.upperCut, Bound.lowerCut, Cut.before_eq_before,
      Cut.after_eq_after, Cut.before_ne_after, Cut.before_ne_after.symm,
      (Cut.bot_lt_before _).ne', (Cut.bot_lt_after _).ne',
      Bound.compare_eq_eq]

variable [RangeOps T]

/-- Appending the next interval, merged or not. -/
theorem Assembled.pushMerged {Label : Point (Cut T) → NodeId → Prop}
    {start : Cut T} {stop : WithTop (Cut T)}
    {combined : List (Ranges T × NodeId)} {intersection : Ranges T}
    {node : NodeId}
    (hassembled : Assembled Label (start : WithTop (Cut T)) combined)
    (hinterval : intersection.IsInterval (start, stop))
    (hlabel : ∀ point : Point (Cut T), point.In (start, stop) → Label point node) :
    Assembled Label stop (Edges.pushMerged combined intersection node) := by
  obtain ⟨hintervals, htiles, hchain, hlabels⟩ := hassembled
  rcases List.eq_nil_or_concat combined with rfl | ⟨init, ⟨range, prev⟩, rfl⟩
  · have hstart : ((⊥ : Cut T) : WithTop (Cut T)) = start := htiles
    refine ⟨by simp [Edges.pushMerged, hinterval.hull_eq, hinterval], ?_, by
      simp [Edges.pushMerged], fun hedge => ?_⟩
    · simp only [Edges.pushMerged, List.getLast?_nil, tilesOf, List.map_cons,
        List.map_nil, hinterval.hull_eq]
      exact ⟨hstart, hinterval.nonempty, rfl⟩
    · simp only [Edges.pushMerged, List.getLast?_nil, onEdge_singleton,
        hinterval.hull_eq] at hedge
      exact hedge.1 ▸ hlabel _ hedge.2
  · rw [List.concat_eq_append] at *
    have hlast := hintervals (range, prev) (by simp)
    have hinit : ∀ edge ∈ init, edge.1.IsInterval edge.1.hull :=
      fun edge hedge => hintervals edge (List.mem_append_left _ hedge)
    simp only [tilesOf, List.map_append, List.map_cons, List.map_nil,
      tiles_append] at htiles
    obtain ⟨middle, htilesInit, hmiddle, -, hend⟩ := htiles
    have hpush : Edges.pushMerged (init ++ [(range, prev)]) intersection node =
        if prev = node ∧ canConjoin range intersection then
          init ++ [(RangeOps.union range intersection, prev)]
        else init ++ [(range, prev)] ++ [(intersection, node)] := by
      simp [Edges.pushMerged]
    have hmeet : range.IsInterval (range.hull.1, (start : WithTop (Cut T))) := by
      have hcuts : range.hull = (range.hull.1, (start : WithTop (Cut T))) :=
        Prod.ext rfl hend
      rw [← hcuts]
      exact hlast
    have hunion := Ranges.isInterval_union hmeet hinterval
    rw [hpush]
    by_cases hsame : prev = node
    · rw [if_pos ⟨hsame, canConjoin_of_adjacent hmeet hinterval⟩]
      refine ⟨?_, ?_, by simpa using hchain, fun hedge => ?_⟩
      · intro edge hedge
        rcases List.mem_append.mp hedge with hmem | hmem
        · exact hinit edge hmem
        · rw [List.mem_singleton.mp hmem, hunion.hull_eq]
          exact hunion
      · simp only [tilesOf, List.map_append, List.map_cons, List.map_nil,
          tiles_append, hunion.hull_eq]
        exact ⟨middle, htilesInit, hmiddle, hunion.nonempty, rfl⟩
      · rcases onEdge_append.mp hedge with hinitEdge | hlastEdge
        · exact hlabels (onEdge_append.mpr (.inl hinitEdge))
        · rw [onEdge_singleton, hunion.hull_eq] at hlastEdge
          obtain ⟨rfl, hbelow, habove⟩ := hlastEdge
          rename_i point
          by_cases hpast : point.below start
          · exact hsame ▸ hlabel point ⟨hpast, habove⟩
          · refine hlabels (onEdge_append.mpr (.inr ?_))
            rw [onEdge_singleton, hmeet.hull_eq]
            exact ⟨rfl, hbelow, hpast⟩
    · rw [if_neg fun h => hsame h.1]
      refine ⟨?_, ?_, ?_, fun hedge => ?_⟩
      · intro edge hedge
        rcases List.mem_append.mp hedge with hmem | hmem
        · exact hintervals edge hmem
        · rw [List.mem_singleton.mp hmem, hinterval.hull_eq]
          exact hinterval
      · simp only [tilesOf, List.map_append, List.map_cons, List.map_nil,
          tiles_append, hinterval.hull_eq]
        exact ⟨start, ⟨middle, htilesInit, hmiddle, hlast.nonempty, hend⟩, rfl,
          hinterval.nonempty, rfl⟩
      · rw [List.map_append, List.isChain_append]
        refine ⟨hchain, .singleton _, fun last hlastMem first hfirst => ?_⟩
        simp only [List.map_append, List.map_cons, List.map_nil,
          List.getLast?_append, List.getLast?_singleton, Option.some_or,
          Option.mem_def, Option.some.injEq, List.head?_cons] at hlastMem hfirst
        rw [← hlastMem, ← hfirst]
        exact hsame
      · rcases onEdge_append.mp hedge with hold | hnew
        · exact hlabels hold
        · rw [onEdge_singleton, hinterval.hull_eq] at hnew
          exact hnew.1 ▸ hlabel _ hnew.2

end Assemble

/-! ## Combining two coverings -/

section Apply

variable {σ : Type} [Preorder σ] {Inv : σ → Prop}
  {related : σ → NodeId → NodeId → NodeId → Prop}
  {T : Type} [OrdKey T]

/-- The label comes from related labels of both operands. -/
def CombinedLabel (related : NodeId → NodeId → NodeId → Prop)
    (left : List (Ranges T × NodeId)) (leftParent : NodeId)
    (right : List (Ranges T × NodeId)) (rightParent : NodeId)
    (point : Point (Cut T)) (child : NodeId) : Prop :=
  ∃ leftChild rightChild, OnEdge point left leftChild ∧
    OnEdge point right rightChild ∧
    related (leftChild.negate leftParent) (rightChild.negate rightParent) child

/-- From `s` on, the action relates its result to the labels of both operands
at a point. -/
def Combines (Inv : σ → Prop) (apply : NodeId → NodeId → StateT σ Option NodeId)
    (related : σ → NodeId → NodeId → NodeId → Prop)
    (left : List (Ranges T × NodeId)) (leftParent : NodeId)
    (right : List (Ranges T × NodeId)) (rightParent : NodeId) (s : σ) : Prop :=
  ∀ s', s ≤ s' → Inv s' → ∀ point leftChild rightChild,
    OnEdge point left leftChild → OnEdge point right rightChild →
    Ensures Inv (apply (leftChild.negate leftParent)
      (rightChild.negate rightParent)) s' fun s'' r =>
        related s'' (leftChild.negate leftParent)
          (rightChild.negate rightParent) r

variable [RangeOps T] {left right : List (Ranges T × NodeId)}
  {leftParent rightParent : NodeId}
  {apply : NodeId → NodeId → StateT σ Option NodeId}

/-- The inner loop: the part of one left edge that lies before the remaining
right edges is covered. -/
theorem applyRight_ensures
    (hstable : ∀ x y r, Stable Inv (related · x y r))
    {leftEdge : Ranges T × NodeId} (hleftMem : leftEdge ∈ left)
    (hleft : leftEdge.1.IsInterval leftEdge.1.hull)
    {rest combined : List (Ranges T × NodeId)} {reached : WithTop (Cut T)} {s : σ}
    (hinv : Inv s)
    (hright : ∀ edge ∈ rest, edge ∈ right ∧ edge.1.IsInterval edge.1.hull)
    (hrest : Tiles reached ((tilesOf rest).map Prod.fst) ⊤)
    (hcombined : Assembled
      (CombinedLabel (related s) left leftParent right rightParent)
      (max (leftEdge.1.hull.1 : WithTop (Cut T)) (min leftEdge.1.hull.2 reached))
      combined)
    (happly : Combines Inv apply related left leftParent right rightParent s) :
    Ensures Inv (Edges.applyRight apply leftEdge.1
      (leftEdge.2.negate leftParent) rightParent rest combined) s
      fun s' combined' => Assembled
        (CombinedLabel (related s') left leftParent right rightParent)
        leftEdge.1.hull.2 combined' := by
  induction rest generalizing reached combined s with
  | nil =>
      obtain rfl : reached = ⊤ := hrest
      refine Ensures.pure hinv ?_
      rwa [min_top_right, max_eq_right hleft.nonempty.le] at hcombined
  | cons edge rest ih =>
      obtain ⟨rfl, hnonempty, htail⟩ := hrest
      obtain ⟨hmem, hinterval⟩ := hright edge (by simp)
      have hrightTail : ∀ edge ∈ rest,
          edge ∈ right ∧ edge.1.IsInterval edge.1.hull :=
        fun edge hedge => hright edge (List.mem_cons_of_mem _ hedge)
      obtain ⟨rightRange, rightChild⟩ := edge
      simp only [Edges.applyRight]
      simp only at hnonempty htail hinterval hcombined
      have hempty := Ranges.isEmpty_intersection_iff hinterval hleft
      by_cases hoverlap : ((max rightRange.hull.1 leftEdge.1.hull.1 : Cut T) :
          WithTop (Cut T)) < min rightRange.hull.2 leftEdge.1.hull.2
      · have hmeet := Ranges.isInterval_intersection hinterval hleft hoverlap
        rw [if_neg (by rw [hempty]; exact not_not.mpr hoverlap)]
        have honEdge : ∀ point : Point (Cut T),
            point.In (max rightRange.hull.1 leftEdge.1.hull.1,
              min rightRange.hull.2 leftEdge.1.hull.2) →
            OnEdge point left leftEdge.2 ∧ OnEdge point right rightChild := by
          rintro point ⟨hbelow, habove⟩
          have hbelowTop {cut : WithTop (Cut T)}
              (hle : min rightRange.hull.2 leftEdge.1.hull.2 ≤ cut) :
              ¬ point.belowTop cut :=
            fun h => habove (point.belowTop_of_le hle h)
          exact ⟨onEdge_iff.mpr ⟨leftEdge, hleftMem, rfl,
              point.below_of_le (le_max_right _ _) hbelow,
              hbelowTop (min_le_right _ _)⟩,
            onEdge_iff.mpr ⟨_, hmem, rfl,
              point.below_of_le (le_max_left _ _) hbelow,
              hbelowTop (min_le_left _ _)⟩⟩
        obtain ⟨honLeft, honRight⟩ := honEdge
          (Point.ofPosition (max rightRange.hull.1 leftEdge.1.hull.1))
          (Point.ofPosition_in.mpr ⟨le_rfl, hoverlap⟩)
        refine Ensures.bind (happly s le_rfl hinv _ _ _ honLeft honRight)
          fun node s' hinv' hle hnode => ?_
        refine ih hinv' hrightTail htail ?_ fun s'' hle' =>
          happly s'' (hle.trans hle')
        have hstart : max (leftEdge.1.hull.1 : WithTop (Cut T))
            (min leftEdge.1.hull.2 rightRange.hull.1) =
              ((max rightRange.hull.1 leftEdge.1.hull.1 : Cut T) :
                WithTop (Cut T)) := by
          rw [WithTop.coe_max] at hoverlap ⊢
          have hlt := (le_max_left _ _).trans_lt
            (hoverlap.trans_le (min_le_right _ _))
          rw [min_eq_right hlt.le, max_comm]
        have hstop : max (leftEdge.1.hull.1 : WithTop (Cut T))
            (min leftEdge.1.hull.2 rightRange.hull.2) =
              min rightRange.hull.2 leftEdge.1.hull.2 := by
          rw [WithTop.coe_max] at hoverlap
          rw [min_comm]
          exact max_eq_right ((le_max_right _ _).trans hoverlap.le)
        rw [hstop]
        rw [hstart] at hcombined
        refine (hcombined.imp ?_).pushMerged hmeet fun point hin => ?_
        · rintro point child ⟨leftChild, rightChild, hl, hr, hrelated⟩
          exact ⟨leftChild, rightChild, hl, hr, hstable _ _ _ hinv hinv' hle hrelated⟩
        · obtain ⟨hl, hr⟩ := honEdge point hin
          exact ⟨leftEdge.2, rightChild, hl, hr, hnode⟩
      · rw [if_pos (hempty.mpr hoverlap)]
        refine ih hinv hrightTail htail ?_ happly
        have hstay : max (leftEdge.1.hull.1 : WithTop (Cut T))
            (min leftEdge.1.hull.2 rightRange.hull.1) =
              max (leftEdge.1.hull.1 : WithTop (Cut T))
                (min leftEdge.1.hull.2 rightRange.hull.2) := by
          rw [WithTop.coe_max, not_lt, min_le_iff, le_max_iff, le_max_iff]
            at hoverlap
          have hleftNonempty := hleft.nonempty
          rcases hoverlap with (hle | hle) | (hle | hle)
          · exact absurd hle (not_le.mpr hnonempty)
          · rw [max_eq_left ((min_le_right _ _).trans (hnonempty.le.trans hle)),
              max_eq_left ((min_le_right _ _).trans hle)]
          · rw [min_eq_left hle, min_eq_left (hle.trans hnonempty.le)]
          · exact absurd hle (not_le.mpr hleftNonempty)
        rwa [hstay] at hcombined

/-- The outer loop: everything before the remaining left edges is covered. -/
theorem applyLeft_ensures
    (hstable : ∀ x y r, Stable Inv (related · x y r))
    (hright : Cover right) {rest combined : List (Ranges T × NodeId)}
    {reached : WithTop (Cut T)} {s : σ} (hinv : Inv s)
    (hleft : ∀ edge ∈ rest, edge ∈ left ∧ edge.1.IsInterval edge.1.hull)
    (hrest : Tiles reached ((tilesOf rest).map Prod.fst) ⊤)
    (hcombined : Assembled
      (CombinedLabel (related s) left leftParent right rightParent) reached combined)
    (happly : Combines Inv apply related left leftParent right rightParent s) :
    Ensures Inv (Edges.applyLeft apply leftParent right rightParent rest
      combined) s fun s' combined' => Assembled
        (CombinedLabel (related s') left leftParent right rightParent) ⊤
        combined' := by
  induction rest generalizing reached combined s with
  | nil =>
      obtain rfl : reached = ⊤ := hrest
      exact Ensures.pure hinv hcombined
  | cons edge rest ih =>
      obtain ⟨rfl, hnonempty, htail⟩ := hrest
      obtain ⟨hmem, hinterval⟩ := hleft edge (by simp)
      simp only [Edges.applyLeft]
      refine Ensures.bind (applyRight_ensures hstable hmem hinterval hinv
        (fun edge hedge => ⟨hedge, hright.interval edge hedge⟩) hright.tiles ?_
        happly) fun combined' s' hinv' hle hcombined' => ?_
      · rw [min_eq_right (by simp), max_eq_left (by simp)]
        exact hcombined
      · exact ih hinv' (fun edge hedge => hleft edge (List.mem_cons_of_mem _ hedge))
          htail hcombined' fun s'' hle' => happly s'' (hle.trans hle')

theorem applyRanges_ensures
    (hstable : ∀ x y r, Stable Inv (related · x y r))
    (hleft : Cover left) (hright : Cover right) {s : σ} (hinv : Inv s)
    (happly : Combines Inv apply related left leftParent right rightParent s) :
    Ensures Inv (Edges.applyRanges left leftParent right rightParent apply) s
      fun s' combined => Assembled
        (CombinedLabel (related s') left leftParent right rightParent) ⊤
        combined :=
  applyLeft_ensures hstable hright hinv
    (fun edge hedge => ⟨hedge, hleft.interval edge hedge⟩) hleft.tiles
    (assembled_nil _) happly

end Apply

/-! ## Edges of a variable -/

/-- A valuation with given places, for any key. -/
def Valuation.at (version : Point (Cut ValidVersion)) (string : Point (Cut Text)) :
    Valuation :=
  ⟨fun _ => version, fun _ => string, fun _ => false⟩

namespace Edges

section Apply

variable {σ : Type} [Preorder σ] {Inv : σ → Prop}
  {related : σ → NodeId → NodeId → NodeId → Prop} {var : Variable}
  {left right : Edges} {leftParent rightParent : NodeId}

/-- Neighbouring intervals lead to different children. -/
def Merged : Edges → Prop
  | .version edges => (edges.map Prod.snd).IsChain (· ≠ ·)
  | .string edges => (edges.map Prod.snd).IsChain (· ≠ ·)
  | .boolean _ _ => True

/-- Edges for the variable whose children are related to those of both
operands. -/
structure Combined (related : NodeId → NodeId → NodeId → Prop) (var : Variable)
    (left : Edges) (leftParent : NodeId) (right : Edges) (rightParent : NodeId)
    (edges : Edges) : Prop where
  fits : edges.Fits var
  merged : edges.Merged
  picks : ∀ {v : Valuation} {child}, v.Picks var edges child →
    ∃ leftChild rightChild, v.Picks var left leftChild ∧
      v.Picks var right rightChild ∧
      related (leftChild.negate leftParent) (rightChild.negate rightParent) child

variable [RangeOps ValidVersion] [RangeOps Text]
  {apply : NodeId → NodeId → StateT σ Option NodeId}

theorem apply_ensures (hstable : ∀ x y r, Stable Inv (related · x y r)) (hleft : left.Fits var)
    (hright : right.Fits var) {s : σ} (hinv : Inv s)
    (happly : ∀ s', s ≤ s' → Inv s' → ∀ (v : Valuation) leftChild rightChild,
      v.Picks var left leftChild → v.Picks var right rightChild →
      Ensures Inv (apply (leftChild.negate leftParent)
        (rightChild.negate rightParent)) s' fun s'' r =>
          related s'' (leftChild.negate leftParent)
            (rightChild.negate rightParent) r) :
    Ensures Inv (left.apply leftParent right rightParent apply) s fun s' edges =>
      Combined (related s') var left leftParent right rightParent edges := by
  unfold Fits at hleft hright
  cases hdomain : var.domain with
  | version key =>
      cases left <;> cases right <;> simp only [hdomain] at hleft hright
      rename_i left right
      refine Ensures.bind (applyRanges_ensures hstable hleft hright hinv
        fun s' hle hinv' point leftChild rightChild hl hr =>
          happly s' hle hinv' (.at point (.ofPosition ⊥)) leftChild rightChild
            ?_ ?_) fun edges s' hinv' _ hedges => Ensures.pure hinv' ⟨?_, ?_, ?_⟩
      · simpa [Valuation.Picks, hdomain, Valuation.at] using hl
      · simpa [Valuation.Picks, hdomain, Valuation.at] using hr
      · simpa [Fits, hdomain] using hedges.cover
      · exact hedges.chain
      · intro v child hpick
        simp only [Valuation.Picks, hdomain] at hpick ⊢
        exact hedges.label hpick
  | string key =>
      cases left <;> cases right <;> simp only [hdomain] at hleft hright
      rename_i left right
      refine Ensures.bind (applyRanges_ensures hstable hleft hright hinv
        fun s' hle hinv' point leftChild rightChild hl hr =>
          happly s' hle hinv' (.at (.ofPosition ⊥) point) leftChild rightChild
            ?_ ?_) fun edges s' hinv' _ hedges => Ensures.pure hinv' ⟨?_, ?_, ?_⟩
      · simpa [Valuation.Picks, hdomain, Valuation.at] using hl
      · simpa [Valuation.Picks, hdomain, Valuation.at] using hr
      · simpa [Fits, hdomain] using hedges.cover
      · exact hedges.chain
      · intro v child hpick
        simp only [Valuation.Picks, hdomain] at hpick ⊢
        exact hedges.label hpick
  | boolean =>
      cases left <;> cases right <;> simp only [hdomain] at hleft hright
      rename_i high low rightHigh rightLow
      have hpick := Valuation.picks_boolean hdomain
      refine Ensures.bind (happly s le_rfl hinv _ _ _ (hpick true high low)
        (hpick true rightHigh rightLow)) fun high' s' hinv' hle hhigh => ?_
      refine Ensures.bind (happly s' hle hinv' _ _ _ (hpick false high low)
        (hpick false rightHigh rightLow)) fun low' s'' hinv'' hle' hlow => ?_
      refine Ensures.pure hinv'' ⟨by simp [Fits, hdomain], trivial, ?_⟩
      intro v child hchild
      simp only [Valuation.Picks, hdomain] at hchild ⊢
      refine ⟨_, _, rfl, rfl, ?_⟩
      rw [hchild]
      cases v.bool var
      · simpa using hlow
      · simpa using hstable _ _ _ hinv' hinv'' hle' hhigh

end Apply

/-! ## Mapping children -/

/-- The edges are the same up to their children, which are related. -/
def Mapped (related : NodeId → NodeId → Prop) : Edges → Edges → Prop
  | .version edges, .version edges' => List.Forall₂
      (fun edge edge' => edge.1 = edge'.1 ∧ related edge.2 edge'.2) edges edges'
  | .string edges, .string edges' => List.Forall₂
      (fun edge edge' => edge.1 = edge'.1 ∧ related edge.2 edge'.2) edges edges'
  | .boolean high low, .boolean high' low' => related high high' ∧ related low low'
  | _, _ => False

section Mapped

variable {related : NodeId → NodeId → Prop} {T : Type} [OrdKey T]
  {edges edges' : List (Ranges T × NodeId)}

theorem cover_of_forall₂ (hmapped : List.Forall₂
      (fun edge edge' => edge.1 = edge'.1 ∧ related edge.2 edge'.2) edges edges')
    (hcover : Cover edges) : Cover edges' := by
  have htiles : (tilesOf edges').map Prod.fst = (tilesOf edges).map Prod.fst := by
    clear hcover
    induction hmapped with
    | nil => rfl
    | cons hhead _ ih =>
        simp only [tilesOf, List.map_cons, hhead.1] at ih ⊢
        rw [ih]
  refine ⟨fun edge' hedge' => ?_, htiles ▸ hcover.tiles⟩
  obtain ⟨edge, hedge, heq, -⟩ := exists_of_mem_forall₂ hmapped hedge'
  exact heq ▸ hcover.interval edge hedge

theorem onEdge_of_forall₂ (hmapped : List.Forall₂
      (fun edge edge' => edge.1 = edge'.1 ∧ related edge.2 edge'.2) edges edges')
    {point : Point (Cut T)} {child' : NodeId}
    (hedge : OnEdge point edges' child') :
    ∃ child, OnEdge point edges child ∧ related child child' := by
  obtain ⟨edge', hmem', rfl, hin⟩ := onEdge_iff.mp hedge
  obtain ⟨edge, hmem, heq, hrelated⟩ := exists_of_mem_forall₂ hmapped hmem'
  exact ⟨edge.2, onEdge_iff.mpr ⟨edge, hmem, rfl, heq ▸ hin⟩, hrelated⟩

end Mapped

namespace Mapped

variable {related : NodeId → NodeId → Prop} {var : Variable}
  {edges edges' : Edges}

theorem fits (hmapped : Mapped related edges edges') (hfits : edges.Fits var) :
    edges'.Fits var := by
  unfold Fits at hfits ⊢
  cases hdomain : var.domain <;> cases edges <;> simp only [hdomain] at hfits <;>
    cases edges' <;> simp only [Mapped] at hmapped
  · exact cover_of_forall₂ hmapped hfits
  · exact cover_of_forall₂ hmapped hfits
  · trivial

theorem picks (hmapped : Mapped related edges edges') {v : Valuation}
    {child' : NodeId} (hpick : v.Picks var edges' child') :
    ∃ child, v.Picks var edges child ∧ related child child' := by
  unfold Valuation.Picks at hpick ⊢
  cases hdomain : var.domain <;> cases edges' <;> simp only [hdomain] at hpick <;>
    cases edges <;> simp only [Mapped] at hmapped
  · exact onEdge_of_forall₂ hmapped hpick
  · exact onEdge_of_forall₂ hmapped hpick
  · refine ⟨_, rfl, ?_⟩
    rw [hpick]
    split
    · exact hmapped.1
    · exact hmapped.2

theorem imp {related' : NodeId → NodeId → Prop}
    (himp : ∀ child child', related child child' → related' child child')
    (hmapped : Mapped related edges edges') : Mapped related' edges edges' := by
  cases edges <;> cases edges' <;> simp only [Mapped] at hmapped ⊢
  · exact hmapped.imp fun _ _ h => ⟨h.1, himp _ _ h.2⟩
  · exact hmapped.imp fun _ _ h => ⟨h.1, himp _ _ h.2⟩
  · exact ⟨himp _ _ hmapped.1, himp _ _ hmapped.2⟩

theorem exists_of_mem (hmapped : Mapped related edges edges') {child' : NodeId}
    (hchild' : child' ∈ edges'.nodes) :
    ∃ child ∈ edges.nodes, related child child' := by
  cases edges <;> cases edges' <;> simp only [Mapped] at hmapped
  · obtain ⟨edge', hmem', rfl⟩ := List.mem_map.mp hchild'
    obtain ⟨edge, hmem, -, hrelated⟩ := exists_of_mem_forall₂ hmapped hmem'
    exact ⟨edge.2, List.mem_map_of_mem hmem, hrelated⟩
  · obtain ⟨edge', hmem', rfl⟩ := List.mem_map.mp hchild'
    obtain ⟨edge, hmem, -, hrelated⟩ := exists_of_mem_forall₂ hmapped hmem'
    exact ⟨edge.2, List.mem_map_of_mem hmem, hrelated⟩
  · simp only [nodes, List.mem_cons, List.not_mem_nil, or_false] at hchild' ⊢
    rcases hchild' with rfl | rfl
    · exact ⟨_, .inl rfl, hmapped.1⟩
    · exact ⟨_, .inr rfl, hmapped.2⟩

end Mapped

section Map

variable {σ : Type} [Preorder σ] {Inv : σ → Prop}
  {related : σ → NodeId → NodeId → Prop} {edges : Edges} {parent : NodeId}
  {f : NodeId → StateT σ Option NodeId}

private theorem mapRanges_ensures {T : Type} [OrdKey T]
    {edges : List (Ranges T × NodeId)} (hstable : ∀ x y, Stable Inv (related · x y)) {s : σ}
    (hinv : Inv s)
    (hf : ∀ s', s ≤ s' → Inv s' → ∀ child ∈ edges.map Prod.snd,
      Ensures Inv (f (child.negate parent)) s' fun s'' r =>
        related s'' (child.negate parent) r) :
    Ensures Inv (mapRanges edges parent f) s fun s' edges' => List.Forall₂
      (fun edge edge' => edge.1 = edge'.1 ∧
        related s' (edge.2.negate parent) edge'.2) edges edges' := by
  refine Ensures.mapM ?_ hinv fun edge hedge s' hle hinv' => ?_
  · exact fun edge edge' s s' hs hs' hle hrel =>
      ⟨hrel.1, hstable _ _ hs hs' hle hrel.2⟩
  · exact Ensures.bind (hf s' hle hinv' edge.2 (List.mem_map_of_mem hedge))
      fun node s'' hinv'' _ hnode => Ensures.pure hinv'' ⟨rfl, hnode⟩

theorem map_ensures (hstable : ∀ x y, Stable Inv (related · x y)) {s : σ} (hinv : Inv s)
    (hf : ∀ s', s ≤ s' → Inv s' → ∀ child ∈ edges.nodes,
      Ensures Inv (f (child.negate parent)) s' fun s'' r =>
        related s'' (child.negate parent) r) :
    Ensures Inv (edges.map parent f) s fun s' edges' =>
      Mapped (fun child child' => related s' (child.negate parent) child') edges
        edges' := by
  cases edges with
  | version edges =>
      exact Ensures.bind (mapRanges_ensures hstable hinv hf)
        fun edges' s' hinv' _ hedges' => Ensures.pure hinv' hedges'
  | string edges =>
      exact Ensures.bind (mapRanges_ensures hstable hinv hf)
        fun edges' s' hinv' _ hedges' => Ensures.pure hinv' hedges'
  | boolean high low =>
      refine Ensures.bind (hf s le_rfl hinv low (by simp [nodes]))
        fun low' s' hinv' hle hlow => ?_
      refine Ensures.bind (hf s' hle hinv' high (by simp [nodes]))
        fun high' s'' hinv'' hle' hhigh => ?_
      exact Ensures.pure hinv'' ⟨hhigh, hstable _ _ hinv' hinv'' hle' hlow⟩

private theorem mapRanges_allows {T : Type} [OrdKey T]
    {edges : List (Ranges T × NodeId)}
    (hstable : ∀ x y, Stable Inv (related · x y)) {s : σ} (hinv : Inv s)
    (hf : ∀ s', s ≤ s' → Inv s' → ∀ child ∈ edges.map Prod.snd,
      Allows Inv (f (child.negate parent)) s' fun s'' r =>
        related s'' (child.negate parent) r) :
    Allows Inv (mapRanges edges parent f) s fun s' edges' => List.Forall₂
      (fun edge edge' => edge.1 = edge'.1 ∧
        related s' (edge.2.negate parent) edge'.2) edges edges' := by
  refine Allows.mapM ?_ hinv fun edge hedge s' hle hinv' => ?_
  · exact fun edge edge' s s' hs hs' hle hrel =>
      ⟨hrel.1, hstable _ _ hs hs' hle hrel.2⟩
  · exact Allows.bind (hf s' hle hinv' edge.2 (List.mem_map_of_mem hedge))
      fun node s'' hinv'' _ hnode => Allows.pure hinv'' ⟨rfl, hnode⟩

theorem map_allows (hstable : ∀ x y, Stable Inv (related · x y)) {s : σ}
    (hinv : Inv s)
    (hf : ∀ s', s ≤ s' → Inv s' → ∀ child ∈ edges.nodes,
      Allows Inv (f (child.negate parent)) s' fun s'' r =>
        related s'' (child.negate parent) r) :
    Allows Inv (edges.map parent f) s fun s' edges' =>
      Mapped (fun child child' => related s' (child.negate parent) child') edges
        edges' := by
  cases edges with
  | version edges =>
      exact Allows.bind (mapRanges_allows hstable hinv hf)
        fun edges' s' hinv' _ hedges' => Allows.pure hinv' hedges'
  | string edges =>
      exact Allows.bind (mapRanges_allows hstable hinv hf)
        fun edges' s' hinv' _ hedges' => Allows.pure hinv' hedges'
  | boolean high low =>
      refine Allows.bind (hf s le_rfl hinv low (by simp [nodes]))
        fun low' s' hinv' hle hlow => ?_
      refine Allows.bind (hf s' hle hinv' high (by simp [nodes]))
        fun high' s'' hinv'' hle' hhigh => ?_
      exact Allows.pure hinv'' ⟨hhigh, hstable _ _ hinv' hinv'' hle' hlow⟩

end Map

end Edges

end Uv.Pep508
