import Uv.Pep508.EdgeOperations

/-!
# Clipping and stretching edges

What `simplify_python_versions` and `complexify_python_versions` do to the edges
of one node.  Both first keep the edges that overlap the Python bounds; these
follow each other and cover the bounds.  One then stretches the outer edges to
infinity, the other one puts edges to a fixed node outside the bounds.
-/

namespace Uv.Pep508

open Uv.Core Uv.Pep440

/-! ## Edges between two cuts -/

section Spans

variable {T : Type} [OrdKey T]

/-- The edges are intervals that cover the order between two cuts. -/
structure Spans (start stop : WithTop (Cut T)) (edges : List (Ranges T × NodeId)) :
    Prop where
  interval : ∀ edge ∈ edges, edge.1.IsInterval edge.1.hull
  tiles : Tiles start ((tilesOf edges).map Prod.fst) stop

theorem Spans.cover {edges : List (Ranges T × NodeId)}
    (hspans : Spans ((⊥ : Cut T) : WithTop (Cut T)) ⊤ edges) : Cover edges :=
  ⟨hspans.interval, hspans.tiles⟩

theorem spans_cons {start stop : WithTop (Cut T)} {edge : Ranges T × NodeId}
    {rest : List (Ranges T × NodeId)} :
    Spans start stop (edge :: rest) ↔ start = edge.1.hull.1 ∧
      edge.1.IsInterval edge.1.hull ∧ Spans edge.1.hull.2 stop rest := by
  constructor
  · rintro ⟨hinterval, hstart, -, hrest⟩
    exact ⟨hstart, hinterval edge (by simp),
      fun next hnext => hinterval next (List.mem_cons_of_mem _ hnext), hrest⟩
  · rintro ⟨hstart, hedge, hrest⟩
    exact ⟨List.forall_mem_cons.mpr ⟨hedge, hrest.interval⟩, hstart, hedge.nonempty,
      hrest.tiles⟩

theorem spans_append {start stop : WithTop (Cut T)}
    {left right : List (Ranges T × NodeId)} :
    Spans start stop (left ++ right) ↔
      ∃ middle, Spans start middle left ∧ Spans middle stop right := by
  induction left generalizing start with
  | nil =>
      constructor
      · exact fun hspans => ⟨start, ⟨by simp, rfl⟩, hspans⟩
      · rintro ⟨middle, ⟨-, hmiddle⟩, hright⟩
        obtain rfl : start = middle := hmiddle
        exact hright
  | cons edge rest ih =>
      rw [List.cons_append, spans_cons, ih]
      constructor
      · rintro ⟨hstart, hedge, middle, hleft, hright⟩
        exact ⟨middle, spans_cons.mpr ⟨hstart, hedge, hleft⟩, hright⟩
      · rintro ⟨middle, hleft, hright⟩
        obtain ⟨hstart, hedge, hrest⟩ := spans_cons.mp hleft
        exact ⟨hstart, hedge, middle, hrest, hright⟩

theorem spans_singleton {start stop : WithTop (Cut T)} {edge : Ranges T × NodeId} :
    Spans start stop [edge] ↔ start = edge.1.hull.1 ∧
      edge.1.IsInterval edge.1.hull ∧ edge.1.hull.2 = stop := by
  rw [spans_cons]
  refine and_congr_right fun _ => and_congr_right fun _ => ?_
  exact ⟨fun h => h.tiles, fun h => ⟨by simp, h⟩⟩

/-- An edge inside the span lies between its cuts. -/
theorem Spans.le_of_mem {start stop : WithTop (Cut T)}
    {edges : List (Ranges T × NodeId)} (hspans : Spans start stop edges)
    {edge : Ranges T × NodeId} (hedge : edge ∈ edges) :
    start ≤ edge.1.hull.1 ∧ edge.1.hull.2 ≤ stop := by
  have hmem : edge.1.hull ∈ (tilesOf edges).map Prod.fst := by
    simp only [tilesOf, List.map_map, List.mem_map]
    exact ⟨edge, hedge, rfl⟩
  exact (hspans.tiles.nonempty hmem).2

theorem Spans.ne_nil {start stop : WithTop (Cut T)}
    {edges : List (Ranges T × NodeId)} (hspans : Spans start stop edges)
    (hlt : start < stop) : edges ≠ [] := by
  rintro rfl
  have heq : start = stop := hspans.tiles
  exact hlt.ne heq

theorem onEdge_cons {point : Point (Cut T)} {child : NodeId}
    {edge : Ranges T × NodeId} {rest : List (Ranges T × NodeId)} :
    OnEdge point (edge :: rest) child ↔
      (edge.2 = child ∧ point.In edge.1.hull) ∨ OnEdge point rest child := by
  rw [← List.singleton_append, onEdge_append, onEdge_singleton]

/-- An interval with the upper end of another one. -/
theorem isInterval_withUpper {range : Ranges T} {cuts : Cut T × WithTop (Cut T)}
    (hrange : range.IsInterval cuts) (start : Bound T)
    (hlt : (start.lowerCut : WithTop (Cut T)) < cuts.2) :
    ∃ bounds, range.boundingRange = some bounds ∧
      (Ranges.fromRangeBounds start bounds.2).IsInterval
        (start.lowerCut, cuts.2) := by
  obtain ⟨bounds, hbounds, hcuts⟩ := hrange.exists_boundingRange
  have hupper : bounds.2.upperCut = cuts.2 := congrArg Prod.snd hcuts
  refine ⟨bounds, hbounds, ?_⟩
  rw [← hupper] at hlt ⊢
  exact Ranges.isInterval_fromRangeBounds (Bound.validSegment_iff.mpr hlt)

/-- An interval with the lower end of another one. -/
theorem isInterval_withLower {range : Ranges T} {cuts : Cut T × WithTop (Cut T)}
    (hrange : range.IsInterval cuts) (stop : Bound T)
    (hlt : (cuts.1 : WithTop (Cut T)) < stop.upperCut) :
    ∃ bounds, range.boundingRange = some bounds ∧
      (Ranges.fromRangeBounds bounds.1 stop).IsInterval
        (cuts.1, stop.upperCut) := by
  obtain ⟨bounds, hbounds, hcuts⟩ := hrange.exists_boundingRange
  have hlower : bounds.1.lowerCut = cuts.1 := congrArg Prod.fst hcuts
  refine ⟨bounds, hbounds, ?_⟩
  rw [← hlower] at hlt ⊢
  exact Ranges.isInterval_fromRangeBounds (Bound.validSegment_iff.mpr hlt)

end Spans

/-! ## Edges that overlap the Python bounds -/

section Window

variable [RangeOps ValidVersion] {edges : List (Ranges ValidVersion × NodeId)}
  {window : Cut ValidVersion × WithTop (Cut ValidVersion)}

omit [RangeOps ValidVersion] in
theorem spans_filter_meets (hcover : Cover edges)
    (hwindow : (window.1 : WithTop (Cut ValidVersion)) < window.2) :
    ∃ first last, Spans first last
        (edges.filter fun edge => Meets window edge.1.hull) ∧
      first ≤ window.1 ∧ window.2 ≤ last := by
  have htiles : tilesOf (edges.filter fun edge => Meets window edge.1.hull) =
      (tilesOf edges).filter fun tile => Meets window tile.1 := by
    simp only [tilesOf, List.filter_map]
    rfl
  obtain ⟨first, last, hfilter, -, hfirst, hlast⟩ :=
    hcover.tiles.filter_meets hwindow (bot_le.trans_lt hwindow)
  refine ⟨first, last, ⟨fun edge hedge => ?_, htiles ▸ hfilter⟩, ?_, hlast⟩
  · exact hcover.interval edge (List.mem_filter.mp hedge).1
  · exact hfirst.trans (max_le le_rfl bot_le)

omit [RangeOps ValidVersion] in
theorem meets_of_mem_filter {edge : Ranges ValidVersion × NodeId}
    (hedge : edge ∈ edges.filter fun edge => Meets window edge.1.hull) :
    Meets window edge.1.hull :=
  of_decide_eq_true (List.mem_filter.mp hedge).2

omit [RangeOps ValidVersion] in
/-- Inside the bounds nothing is lost. -/
theorem onEdge_filter_meets {point : Point (Cut ValidVersion)} {child : NodeId}
    (hin : point.In window) (hedge : OnEdge point edges child) :
    OnEdge point (edges.filter fun edge => Meets window edge.1.hull) child := by
  obtain ⟨edge, hmem, rfl, hinEdge⟩ := onEdge_iff.mp hedge
  refine onEdge_iff.mpr ⟨edge, List.mem_filter.mpr ⟨hmem, decide_eq_true ?_⟩, rfl,
    hinEdge⟩
  have hstart : point.below (max edge.1.hull.1 window.1) := by
    rcases max_choice edge.1.hull.1 window.1 with hmax | hmax
    · rw [hmax]; exact hinEdge.1
    · rw [hmax]; exact hin.1
  have hlt : ∀ cut : WithTop (Cut ValidVersion), ¬ point.belowTop cut →
      ((max edge.1.hull.1 window.1 : Cut ValidVersion) :
        WithTop (Cut ValidVersion)) < cut := by
    intro cut habove
    by_contra hle
    exact habove (point.belowTop_of_le (not_lt.mp hle) hstart)
  exact lt_min (hlt _ hinEdge.2) (hlt _ hin.2)

theorem filter_meets_eq {pyRange : Ranges ValidVersion} (hcover : Cover edges)
    (hpy : pyRange.IsInterval window) :
    (edges.filter fun (range, _) =>
        !(RangeOps.intersection pyRange range).isEmpty) =
      edges.filter fun edge => Meets window edge.1.hull := by
  refine List.filter_congr fun edge hedge => ?_
  have hempty := Ranges.isEmpty_intersection_iff hpy (hcover.interval edge hedge)
  rw [max_comm, min_comm] at hempty
  rw [Bool.eq_iff_iff, Bool.not_eq_true', ← Bool.not_eq_true, hempty, not_not,
    decide_eq_true_iff]
  rfl

/-! ## Simplifying -/

/-- The edges inside the bounds, cut off at them. -/
theorem clipped_spec {pyRange : Ranges ValidVersion} (hcover : Cover edges)
    (hpy : pyRange.IsInterval window) :
    ∃ clipped, (edges.filterMap fun (range, node) =>
        let overlap := RangeOps.intersection range pyRange
        if overlap.isEmpty then none else some (overlap, node)) = clipped ∧
      Spans window.1 window.2 clipped ∧
      (∀ point child, point.In window → OnEdge point edges child →
        OnEdge point clipped child) ∧
      ∀ child ∈ clipped.map Prod.snd, child ∈ edges.map Prod.snd := by
  let kept := edges.filter fun edge => Meets window edge.1.hull
  let clip := fun edge : Ranges ValidVersion × NodeId =>
    (RangeOps.intersection edge.1 pyRange, edge.2)
  have hclip : ∀ edge ∈ kept, (clip edge).1.IsInterval
      (max edge.1.hull.1 window.1, min edge.1.hull.2 window.2) := fun edge hedge =>
    Ranges.isInterval_intersection
      (hcover.interval edge (List.mem_filter.mp hedge).1) hpy
      (meets_of_mem_filter hedge)
  have hkept : (edges.filterMap fun (range, node) =>
      let overlap := RangeOps.intersection range pyRange
      if overlap.isEmpty then none else some (overlap, node)) = kept.map clip := by
    have hfilter : kept = edges.filter fun edge =>
        !(RangeOps.intersection edge.1 pyRange).isEmpty := by
      refine List.filter_congr fun edge hedge => ?_
      rw [Bool.eq_iff_iff, decide_eq_true_iff, Bool.not_eq_true', ← Bool.not_eq_true,
        Ranges.isEmpty_intersection_iff (hcover.interval edge hedge) hpy, not_not]
      rfl
    rw [hfilter, ← List.filterMap_eq_map, ← List.filterMap_eq_filter,
      List.filterMap_filterMap]
    refine List.filterMap_congr fun edge _ => ?_
    cases hempty : (RangeOps.intersection edge.1 pyRange).isEmpty <;>
      simp [hempty, clip, Option.guard]
  have htiles : (tilesOf (kept.map clip)).map Prod.fst =
      ((tilesOf kept).map Prod.fst).map fun cuts =>
        (max cuts.1 window.1, min cuts.2 window.2) := by
    simp only [tilesOf, List.map_map]
    exact List.map_congr_left fun edge hedge => (hclip edge hedge).hull_eq
  obtain ⟨first, last, hspans, hfirst, hlast⟩ :=
    spans_filter_meets hcover hpy.nonempty
  have hclipped := hspans.tiles.clip hpy.nonempty fun cuts hcuts => by
    simp only [tilesOf, List.map_map, List.mem_map] at hcuts
    obtain ⟨edge, hedge, rfl⟩ := hcuts
    exact meets_of_mem_filter hedge
  rw [max_eq_left ((min_le_right _ _).trans hfirst), min_eq_left hlast,
    max_eq_right hpy.nonempty.le] at hclipped
  refine ⟨kept.map clip, hkept, ⟨fun edge hedge => ?_, htiles ▸ hclipped⟩, ?_, ?_⟩
  · obtain ⟨edge, hmem, rfl⟩ := List.mem_map.mp hedge
    rw [(hclip edge hmem).hull_eq]
    exact hclip edge hmem
  · intro point child hin hedge
    obtain ⟨edge, hmem, rfl, hinEdge⟩ :=
      onEdge_iff.mp (onEdge_filter_meets hin hedge)
    refine onEdge_iff.mpr ⟨clip edge, List.mem_map_of_mem hmem, rfl, ?_⟩
    rw [(hclip edge hmem).hull_eq]
    constructor
    · rcases max_choice edge.1.hull.1 window.1 with hmax | hmax
      · rw [hmax]; exact hinEdge.1
      · rw [hmax]; exact hin.1
    · rcases min_choice edge.1.hull.2 window.2 with hmin | hmin
      · rw [hmin]; exact hinEdge.2
      · rw [hmin]; exact hin.2
  · intro child hchild
    simp only [List.map_map, List.mem_map] at hchild ⊢
    obtain ⟨edge, hmem, rfl⟩ := hchild
    exact ⟨edge, (List.mem_filter.mp hmem).1, rfl⟩

/-- Inside the bounds the edges lead to the same children; the outer ones are
stretched. -/
theorem simplifyEdges_spec {pyRange : Ranges ValidVersion} (hcover : Cover edges)
    (hpy : pyRange.IsInterval window) :
    ∃ new, simplifyEdges edges pyRange = some new ∧ Cover new ∧
      (∀ point child, point.In window → OnEdge point edges child →
        OnEdge point new child) ∧
      ∀ child ∈ new.map Prod.snd, child ∈ edges.map Prod.snd := by
  obtain ⟨clipped, hclipped, hspans, honEdge, hnodes⟩ := clipped_spec hcover hpy
  obtain ⟨⟨range, node⟩, rest, rfl⟩ :=
    List.exists_cons_of_ne_nil (hspans.ne_nil hpy.nonempty)
  obtain ⟨hstart, hrange, hrest⟩ := spans_cons.mp hspans
  obtain ⟨bounds, hbounds, hfirst⟩ := isInterval_withUpper hrange .unbounded
    (bot_le.trans_lt (hstart ▸ hrange.nonempty))
  -- The first edge now reaches down to minus infinity.
  let stretched := (Ranges.fromRangeBounds .unbounded bounds.2, node) :: rest
  have hspans' : Spans ((⊥ : Cut ValidVersion) : WithTop (Cut ValidVersion))
      window.2 stretched := by
    refine spans_cons.mpr ⟨by rw [hfirst.hull_eq]; rfl, ?_, ?_⟩
    · rw [hfirst.hull_eq]; exact hfirst
    · rw [hfirst.hull_eq]; exact hrest
  have honEdge' : ∀ point child, OnEdge point ((range, node) :: rest) child →
      OnEdge point stretched child := by
    intro point child hedge
    rcases onEdge_cons.mp hedge with ⟨rfl, hin⟩ | hmore
    · refine onEdge_cons.mpr (.inl ⟨rfl, ?_⟩)
      rw [hfirst.hull_eq]
      exact ⟨point.below_bot, hin.2⟩
    · exact onEdge_cons.mpr (.inr hmore)
  obtain ⟨init, ⟨lastRange, lastNode⟩, hsplit⟩ :=
    (List.eq_nil_or_concat stretched).resolve_left (by simp [stretched])
  rw [List.concat_eq_append] at hsplit
  rw [hsplit] at hspans' honEdge'
  obtain ⟨middle, hinit, hlast⟩ := spans_append.mp hspans'
  obtain ⟨hmiddle, hlastRange, -⟩ := spans_singleton.mp hlast
  obtain ⟨lastBounds, hlastBounds, hnewLast⟩ := isInterval_withLower hlastRange
    .unbounded (WithTop.coe_lt_top _)
  have hsimplify : simplifyEdges edges pyRange = some (init ++
      [(Ranges.fromRangeBounds lastBounds.1 .unbounded, lastNode)]) := by
    have hset : setFirst ((range, node) :: rest)
        (.fromRangeBounds .unbounded bounds.2) = init ++ [(lastRange, lastNode)] :=
      hsplit
    simp only [simplifyEdges, hclipped, List.head?_cons, Option.bind_eq_bind,
      Option.bind_some, hbounds, hset, List.getLast?_append,
      List.getLast?_singleton, Option.some_or, hlastBounds, setLast,
      List.dropLast_concat]
  refine ⟨_, hsimplify, (spans_append.mpr ⟨middle, hinit, spans_singleton.mpr
    ⟨by rw [hnewLast.hull_eq]; exact hmiddle, by rw [hnewLast.hull_eq]; exact hnewLast,
      by rw [hnewLast.hull_eq]; rfl⟩⟩).cover, ?_, ?_⟩
  · intro point child hin hedge
    rcases onEdge_append.mp (honEdge' point child (honEdge point child hin hedge))
      with hinInit | hinLast
    · exact onEdge_append.mpr (.inl hinInit)
    · obtain ⟨hlabel, hinRange⟩ := onEdge_singleton.mp hinLast
      refine onEdge_append.mpr (.inr (onEdge_singleton.mpr ⟨hlabel, ?_⟩))
      rw [hnewLast.hull_eq]
      exact ⟨hinRange.1, Point.belowTop_top point⟩
  · have hlabels : (init ++ [(Ranges.fromRangeBounds lastBounds.1
        (.unbounded : Bound ValidVersion), lastNode)]).map Prod.snd =
          ((range, node) :: rest).map Prod.snd := by
      have hsame := congrArg (List.map Prod.snd) hsplit
      simp only [stretched, List.map_cons, List.map_append, List.map_nil] at hsame
      simp only [List.map_cons, List.map_append, List.map_nil, hsame]
    rw [hlabels]
    exact hnodes

/-! ## Complexifying -/

theorem isInterval_complement_above {start : Bound ValidVersion}
    (hbounded : start.isUnbounded = false) :
    (RangeOps.complement (.fromRangeBounds start .unbounded)).IsInterval
      (⊥, (start.lowerCut : WithTop (Cut ValidVersion))) := by
  have hrange := Ranges.isInterval_fromRangeBounds
    (Bound.validSegment_iff.mpr (WithTop.coe_lt_top start.lowerCut) :
      Bound.validSegment start .unbounded = true)
  refine .of_mem (RangeOps.valid_complement hrange.valid) ?_ fun position => ?_
  · cases start with
    | included value => exact WithTop.coe_lt_coe.mpr (Cut.bot_lt_before value)
    | excluded value => exact WithTop.coe_lt_coe.mpr (Cut.bot_lt_after value)
    | unbounded => cases hbounded
  · rw [RangeOps.mem_complement hrange.valid, hrange.mem_iff]
    simp [Between, cutsOf, Bound.upperCut]

theorem isInterval_complement_below {stop : Bound ValidVersion} {cut : Cut ValidVersion}
    (hstop : stop.upperCut = (cut : WithTop (Cut ValidVersion)))
    (hpositive : ⊥ < cut) :
    (RangeOps.complement (.fromRangeBounds .unbounded stop)).IsInterval
      (cut, ⊤) := by
  have hrange := Ranges.isInterval_fromRangeBounds (Bound.validSegment_iff.mpr
    (show ((⊥ : Cut ValidVersion) : WithTop (Cut ValidVersion)) < stop.upperCut by
      rw [hstop]; exact WithTop.coe_lt_coe.mpr hpositive) :
      Bound.validSegment .unbounded stop = true)
  refine .of_mem (RangeOps.valid_complement hrange.valid) (WithTop.coe_lt_top cut)
    fun position => ?_
  rw [RangeOps.mem_complement hrange.valid, hrange.mem_iff]
  simp [Between, cutsOf, Bound.lowerCut, hstop]

/-- After the lower bound has been handled: below it everything leads to
`exclude`, above it nothing has changed. -/
structure Raised (edges : List (Ranges ValidVersion × NodeId))
    (window : Cut ValidVersion × WithTop (Cut ValidVersion)) (exclude : NodeId)
    (last : WithTop (Cut ValidVersion))
    (new : List (Ranges ValidVersion × NodeId)) : Prop where
  spans : Spans ((⊥ : Cut ValidVersion) : WithTop (Cut ValidVersion)) last new
  before : ∀ edge ∈ new, (edge.1.hull.1 : WithTop (Cut ValidVersion)) < window.2
  inside : ∀ {point child}, OnEdge point new child → point.below window.1 →
    OnEdge point edges child
  outside : ∀ {point child}, OnEdge point new child → ¬ point.below window.1 →
    child = exclude

/-- The edges after the first one begin above the lower bound. -/
structure Behind (edges : List (Ranges ValidVersion × NodeId))
    (window : Cut ValidVersion × WithTop (Cut ValidVersion)) (range : Ranges ValidVersion)
    (node : NodeId) (last : WithTop (Cut ValidVersion))
    (rest : List (Ranges ValidVersion × NodeId)) : Prop where
  spans : Spans range.hull.2 last rest
  before : ∀ edge ∈ rest, (edge.1.hull.1 : WithTop (Cut ValidVersion)) < window.2
  below : ∀ {point child}, OnEdge point rest child → point.below window.1
  onRest : ∀ {point child}, OnEdge point rest child → OnEdge point edges child
  onFirst : ∀ {point : Point (Cut ValidVersion)}, point.below window.1 →
    ¬ point.belowTop range.hull.2 → OnEdge point edges node

omit [RangeOps ValidVersion] in
/-- The first edge is stretched to the bottom where it leads to `exclude` anyway. -/
theorem Behind.stretch {window : Cut ValidVersion × WithTop (Cut ValidVersion)}
    {range first : Ranges ValidVersion} {node : NodeId} {last : WithTop (Cut ValidVersion)}
    {rest : List (Ranges ValidVersion × NodeId)} (hbehind : Behind edges window range node last rest)
    (hfirst : first.IsInterval (⊥, range.hull.2))
    (hwindow : (window.1 : WithTop (Cut ValidVersion)) < window.2) :
    Raised edges window node last ((first, node) :: rest) where
  spans := by
    refine spans_cons.mpr ⟨by rw [hfirst.hull_eq], ?_, ?_⟩
    · rw [hfirst.hull_eq]
      exact hfirst
    · rw [hfirst.hull_eq]
      exact hbehind.spans
  before := by
    refine List.forall_mem_cons.mpr ⟨?_, hbehind.before⟩
    rw [hfirst.hull_eq]
    exact bot_le.trans_lt hwindow
  inside := by
    intro point child hedge hbelow
    rcases onEdge_cons.mp hedge with ⟨rfl, hin⟩ | hmore
    · rw [hfirst.hull_eq] at hin
      exact hbehind.onFirst hbelow hin.2
    · exact hbehind.onRest hmore
  outside := by
    intro point child hedge habove
    rcases onEdge_cons.mp hedge with ⟨rfl, -⟩ | hmore
    · rfl
    · exact absurd (hbehind.below hmore) habove

omit [RangeOps ValidVersion] in
/-- Otherwise it is cut at the lower bound, and an edge to `exclude` is put below. -/
theorem Behind.cut {window : Cut ValidVersion × WithTop (Cut ValidVersion)}
    {range below first : Ranges ValidVersion} {node exclude : NodeId}
    {last : WithTop (Cut ValidVersion)} {rest : List (Ranges ValidVersion × NodeId)}
    (hbehind : Behind edges window range node last rest)
    (hbelow : below.IsInterval (⊥, (window.1 : WithTop (Cut ValidVersion))))
    (hfirst : first.IsInterval (window.1, range.hull.2))
    (hwindow : (window.1 : WithTop (Cut ValidVersion)) < window.2) :
    Raised edges window exclude last ((below, exclude) :: (first, node) :: rest) where
  spans := by
    refine spans_cons.mpr ⟨by rw [hbelow.hull_eq], ?_, ?_⟩
    · rw [hbelow.hull_eq]
      exact hbelow
    · refine spans_cons.mpr ⟨by rw [hbelow.hull_eq, hfirst.hull_eq], ?_, ?_⟩
      · rw [hfirst.hull_eq]
        exact hfirst
      · rw [hfirst.hull_eq]
        exact hbehind.spans
  before := by
    refine List.forall_mem_cons.mpr ⟨?_, List.forall_mem_cons.mpr ⟨?_, hbehind.before⟩⟩
    · rw [hbelow.hull_eq]
      exact bot_le.trans_lt hwindow
    · rw [hfirst.hull_eq]
      exact hwindow
  inside := by
    intro point child hedge hin
    rcases onEdge_cons.mp hedge with ⟨rfl, hinBelow⟩ | hmore
    · rw [hbelow.hull_eq] at hinBelow
      exact absurd hin hinBelow.2
    · rcases onEdge_cons.mp hmore with ⟨rfl, hinFirst⟩ | hmore
      · rw [hfirst.hull_eq] at hinFirst
        exact hbehind.onFirst hin hinFirst.2
      · exact hbehind.onRest hmore
  outside := by
    intro point child hedge habove
    rcases onEdge_cons.mp hedge with ⟨rfl, -⟩ | hmore
    · rfl
    · rcases onEdge_cons.mp hmore with ⟨rfl, hinFirst⟩ | hmore
      · rw [hfirst.hull_eq] at hinFirst
        exact absurd hinFirst.1 habove
      · exact absurd (hbehind.below hmore) habove

theorem complexifyLower_spec {pyLower pyUpper : Bound ValidVersion}
    {exclude : NodeId} {new : List (Ranges ValidVersion × NodeId)}
    {first last : WithTop (Cut ValidVersion)} (hspans : Spans first last new)
    (hwindow : (pyLower.lowerCut : WithTop (Cut ValidVersion)) < pyUpper.upperCut)
    (hfirst : first ≤ pyLower.lowerCut) (hlast : pyUpper.upperCut ≤ last)
    (hmeets : ∀ edge ∈ new, Meets (cutsOf (pyLower, pyUpper)) edge.1.hull)
    (hsubset : new ⊆ edges) :
    ∃ raised, complexifyLower pyLower exclude new = some raised ∧
      Raised edges (cutsOf (pyLower, pyUpper)) exclude last raised := by
  have hmeets' : ∀ edge ∈ new, (pyLower.lowerCut : WithTop (Cut ValidVersion)) <
      edge.1.hull.2 ∧ (edge.1.hull.1 : WithTop (Cut ValidVersion)) <
        pyUpper.upperCut := fun edge hedge =>
    (meets_iff hwindow (hspans.interval edge hedge).nonempty).mp (hmeets edge hedge)
  have honEdges : ∀ {point child}, OnEdge point new child →
      OnEdge point edges child := by
    intro point child hedge
    obtain ⟨edge, hmem, hrest⟩ := onEdge_iff.mp hedge
    exact onEdge_iff.mpr ⟨edge, hsubset hmem, hrest⟩
  by_cases hunbounded : pyLower.isUnbounded = true
  · have hlower : pyLower.lowerCut = ⊥ := by
      cases pyLower with
      | unbounded => rfl
      | _ => cases hunbounded
    refine ⟨new, by rw [complexifyLower, if_pos hunbounded], ⟨?_, ?_, ?_, ?_⟩⟩
    · obtain rfl : first = ((⊥ : Cut ValidVersion) : WithTop (Cut ValidVersion)) :=
        le_antisymm (hlower ▸ hfirst) bot_le
      exact hspans
    · exact fun edge hedge => (hmeets' edge hedge).2
    · exact fun hedge _ => honEdges hedge
    · intro point child _ habove
      refine absurd ?_ habove
      show point.below pyLower.lowerCut
      rw [hlower]
      exact point.below_bot
  · have hlt : first < last := hfirst.trans_lt (hwindow.trans_le hlast)
    obtain ⟨⟨range, node⟩, rest, rfl⟩ :=
      List.exists_cons_of_ne_nil (hspans.ne_nil hlt)
    obtain ⟨hstart, hrange, hrest⟩ := spans_cons.mp hspans
    have hfirstMeets := hmeets' (range, node) (by simp)
    have hbehind : Behind edges (cutsOf (pyLower, pyUpper)) range node last rest := by
      refine ⟨hrest, ?_, ?_, ?_, ?_⟩
      · exact fun edge hedge => (hmeets' edge (List.mem_cons_of_mem _ hedge)).2
      · intro point child hedge
        obtain ⟨edge, hmem, -, hin⟩ := onEdge_iff.mp hedge
        exact point.belowTop_of_le (hfirstMeets.1.le.trans (hrest.le_of_mem hmem).1) hin.1
      · exact fun hedge => honEdges (onEdge_cons.mpr (.inr hedge))
      · intro point hbelow habove
        refine honEdges (onEdge_cons.mpr (.inl ⟨rfl, ?_, habove⟩))
        exact point.below_of_le (WithTop.coe_le_coe.mp (hstart ▸ hfirst)) hbelow
    by_cases hexclude : exclude = node
    · obtain ⟨bounds, hbounds, hnew⟩ := isInterval_withUpper hrange .unbounded
        (bot_le.trans_lt hrange.nonempty)
      refine ⟨(Ranges.fromRangeBounds .unbounded bounds.2, node) :: rest, ?_, ?_⟩
      · simp [complexifyLower, hunbounded, hbounds, hexclude, setFirst]
      · rw [hexclude]
        exact hbehind.stretch hnew hwindow
    · obtain ⟨bounds, hbounds, hnew⟩ :=
        isInterval_withUpper hrange pyLower hfirstMeets.1
      have hbelow := isInterval_complement_above (Bool.eq_false_iff.mpr hunbounded)
      refine ⟨(RangeOps.complement (.fromRangeBounds pyLower .unbounded), exclude) ::
        (Ranges.fromRangeBounds pyLower bounds.2, node) :: rest, ?_, ?_⟩
      · simp [complexifyLower, hunbounded, hbounds, hexclude, setFirst]
      · exact hbehind.cut hbelow hnew hwindow

/-- The edges before the last one stop below the upper bound. -/
structure Ahead (edges : List (Ranges ValidVersion × NodeId))
    (window : Cut ValidVersion × WithTop (Cut ValidVersion)) (exclude : NodeId)
    (range : Ranges ValidVersion) (node : NodeId)
    (init : List (Ranges ValidVersion × NodeId)) : Prop where
  spans : Spans ((⊥ : Cut ValidVersion) : WithTop (Cut ValidVersion)) range.hull.1 init
  onInit : ∀ {point child}, OnEdge point init child →
    (point.In window → OnEdge point edges child) ∧ (¬ point.In window → child = exclude)
  onLast : ∀ {point : Point (Cut ValidVersion)}, point.below range.hull.1 →
    ¬ point.belowTop window.2 →
      (point.In window → OnEdge point edges node) ∧ (¬ point.In window → node = exclude)

omit [RangeOps ValidVersion] in
/-- The last edge is stretched to the top where it leads to `exclude` anyway. -/
theorem Ahead.stretch {window : Cut ValidVersion × WithTop (Cut ValidVersion)}
    {range last : Ranges ValidVersion} {node : NodeId}
    {init : List (Ranges ValidVersion × NodeId)} (hahead : Ahead edges window node range node init)
    (hlast : last.IsInterval (range.hull.1, ⊤)) :
    Cover (init ++ [(last, node)]) ∧
      ∀ point child, OnEdge point (init ++ [(last, node)]) child →
        (point.In window → OnEdge point edges child) ∧ (¬ point.In window → child = node) := by
  constructor
  · refine (spans_append.mpr ⟨_, hahead.spans, spans_singleton.mpr ⟨?_, ?_, ?_⟩⟩).cover
    · rw [hlast.hull_eq]
    · rw [hlast.hull_eq]
      exact hlast
    · rw [hlast.hull_eq]
  · intro point child hedge
    rcases onEdge_append.mp hedge with hinInit | hinLast
    · exact hahead.onInit hinInit
    · obtain ⟨rfl, hin⟩ := onEdge_singleton.mp hinLast
      rw [hlast.hull_eq] at hin
      exact ⟨fun hwin => (hahead.onLast hin.1 hwin.2).1 hwin, fun _ => rfl⟩

omit [RangeOps ValidVersion] in
/-- Otherwise it is cut at the upper bound, and an edge to `exclude` is put above. -/
theorem Ahead.cut {start cut : Cut ValidVersion} {range last above : Ranges ValidVersion}
    {node exclude : NodeId} {init : List (Ranges ValidVersion × NodeId)}
    (hahead : Ahead edges (start, cut) exclude range node init)
    (hlast : last.IsInterval (range.hull.1, (cut : WithTop (Cut ValidVersion))))
    (habove : above.IsInterval (cut, ⊤)) :
    Cover (init ++ [(last, node)] ++ [(above, exclude)]) ∧
      ∀ point child, OnEdge point (init ++ [(last, node)] ++ [(above, exclude)]) child →
        (point.In (start, (cut : WithTop (Cut ValidVersion))) → OnEdge point edges child) ∧
        (¬ point.In (start, (cut : WithTop (Cut ValidVersion))) → child = exclude) := by
  constructor
  · have hfront : Spans ((⊥ : Cut ValidVersion) : WithTop (Cut ValidVersion)) cut
        (init ++ [(last, node)]) := by
      refine spans_append.mpr ⟨_, hahead.spans, spans_singleton.mpr ⟨?_, ?_, ?_⟩⟩
      · rw [hlast.hull_eq]
      · rw [hlast.hull_eq]
        exact hlast
      · rw [hlast.hull_eq]
    refine (spans_append.mpr ⟨_, hfront, spans_singleton.mpr ⟨?_, ?_, ?_⟩⟩).cover
    · rw [habove.hull_eq]
    · rw [habove.hull_eq]
      exact habove
    · rw [habove.hull_eq]
  · intro point child hedge
    rcases onEdge_append.mp hedge with hinOld | hinAbove
    · rcases onEdge_append.mp hinOld with hinInit | hinLast
      · exact hahead.onInit hinInit
      · obtain ⟨rfl, hin⟩ := onEdge_singleton.mp hinLast
        rw [hlast.hull_eq] at hin
        exact hahead.onLast hin.1 hin.2
    · obtain ⟨rfl, hin⟩ := onEdge_singleton.mp hinAbove
      rw [habove.hull_eq] at hin
      exact ⟨fun hwin => absurd hin.1 hwin.2, fun _ => rfl⟩

theorem complexifyUpper_spec {pyLower pyUpper : Bound ValidVersion}
    {exclude : NodeId} {new : List (Ranges ValidVersion × NodeId)}
    {last : WithTop (Cut ValidVersion)}
    (hraised : Raised edges (cutsOf (pyLower, pyUpper)) exclude last new)
    (hwindow : (pyLower.lowerCut : WithTop (Cut ValidVersion)) < pyUpper.upperCut)
    (hlast : pyUpper.upperCut ≤ last) :
    ∃ final, complexifyUpper pyUpper exclude new = some final ∧ Cover final ∧
      ∀ point child, OnEdge point final child →
        (point.In (cutsOf (pyLower, pyUpper)) → OnEdge point edges child) ∧
        (¬ point.In (cutsOf (pyLower, pyUpper)) → child = exclude) := by
  obtain ⟨hspans, hbefore, hinside, houtside⟩ := hraised
  by_cases hunbounded : pyUpper.isUnbounded = true
  · have hupper : pyUpper.upperCut = ⊤ := by
      cases pyUpper with
      | unbounded => rfl
      | _ => cases hunbounded
    obtain rfl : last = ⊤ := top_le_iff.mp (hupper ▸ hlast)
    refine ⟨new, by rw [complexifyUpper, if_pos hunbounded], hspans.cover,
      fun point child hedge => ⟨fun hin => hinside hedge hin.1, fun hnot => ?_⟩⟩
    refine houtside hedge fun hbelow => hnot ⟨hbelow, ?_⟩
    show ¬ point.belowTop pyUpper.upperCut
    rw [hupper]
    exact Point.belowTop_top point
  · obtain ⟨cut, hcut⟩ : ∃ cut : Cut ValidVersion,
        pyUpper.upperCut = (cut : WithTop (Cut ValidVersion)) := by
      cases pyUpper with
      | unbounded => exact absurd rfl hunbounded
      | included value => exact ⟨_, rfl⟩
      | excluded value => exact ⟨_, rfl⟩
    have hlt : ((⊥ : Cut ValidVersion) : WithTop (Cut ValidVersion)) < last :=
      bot_le.trans_lt (hwindow.trans_le hlast)
    obtain ⟨init, ⟨range, node⟩, hsplit⟩ :=
      (List.eq_nil_or_concat new).resolve_left (hspans.ne_nil hlt)
    rw [List.concat_eq_append] at hsplit
    subst hsplit
    obtain ⟨middle, hinit, hspansLast⟩ := spans_append.mp hspans
    obtain ⟨rfl, hrange, rfl⟩ := spans_singleton.mp hspansLast
    have hold : ∀ {point : Point (Cut ValidVersion)} {child},
        OnEdge point (init ++ [(range, node)]) child →
        ¬ point.belowTop pyUpper.upperCut →
        (point.In (cutsOf (pyLower, pyUpper)) → OnEdge point edges child) ∧
        (¬ point.In (cutsOf (pyLower, pyUpper)) → child = exclude) :=
      fun hedge habove => ⟨fun hin => hinside hedge hin.1,
        fun hnot => houtside hedge fun hbelow => hnot ⟨hbelow, habove⟩⟩
    have hahead : Ahead edges (cutsOf (pyLower, pyUpper)) exclude range node init := by
      refine ⟨hinit, ?_, ?_⟩
      · intro point child hedge
        refine hold (onEdge_append.mpr (.inl hedge)) fun hbelow => ?_
        obtain ⟨edge, hmem, -, hin⟩ := onEdge_iff.mp hedge
        have hend := (hinit.le_of_mem hmem).2.trans (hbefore (range, node) (by simp)).le
        exact hin.2 (point.belowTop_of_le hend hbelow)
      · intro point hbelow habove
        refine hold (onEdge_append.mpr (.inr (onEdge_singleton.mpr ⟨rfl, hbelow, ?_⟩))) habove
        exact fun h => habove (point.belowTop_of_le hlast h)
    by_cases hexclude : exclude = node
    · obtain ⟨bounds, hbounds, hnew⟩ :=
        isInterval_withLower hrange .unbounded (WithTop.coe_lt_top _)
      refine ⟨init ++ [(Ranges.fromRangeBounds bounds.1 .unbounded, node)], ?_, ?_⟩
      · simp [complexifyUpper, hunbounded, hbounds, hexclude, setLast]
      · rw [hexclude] at hahead ⊢
        exact hahead.stretch hnew
    · obtain ⟨bounds, hbounds, hnew⟩ :=
        isInterval_withLower hrange pyUpper (hbefore (range, node) (by simp))
      have habove := isInterval_complement_below hcut
        (WithTop.coe_lt_coe.mp (hcut ▸ bot_le.trans_lt hwindow))
      refine ⟨init ++ [(Ranges.fromRangeBounds bounds.1 pyUpper, node)] ++
        [(RangeOps.complement (.fromRangeBounds .unbounded pyUpper), exclude)], ?_, ?_⟩
      · simp [complexifyUpper, hunbounded, hbounds, hexclude, setLast]
      · have hwindowCut : cutsOf (pyLower, pyUpper) = (pyLower.lowerCut, ↑cut) :=
          congrArg (Prod.mk _) hcut
        rw [hwindowCut] at hahead ⊢
        rw [hcut] at hnew
        exact hahead.cut hnew habove

/-- Inside the bounds the edges lead to the same children, outside to
`exclude`. -/
theorem complexifyEdges_spec {pyLower pyUpper : Bound ValidVersion}
    {exclude : NodeId} (hcover : Cover edges)
    (hvalid : Bound.validSegment pyLower pyUpper = true) :
    ∃ new, complexifyEdges edges pyLower pyUpper exclude = some new ∧ Cover new ∧
      ∀ point child, OnEdge point new child →
        (point.In (cutsOf (pyLower, pyUpper)) → OnEdge point edges child) ∧
        (¬ point.In (cutsOf (pyLower, pyUpper)) → child = exclude) := by
  have hpy := Ranges.isInterval_fromRangeBounds hvalid
  have hwindow : (pyLower.lowerCut : WithTop (Cut ValidVersion)) <
      pyUpper.upperCut := hpy.nonempty
  obtain ⟨first, last, hspans, hfirst, hlast⟩ :=
    spans_filter_meets hcover hpy.nonempty
  obtain ⟨raised, hlower, hraised⟩ := complexifyLower_spec hspans hwindow hfirst
    hlast (fun edge hedge => meets_of_mem_filter hedge)
    (fun edge hedge => (List.mem_filter.mp hedge).1)
  obtain ⟨final, hupper, hcover', hlabels⟩ :=
    complexifyUpper_spec hraised hwindow hlast
  refine ⟨final, ?_, hcover', hlabels⟩
  have hne := hspans.ne_nil (hfirst.trans_lt (hwindow.trans_le hlast))
  simp only [complexifyEdges, filter_meets_eq hcover hpy, List.isEmpty_iff, hne,
    if_false, hlower, Option.bind_eq_bind, Option.bind_some, hupper]

end Window

end Uv.Pep508
