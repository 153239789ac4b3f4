import Uv.Pep508.EdgeOperations

/-!
# Edges of expressions

The edges made from a set of values cover the order: its intervals lead to
`true` and those of its complement to `false`.  Every expression becomes such
edges, or two boolean edges, or a constant.
-/

namespace Uv.Pep508

open Uv.Core Uv.Pep440

/-! ## Edges of a range -/

section FromRange

variable {T : Type} [OrdKey T]

theorem compareDisjointRangeStart_ne_gt {left right : Ranges T}
    {cuts cuts' : Cut T × WithTop (Cut T)} (hleft : left.IsInterval cuts)
    (hright : right.IsInterval cuts') :
    compareDisjointRangeStart left right ≠ .gt ↔ cuts.1 ≤ cuts'.1 := by
  obtain ⟨⟨start₁, stop₁⟩, hbounds₁, rfl⟩ := hleft.exists_boundingRange
  obtain ⟨⟨start₂, stop₂⟩, hbounds₂, rfl⟩ := hright.exists_boundingRange
  have hle : ∀ left right : T, compare left right ≠ .gt ↔
      OrdKey.key left ≤ OrdKey.key right := by
    intro left right
    rw [← Bound.compare_isLE]
    cases compare left right <;> simp
  simp only [compareDisjointRangeStart, hbounds₁, hbounds₂, cutsOf]
  cases start₁ with
  | unbounded => simp [Bound.lowerCut]
  | included v₁ =>
      cases start₂ with
      | unbounded => simp [Bound.lowerCut, (Cut.bot_lt_before v₁).ne']
      | included v₂ =>
          simp only [Bound.lowerCut, hle, ← not_lt, Cut.before_lt_before]
      | excluded v₂ =>
          rw [Bound.lowerCut, Bound.lowerCut, ← not_lt, Cut.after_lt_before,
            not_lt, ← hle]
          cases hcompare : compare v₁ v₂ <;> simp [hcompare]
  | excluded v₁ =>
      cases start₂ with
      | unbounded => simp [Bound.lowerCut, (Cut.bot_lt_after v₁).ne']
      | included v₂ =>
          rw [Bound.lowerCut, Bound.lowerCut, ← not_lt, Cut.before_lt_after,
            not_le, ← Bound.compare_eq_lt]
          cases hcompare : compare v₁ v₂ <;> simp [hcompare]
      | excluded v₂ =>
          simp only [Bound.lowerCut, hle, ← not_lt, Cut.after_lt_after]

/-- The intervals of a set as edges to one child. -/
private def segmentEdges (range : Ranges T) (child : NodeId) :
    List (Ranges T × NodeId) :=
  range.segments.map fun (start, stop) => (Ranges.fromRangeBounds start stop, child)

private theorem interval_segmentEdges {range : Ranges T} (hvalid : range.Valid)
    {child : NodeId} {edge : Ranges T × NodeId}
    (hedge : edge ∈ segmentEdges range child) :
    edge.1.IsInterval edge.1.hull := by
  obtain ⟨segment, hsegment, rfl⟩ := List.mem_map.mp hedge
  have hinterval := Ranges.isInterval_fromRangeBounds (Bound.validSegment_iff.mpr
    (hvalid.nonempty _ (List.mem_map_of_mem hsegment)))
  rw [hinterval.hull_eq]
  exact hinterval

private theorem tilesOf_segmentEdges {range : Ranges T} (hvalid : range.Valid)
    (child : NodeId) : tilesOf (segmentEdges range child) =
      (range.segments.map cutsOf).map fun cuts => (cuts, child) := by
  simp only [tilesOf, segmentEdges, List.map_map]
  refine List.map_congr_left fun segment hsegment => ?_
  have hinterval := Ranges.isInterval_fromRangeBounds (Bound.validSegment_iff.mpr
    (hvalid.nonempty _ (List.mem_map_of_mem hsegment)))
  simp only [Function.comp_apply, hinterval.hull_eq]

variable [RangeOps T]

private theorem fromRange_eq (range : Ranges T) :
    Edges.fromRange range =
      (segmentEdges range .TRUE ++
        segmentEdges (RangeOps.complement range) .FALSE).insertionSort
          fun edge edge' => compareDisjointRangeStart edge.1 edge'.1 ≠ .gt := rfl

variable {range : Ranges T}

private theorem mem_fromRange {edge : Ranges T × NodeId} :
    edge ∈ Edges.fromRange range ↔ edge ∈ segmentEdges range .TRUE ∨
      edge ∈ segmentEdges (RangeOps.complement range) .FALSE := by
  rw [fromRange_eq, List.mem_insertionSort, List.mem_append]

theorem interval_fromRange (hvalid : range.Valid) {edge : Ranges T × NodeId}
    (hedge : edge ∈ Edges.fromRange range) : edge.1.IsInterval edge.1.hull := by
  rcases mem_fromRange.mp hedge with htrue | hfalse
  · exact interval_segmentEdges hvalid htrue
  · exact interval_segmentEdges (RangeOps.valid_complement hvalid) hfalse

theorem mem_tilesOf_fromRange (hvalid : range.Valid)
    {tile : (Cut T × WithTop (Cut T)) × NodeId} :
    tile ∈ tilesOf (Edges.fromRange range) ↔
      (tile.1 ∈ range.segments.map cutsOf ∧ tile.2 = .TRUE) ∨
      (tile.1 ∈ (RangeOps.complement range).segments.map cutsOf ∧
        tile.2 = .FALSE) := by
  have hmem : tile ∈ tilesOf (Edges.fromRange range) ↔
      tile ∈ tilesOf (segmentEdges range .TRUE) ∨
        tile ∈ tilesOf (segmentEdges (RangeOps.complement range) .FALSE) := by
    simp only [tilesOf, List.mem_map, mem_fromRange, or_and_right, exists_or]
  obtain ⟨cuts, child⟩ := tile
  rw [hmem, tilesOf_segmentEdges hvalid,
    tilesOf_segmentEdges (RangeOps.valid_complement hvalid)]
  simp only [List.mem_map, Prod.mk.injEq]
  grind

theorem onEdge_fromRange (hvalid : range.Valid) {point : Point (Cut T)}
    {child : NodeId} :
    OnEdge point (Edges.fromRange range) child ↔
      (child = .TRUE ∧ range.Has point) ∨
      (child = .FALSE ∧ (RangeOps.complement range).Has point) := by
  simp only [OnEdge, Ranges.Has, mem_tilesOf_fromRange hvalid]
  constructor
  · rintro ⟨tile, ⟨hmem, hlabel⟩ | ⟨hmem, hlabel⟩, rfl, hin⟩
    · exact .inl ⟨hlabel, tile.1, hmem, hin⟩
    · exact .inr ⟨hlabel, tile.1, hmem, hin⟩
  · rintro (⟨rfl, cuts, hmem, hin⟩ | ⟨rfl, cuts, hmem, hin⟩)
    · exact ⟨(cuts, _), .inl ⟨hmem, rfl⟩, rfl, hin⟩
    · exact ⟨(cuts, _), .inr ⟨hmem, rfl⟩, rfl, hin⟩

theorem cover_fromRange (hvalid : range.Valid) : Cover (Edges.fromRange range) := by
  have hcomplement := RangeOps.valid_complement hvalid
  refine ⟨fun edge => interval_fromRange hvalid, ?_⟩
  have hsort : tilesOf (Edges.fromRange range) =
      (tilesOf (segmentEdges range .TRUE ++
        segmentEdges (RangeOps.complement range) .FALSE)).insertionSort
          fun tile tile' => tile.1.1 ≤ tile'.1.1 := by
    rw [fromRange_eq]
    refine List.map_insertionSort _ _ _ _ fun edge hedge edge' hedge' => ?_
    exact compareDisjointRangeStart_ne_gt
      (interval_fromRange hvalid (mem_fromRange.mpr (List.mem_append.mp hedge)))
      (interval_fromRange hvalid (mem_fromRange.mpr (List.mem_append.mp hedge')))
  refine tiles_of_sorted ?_ ?_ ?_ ?_
  · intro cuts hcuts
    obtain ⟨tile, htile, rfl⟩ := List.mem_map.mp hcuts
    rcases (mem_tilesOf_fromRange hvalid).mp htile with ⟨hmem, -⟩ | ⟨hmem, -⟩
    · exact hvalid.nonempty _ hmem
    · exact hcomplement.nonempty _ hmem
  · rw [List.pairwise_map, hsort]
    have : Std.Total fun tile tile' :
        (Cut T × WithTop (Cut T)) × NodeId => tile.1.1 ≤ tile'.1.1 :=
      ⟨fun tile tile' => le_total _ _⟩
    have : IsTrans ((Cut T × WithTop (Cut T)) × NodeId)
        fun tile tile' => tile.1.1 ≤ tile'.1.1 :=
      ⟨fun _ _ _ hle hle' => le_trans hle hle'⟩
    exact List.pairwise_insertionSort _ _
  · rw [List.pairwise_map, hsort, (List.perm_insertionSort _ _).pairwise_iff
      fun hdisjoint position hright hleft => hdisjoint position hleft hright]
    simp only [tilesOf, List.map_append]
    rw [← tilesOf, ← tilesOf, tilesOf_segmentEdges hvalid,
      tilesOf_segmentEdges hcomplement, List.pairwise_append]
    refine ⟨?_, ?_, ?_⟩
    · rw [List.pairwise_map]
      exact hvalid.pairwise_disjoint
    · rw [List.pairwise_map]
      exact hcomplement.pairwise_disjoint
    · intro tile htile tile' htile' position hin hin'
      obtain ⟨cuts, hcuts, rfl⟩ := List.mem_map.mp htile
      obtain ⟨cuts', hcuts', rfl⟩ := List.mem_map.mp htile'
      exact (RangeOps.mem_complement hvalid position).mp ⟨cuts', hcuts', hin'⟩
        ⟨cuts, hcuts, hin⟩
  · intro position
    refine ⟨fun _ => bot_le, fun _ => ?_⟩
    by_cases hmem : range.Mem position
    · obtain ⟨cuts, hcuts, hbetween⟩ := hmem
      exact ⟨cuts, List.mem_map.mpr ⟨(cuts, .TRUE),
        (mem_tilesOf_fromRange hvalid).mpr (.inl ⟨hcuts, rfl⟩), rfl⟩, hbetween⟩
    · obtain ⟨cuts, hcuts, hbetween⟩ :=
        (RangeOps.mem_complement hvalid position).mpr hmem
      exact ⟨cuts, List.mem_map.mpr ⟨(cuts, .FALSE),
        (mem_tilesOf_fromRange hvalid).mpr (.inr ⟨hcuts, rfl⟩), rfl⟩, hbetween⟩

theorem chain_fromRange (hvalid : range.Valid) :
    ((Edges.fromRange range).map Prod.snd).IsChain (· ≠ ·) := by
  have htiles := (cover_fromRange hvalid).tiles
  have hlabels : (Edges.fromRange range).map Prod.snd =
      (tilesOf (Edges.fromRange range)).map Prod.snd := by simp [tilesOf]
  rw [hlabels, List.isChain_map]
  refine htiles.adjacent.imp_of_mem_imp fun tile tile' htile htile' hmeet hlabel => ?_
  have htouch : ∀ {set : Ranges T}, set.Valid →
      tile.1 ∈ set.segments.map cutsOf → tile'.1 ∈ set.segments.map cutsOf → False :=
    fun hset hmem hmem' => hset.not_adjacent hmem hmem' hmeet
  rcases (mem_tilesOf_fromRange hvalid).mp htile with ⟨hmem, hchild⟩ | ⟨hmem, hchild⟩
  · rcases (mem_tilesOf_fromRange hvalid).mp htile' with ⟨hmem', _⟩ | ⟨_, hchild'⟩
    · exact htouch hvalid hmem hmem'
    · rw [hchild, hchild'] at hlabel
      cases hlabel
  · rcases (mem_tilesOf_fromRange hvalid).mp htile' with ⟨_, hchild'⟩ | ⟨hmem', _⟩
    · rw [hchild, hchild'] at hlabel
      cases hlabel
    · exact htouch (RangeOps.valid_complement hvalid) hmem hmem'

theorem terminal_fromRange (hvalid : range.Valid) {child : NodeId}
    (hchild : child ∈ (Edges.fromRange range).map Prod.snd) :
    child = .TRUE ∨ child = .FALSE := by
  obtain ⟨point, -, hedge⟩ :=
    (cover_fromRange hvalid).exists_point separates_all hchild
  rcases (onEdge_fromRange hvalid).mp hedge with ⟨htrue, -⟩ | ⟨hfalse, -⟩
  · exact .inl htrue
  · exact .inr hfalse

/-- The label of an edge made from a range says whether the range has the
point. -/
theorem onEdge_fromRange_iff_has (hvalid : range.Valid) {point : Point (Cut T)}
    {child : NodeId} (hedge : OnEdge point (Edges.fromRange range) child) :
    (child = .TRUE ∧ range.Has point) ∨ (child = .FALSE ∧ ¬ range.Has point) := by
  rcases (onEdge_fromRange hvalid).mp hedge with hin | hout
  · exact .inl hin
  · refine .inr ⟨hout.1, fun hhas => ?_⟩
    have htrue := (onEdge_fromRange hvalid).mpr (.inl ⟨rfl, hhas⟩)
    rw [hout.1] at hedge
    cases (cover_fromRange hvalid).onEdge_unique hedge htrue

end FromRange

/-! ## Expressions -/

/-- Edges to the two terminals, merged and of the kind of the variable. -/
structure Edges.Simple (var : Variable) (edges : Edges) : Prop where
  fits : edges.Fits var
  merged : edges.Merged
  terminal : ∀ child ∈ edges.nodes, child = .TRUE ∨ child = .FALSE

variable [RangeOps ValidVersion] [RangeOps Text]

omit [RangeOps Text] in
theorem Edges.simple_version (key : CanonicalMarkerValueVersion)
    {range : Ranges ValidVersion} (hvalid : range.Valid) :
    Simple (.version key) (.version (fromRange range)) :=
  ⟨cover_fromRange hvalid, chain_fromRange hvalid,
    fun _ => terminal_fromRange hvalid⟩

omit [RangeOps ValidVersion] in
theorem Edges.simple_string (key : CanonicalMarkerValueString)
    {range : Ranges Text} (hvalid : range.Valid) :
    Simple (.string key) (.string (fromRange range)) :=
  ⟨cover_fromRange hvalid, chain_fromRange hvalid,
    fun _ => terminal_fromRange hvalid⟩

omit [RangeOps ValidVersion] [RangeOps Text] in
theorem Edges.simple_fromBool {var : Variable} (hdomain : var.domain = .boolean)
    (complemented : Bool) : Simple var (fromBool complemented) := by
  cases complemented <;>
    exact ⟨by simp [Fits, hdomain, fromBool], trivial, by simp [fromBool, nodes]⟩

omit [RangeOps Text] in
theorem valid_releaseSpecifierToRange {specifier : VersionSpecifier} {trim : Bool}
    {range : Ranges ValidVersion}
    (hrange : specifier.releaseSpecifierToRange trim = some range) :
    range.Valid := by
  unfold VersionSpecifier.releaseSpecifierToRange at hrange
  cases hoperator : specifier.operator <;>
    simp only [hoperator, Option.some.injEq, Option.map_eq_some_iff,
      Option.map_map] at hrange
  · subst hrange; exact Ranges.valid_singleton _
  · obtain ⟨release, -, rfl⟩ := hrange
    exact Ranges.valid_fromRangeBounds _ _
  · subst hrange; exact Ranges.valid_singleton _
  · subst hrange; exact RangeOps.valid_complement (Ranges.valid_singleton _)
  · obtain ⟨release, -, rfl⟩ := hrange
    exact RangeOps.valid_complement (Ranges.valid_fromRangeBounds _ _)
  · obtain ⟨upper, -, rfl⟩ := hrange
    exact Ranges.valid_fromRangeBounds _ _
  · subst hrange; exact Ranges.valid_strictlyLowerThan _
  · subst hrange; exact Ranges.valid_lowerThan _
  · subst hrange; exact Ranges.valid_strictlyHigherThan _
  · subst hrange; exact Ranges.valid_higherThan _

omit [RangeOps Text] in
theorem Edges.simple_fromSpecifier (key : CanonicalMarkerValueVersion)
    {specifier : VersionSpecifier} {edges : Edges}
    (hedges : fromSpecifier specifier = some edges) :
    Simple (.version key) edges := by
  obtain ⟨range, hrange, rfl⟩ := Option.map_eq_some_iff.mp hedges
  exact simple_version key (valid_releaseSpecifierToRange hrange)

omit [RangeOps ValidVersion] in
theorem Edges.simple_fromString (key : CanonicalMarkerValueString)
    {operator : MarkerOperator} {value : Text} {edges : Edges}
    (hedges : fromString operator value = some edges) :
    Simple (.string key) edges := by
  unfold fromString at hedges
  obtain ⟨range, hrange, rfl⟩ := Option.map_eq_some_iff.mp hedges
  apply simple_string
  cases operator <;> simp only [Option.some.injEq, reduceCtorEq] at hrange <;>
    subst hrange
  · exact Ranges.valid_singleton _
  · exact RangeOps.valid_complement (Ranges.valid_singleton _)
  · exact Ranges.valid_strictlyHigherThan _
  · exact Ranges.valid_higherThan _
  · exact Ranges.valid_strictlyLowerThan _
  · exact Ranges.valid_lowerThan _

omit [RangeOps Text] in
theorem Edges.valid_negatedIf (operator : ContainerOperator)
    {range : Ranges ValidVersion} (hvalid : range.Valid) :
    (negatedIf operator range).Valid := by
  unfold negatedIf
  split
  · exact RangeOps.valid_complement hvalid
  · exact hvalid

omit [RangeOps ValidVersion] [RangeOps Text] in
theorem Edges.terminal_of_pythonVersionToFullVersion {specifier : VersionSpecifier}
    {node : NodeId}
    (herror : pythonVersionToFullVersion specifier = some (.error node)) :
    node = .TRUE ∨ node = .FALSE := by
  unfold pythonVersionToFullVersion at herror
  grind

omit [RangeOps Text] in
theorem Edges.terminal_of_pythonVersionsSegments {versions : List ValidVersion}
    {node : NodeId}
    (herror : pythonVersionsSegments versions = some (.error node)) :
    node = .TRUE ∨ node = .FALSE := by
  induction versions with
  | nil => simp [pythonVersionsSegments] at herror
  | cons first rest ih =>
      simp only [pythonVersionsSegments, Option.bind_eq_bind,
        Option.bind_eq_some_iff] at herror
      obtain ⟨segments, hfirst, herror⟩ := herror
      cases segments with
      | error node' =>
          simp only [Option.some.injEq, Except.error.injEq] at herror
          subst herror
          simp only [pythonVersionSegments, Option.bind_eq_bind,
            Option.bind_eq_some_iff] at hfirst
          obtain ⟨full, hfull, hfirst⟩ := hfirst
          cases full with
          | error node =>
              simp only [Option.some.injEq, Except.error.injEq] at hfirst
              subst hfirst
              exact terminal_of_pythonVersionToFullVersion hfull
          | ok specifier => simp [Option.bind_eq_some_iff] at hfirst
      | ok segments =>
          simp only [Option.bind_eq_some_iff] at herror
          obtain ⟨more, hmore, herror⟩ := herror
          cases more with
          | error node' =>
              simp only [Option.some.injEq, Except.error.injEq] at herror
              subst herror
              exact ih hmore
          | ok more => simp at herror

/-- What an expression stands for: a constant, or a variable with simple
edges. -/
def Describes : Except NodeId (Variable × Edges) → Prop
  | .error node => node = .TRUE ∨ node = .FALSE
  | .ok (var, edges) => edges.Simple var

omit [RangeOps Text] in
private theorem describes_fromSpecifier {key : CanonicalMarkerValueVersion}
    {specifier : VersionSpecifier} {result : Except NodeId (Variable × Edges)}
    (hresult : (do
      let edges ← Edges.fromSpecifier specifier
      some (.ok (.version key, edges))) = some result) :
    Describes result := by
  obtain ⟨edges, hedges, heq⟩ := Option.bind_eq_some_iff.mp hresult
  cases heq
  exact Edges.simple_fromSpecifier key hedges

private theorem describes_string {key : MarkerValueString}
    {operator : MarkerOperator} {value : Text}
    {result : Except NodeId (Variable × Edges)}
    (hresult : expressionEdges (.string key operator value) = some result) :
    Describes result := by
  cases operator with
  | isIn =>
      cases hresult
      exact Edges.simple_fromBool rfl true
  | notIn =>
      cases hresult
      exact Edges.simple_fromBool rfl false
  | contains =>
      cases hresult
      exact Edges.simple_fromBool rfl true
  | notContains =>
      cases hresult
      exact Edges.simple_fromBool rfl false
  | _ =>
      simp only [expressionEdges] at hresult
      obtain ⟨edges, hedges, rfl⟩ := Option.map_eq_some_iff.mp hresult
      exact Edges.simple_fromString _ hedges

theorem expressionEdges_describes {expr : MarkerExpression}
    {result : Except NodeId (Variable × Edges)}
    (hresult : expressionEdges expr = some result) : Describes result := by
  cases expr with
  | version key specifier =>
      cases key with
      | pythonVersion =>
          obtain ⟨full, hfull, hresult⟩ := Option.bind_eq_some_iff.mp hresult
          cases full with
          | error node =>
              cases hresult
              exact Edges.terminal_of_pythonVersionToFullVersion hfull
          | ok specifier => exact describes_fromSpecifier hresult
      | _ => exact describes_fromSpecifier hresult
  | versionIn key versions operator =>
      have hfrom : ∀ key, (Edges.fromVersions versions operator).Simple
          (.version key) := fun key => Edges.simple_version key
        (Edges.valid_negatedIf operator (RangeOps.valid_collect _))
      cases key with
      | pythonVersion =>
          obtain ⟨edges, hedges, hresult⟩ := Option.bind_eq_some_iff.mp hresult
          obtain ⟨segments, hsegments, hedges⟩ :=
            Option.bind_eq_some_iff.mp hedges
          cases segments with
          | error node =>
              cases hedges
              cases hresult
              exact Edges.terminal_of_pythonVersionsSegments hsegments
          | ok segments =>
              cases hedges
              cases hresult
              exact Edges.simple_version _
                (Edges.valid_negatedIf operator (RangeOps.valid_collect _))
      | _ =>
          cases hresult
          exact hfrom _
  | string key operator value => exact describes_string hresult
  | list pair operator =>
      cases hresult
      exact Edges.simple_fromBool rfl _
  | extra name operator =>
      cases name with
      | arbitrary name =>
          cases operator <;> cases hresult <;> exact .inr rfl
      | extra name =>
          cases operator <;> cases hresult <;> exact Edges.simple_fromBool rfl _

end Uv.Pep508
