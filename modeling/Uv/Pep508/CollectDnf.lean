import Uv.Pep508.Accepting
import Uv.Pep508.Simplify

/-!
# The clauses of a diagram

A valuation of a marker follows a path to `true`, and the path is one of the clauses
that are collected.  The range of a child is never everything, because a node has more
than one, so only the path of the empty diagram has no terms.
-/

namespace Uv.Pep508

open Uv.Core Uv.Pep440

/-! ## Merged edges -/

section Merging

variable {T : Type} [OrdKey T]

theorem Cover.map_negate {edges : List (Ranges T × NodeId)} (hcover : Cover edges)
    (parent : NodeId) :
    Cover (edges.map fun edge => (edge.1, edge.2.negate parent)) where
  interval := by
    rw [List.forall_mem_map]
    exact hcover.interval
  tiles := by
    have htiles : tilesOf (edges.map fun edge => (edge.1, edge.2.negate parent)) =
        (tilesOf edges).map fun tile => (tile.1, tile.2.negate parent) := by
      simp [tilesOf]
    rw [htiles, List.map_map]
    exact hcover.tiles

variable [RangeOps T] {edges : List (Ranges T × NodeId)} {paths : List (NodeId × Ranges T)}
  {tree child other : NodeId} {range union : Ranges T}

/-- The merged ranges hold the positions of the edges seen so far. -/
structure MergedRanges (Seen : Ranges T → NodeId → Prop) (paths : List (NodeId × Ranges T)) :
    Prop where
  valid : ∀ path ∈ paths, path.2.Valid
  sound : ∀ path ∈ paths, ∀ position, path.2.Mem position →
    ∃ range, Seen range path.1 ∧ range.Mem position
  complete : ∀ range tree, Seen range tree → ∃ union, (tree, union) ∈ paths ∧
    ∀ position, range.Mem position → union.Mem position

theorem mem_insertUnion {path : NodeId × Ranges T}
    (hpath : path ∈ insertUnion tree range paths) :
    path ∈ paths ∨ path = (tree, range) ∨
      ∃ union, (tree, union) ∈ paths ∧ path = (tree, RangeOps.union union range) := by
  induction paths with
  | nil => exact .inr (.inl (List.mem_singleton.mp hpath))
  | cons head paths ih =>
      obtain ⟨other, union⟩ := head
      rw [insertUnion] at hpath
      split at hpath
      · rename_i hsame
        subst hsame
        rcases List.mem_cons.mp hpath with rfl | hpath
        · exact .inr (.inr ⟨union, by simp, rfl⟩)
        · exact .inl (List.mem_cons_of_mem _ hpath)
      · rcases List.mem_cons.mp hpath with rfl | hpath
        · exact .inl (by simp)
        · rcases ih hpath with hold | hnew | ⟨union', hmem, heq⟩
          · exact .inl (List.mem_cons_of_mem _ hold)
          · exact .inr (.inl hnew)
          · exact .inr (.inr ⟨union', List.mem_cons_of_mem _ hmem, heq⟩)

/-- The child has an entry for the new range, alone or with what was there. -/
theorem exists_mem_insertUnion (tree : NodeId) (range : Ranges T)
    (paths : List (NodeId × Ranges T)) :
    (tree, range) ∈ insertUnion tree range paths ∨
      ∃ union, (tree, union) ∈ paths ∧
        (tree, RangeOps.union union range) ∈ insertUnion tree range paths := by
  induction paths with
  | nil => exact .inl (by simp [insertUnion])
  | cons head paths ih =>
      obtain ⟨other, union⟩ := head
      rw [insertUnion]
      split
      · rename_i hsame
        subst hsame
        exact .inr ⟨union, by simp, by simp⟩
      · rcases ih with hnew | ⟨union', hmem, hunion⟩
        · exact .inl (List.mem_cons_of_mem _ hnew)
        · exact .inr ⟨union', List.mem_cons_of_mem _ hmem, List.mem_cons_of_mem _ hunion⟩

/-- An old entry stays or grows by the new range. -/
theorem mem_insertUnion_of_mem (hmem : (other, union) ∈ paths) :
    (other, union) ∈ insertUnion tree range paths ∨
      other = tree ∧ (other, RangeOps.union union range) ∈ insertUnion tree range paths := by
  induction paths with
  | nil => cases hmem
  | cons head paths ih =>
      obtain ⟨other', union'⟩ := head
      rw [insertUnion]
      rcases List.mem_cons.mp hmem with heq | hmem
      · cases heq
        split
        · rename_i hsame
          exact .inr ⟨hsame, by simp⟩
        · exact .inl (by simp)
      · split
        · exact .inl (List.mem_cons_of_mem _ hmem)
        · exact (ih hmem).imp (List.mem_cons_of_mem _)
            fun hgrown => ⟨hgrown.1, List.mem_cons_of_mem _ hgrown.2⟩

theorem MergedRanges.insertUnion {Seen : Ranges T → NodeId → Prop}
    (hmerged : MergedRanges Seen paths) (hrange : range.Valid) :
    MergedRanges (fun range' tree' => Seen range' tree' ∨ range' = range ∧ tree' = tree)
      (insertUnion tree range paths) where
  valid path hpath := by
    rcases mem_insertUnion hpath with hold | rfl | ⟨union, hunion, rfl⟩
    · exact hmerged.valid path hold
    · exact hrange
    · exact RangeOps.valid_union (hmerged.valid _ hunion) hrange
  sound path hpath position hmem := by
    rcases mem_insertUnion hpath with hold | rfl | ⟨union, hunion, rfl⟩
    · obtain ⟨range', hseen, hmem'⟩ := hmerged.sound path hold position hmem
      exact ⟨range', .inl hseen, hmem'⟩
    · exact ⟨range, .inr ⟨rfl, rfl⟩, hmem⟩
    · rw [RangeOps.mem_union (hmerged.valid _ hunion) hrange] at hmem
      rcases hmem with hmem | hmem
      · obtain ⟨range', hseen, hmem'⟩ := hmerged.sound _ hunion position hmem
        exact ⟨range', .inl hseen, hmem'⟩
      · exact ⟨range, .inr ⟨rfl, rfl⟩, hmem⟩
  complete range' tree' hseen := by
    rcases hseen with hseen | ⟨rfl, rfl⟩
    · obtain ⟨union, hunion, hle⟩ := hmerged.complete range' tree' hseen
      rcases mem_insertUnion_of_mem hunion with hkept | ⟨-, hgrown⟩
      · exact ⟨union, hkept, hle⟩
      · refine ⟨_, hgrown, fun position hmem => ?_⟩
        rw [RangeOps.mem_union (hmerged.valid _ hunion) hrange]
        exact .inl (hle position hmem)
    · rcases exists_mem_insertUnion tree' range' paths with hnew | ⟨union, hunion, hgrown⟩
      · exact ⟨range', hnew, fun _ => id⟩
      · refine ⟨_, hgrown, fun position hmem => ?_⟩
        rw [RangeOps.mem_union (hmerged.valid _ hunion) hrange]
        exact .inr hmem

omit [RangeOps T] in
/-- An interval is the one between its own bounds. -/
theorem fromRangeBounds_of_isInterval {cuts : Cut T × WithTop (Cut T)}
    (hinterval : range.IsInterval cuts) {start stop : Bound T}
    (hbounds : range.boundingRange = some (start, stop)) :
    Ranges.fromRangeBounds start stop = range := by
  obtain ⟨segment, hsegments, hcuts⟩ := hinterval.exists_segment
  have hsegment : segment = (start, stop) := by
    simpa [Ranges.boundingRange, hsegments] using hbounds
  subst hsegment
  have hvalid : Bound.validSegment start stop = true :=
    Bound.validSegment_iff.mpr (by
      have hnonempty := hinterval.nonempty
      rw [← hcuts] at hnonempty
      exact hnonempty)
  rw [Ranges.fromRangeBounds, if_pos hvalid, ← hsegments]

theorem merged_collectEdgesLoop {Seen : Ranges T → NodeId → Prop}
    {paths' : List (NodeId × Ranges T)}
    (hinterval : ∀ edge ∈ edges, edge.1.IsInterval edge.1.hull) (hmerged : MergedRanges Seen paths)
    (hpaths : collectEdgesLoop edges paths = some paths') :
    MergedRanges (fun range tree => Seen range tree ∨ (range, tree) ∈ edges) paths' := by
  induction edges generalizing paths Seen with
  | nil =>
      cases hpaths
      simpa using hmerged
  | cons edge edges ih =>
      obtain ⟨range, tree⟩ := edge
      obtain ⟨hedge, hedges⟩ := List.forall_mem_cons.mp hinterval
      rw [collectEdgesLoop] at hpaths
      split at hpaths
      · cases hpaths
      · rename_i start stop hbounds
        rw [fromRangeBounds_of_isInterval hedge hbounds] at hpaths
        have hnext := ih hedges (hmerged.insertUnion hedge.valid) hpaths
        simpa only [List.mem_cons, Prod.mk.injEq, or_assoc] using hnext

/-- Merging makes up no children. -/
theorem fst_mem_of_collectEdgesLoop {paths' : List (NodeId × Ranges T)}
    {path : NodeId × Ranges T} (hpaths : collectEdgesLoop edges paths = some paths')
    (hpath : path ∈ paths') : path.1 ∈ paths.map Prod.fst ∨ path.1 ∈ edges.map Prod.snd := by
  induction edges generalizing paths with
  | nil =>
      cases hpaths
      exact .inl (List.mem_map_of_mem hpath)
  | cons edge edges ih =>
      obtain ⟨range, tree⟩ := edge
      rw [collectEdgesLoop] at hpaths
      split at hpaths
      · cases hpaths
      · rcases ih hpaths with hold | hnew
        · obtain ⟨path', hmem, heq⟩ := List.mem_map.mp hold
          rcases mem_insertUnion hmem with hkept | rfl | ⟨union, hunion, rfl⟩
          · exact .inl (heq ▸ List.mem_map_of_mem hkept)
          · exact .inr (heq ▸ List.mem_cons_self)
          · have hfst : tree ∈ paths.map Prod.fst := List.mem_map_of_mem (f := Prod.fst) hunion
            exact .inl (heq ▸ hfst)
        · exact .inr (List.mem_cons_of_mem _ hnew)

/-- When not all edges lead to the same child, the merged range of a child is neither
empty nor everything. -/
theorem Cover.exists_merged (hcover : Cover edges) (hpaths : collectEdges edges = some paths)
    (hchild : child ∈ edges.map Prod.snd) (hother : other ∈ edges.map Prod.snd)
    (hne : child ≠ other) :
    ∃ union, (child, union) ∈ paths ∧ union.segments ≠ [] ∧
      (.unbounded, .unbounded) ∉ union.segments := by
  have hmerged : MergedRanges (fun range tree => (range, tree) ∈ edges) paths := by
    have hnone : MergedRanges (fun (_ : Ranges T) (_ : NodeId) => False) [] :=
      ⟨by simp, by simp, fun _ _ => False.elim⟩
    simpa using merged_collectEdgesLoop hcover.interval hnone hpaths
  have hposition : ∀ edge ∈ edges, edge.1.Mem edge.1.hull.1 := fun edge hedge =>
    ((hcover.interval edge hedge).mem_iff _).mpr
      ⟨le_rfl, (hcover.interval edge hedge).nonempty⟩
  obtain ⟨⟨range, child⟩, hedge, rfl⟩ := List.mem_map.mp hchild
  obtain ⟨⟨range', other⟩, hedge', rfl⟩ := List.mem_map.mp hother
  obtain ⟨union, hunion, hle⟩ := hmerged.complete range child hedge
  refine ⟨union, hunion, fun hempty => ?_, fun hfull => hne ?_⟩
  · have hmem := hle _ (hposition _ hedge)
    simp [Ranges.Mem, hempty] at hmem
  · -- The other child's first position would lie on an edge to this child, too.
    have hall : union.Mem range'.hull.1 :=
      ⟨_, List.mem_map_of_mem hfull, bot_le, WithTop.coe_lt_top _⟩
    obtain ⟨range'', hseen, hmem⟩ := hmerged.sound _ hunion _ hall
    have hon : ∀ edge ∈ edges, edge.1.Mem range'.hull.1 →
        OnEdge (Point.ofPosition range'.hull.1) edges edge.2 := fun edge hedge hmem =>
      onEdge_iff.mpr ⟨edge, hedge, rfl, Point.ofPosition_in.mpr
        (((hcover.interval edge hedge).mem_iff _).mp hmem)⟩
    exact hcover.onEdge_unique (hon (range'', child) hseen hmem) (hon _ hedge' (hposition _ hedge'))

end Merging

/-! ## Terms along the edges -/

section Terms

variable {T : Type} [OrdKey T]

theorem excludedValues_eq_nil {segments : List (Bound T × Bound T)}
    (hempty : excludedValues segments = some []) : segments.length ≤ 1 := by
  unfold excludedValues at hempty
  split at hempty
  · split at hempty <;> simp at hempty
  · cases hempty
  · rename_i hpair hlong
    match segments with
    | [] => simp
    | [_] => simp
    | first :: second :: rest => exact (hlong first second rest rfl).elim

/-- Only the range of everything leaves no value out. -/
theorem rangeInequality_eq_nil {range : Ranges T} (hempty : rangeInequality range = some []) :
    (.unbounded, .unbounded) ∈ range.segments := by
  unfold rangeInequality at hempty
  split at hempty
  · rename_i hbounds
    have hlength := excludedValues_eq_nil hempty
    unfold Ranges.boundingRange at hbounds
    match hsegments : range.segments with
    | [] => simp [hsegments] at hbounds
    | [segment] =>
        rw [hsegments] at hbounds
        simpa using (Option.some.inj hbounds).symm
    | _ :: _ :: _ => simp [hsegments] at hlength
  · cases hempty

theorem MarkerOperator.fromBounds_eq_nil {bounds : Bound Text × Bound Text}
    (hempty : MarkerOperator.fromBounds bounds = []) : bounds = (.unbounded, .unbounded) := by
  obtain ⟨lower, upper⟩ := bounds
  cases lower <;> cases upper <;>
    simp only [fromBounds, fromLowerBound, fromUpperBound, List.append_eq_nil_iff] at hempty
  all_goals first | rfl | (split at hempty <;> simp at hempty) | simp at hempty

/-- No term of the clause is an extra. -/
def NoExtra (clause : Clause) : Prop :=
  ∀ name operator, .extra name operator ∉ clause

/-- A range that is neither empty nor everything has a conjunction with a term. -/
theorem exists_versionTerms {key : MarkerValueVersion} {range : Ranges ValidVersion}
    {alternatives : List Clause} (hterms : versionTerms key range = some alternatives)
    (hnonempty : range.segments ≠ []) (hfull : (.unbounded, .unbounded) ∉ range.segments) :
    ∃ terms ∈ alternatives, terms ≠ [] ∧ NoExtra terms := by
  unfold versionTerms at hterms
  split at hterms
  · rename_i excluded _ hexcluded
    cases hterms
    refine ⟨_, List.mem_singleton_self _, fun hnil => hfull ?_, fun name operator => by simp⟩
    rw [List.map_eq_nil_iff] at hnil
    exact rangeInequality_eq_nil (hnil ▸ hexcluded)
  · cases hterms
    exact ⟨_, List.mem_singleton_self _, by simp, fun name operator => by simp⟩
  · obtain ⟨segment, hsegment⟩ := List.exists_mem_of_ne_nil _ hnonempty
    obtain ⟨terms, hmem, hsome⟩ := exists_of_forall₂ (mapM_eq_some_iff.mp hterms) hsegment
    obtain ⟨specifiers, hspecifiers, rfl⟩ := Option.map_eq_some_iff.mp hsome
    refine ⟨_, hmem, fun hnil => hfull ?_, fun name operator => by simp⟩
    rw [List.map_eq_nil_iff] at hnil
    rw [← VersionSpecifier.fromReleaseOnlyBounds_eq_nil (hnil ▸ hspecifiers)]
    exact hsegment

theorem exists_stringTerms (key : MarkerValueString) {range : Ranges Text}
    (hnonempty : range.segments ≠ []) (hfull : (.unbounded, .unbounded) ∉ range.segments) :
    ∃ terms ∈ stringTerms key range, terms ≠ [] ∧ NoExtra terms := by
  unfold stringTerms
  split
  · rename_i excluded hexcluded
    refine ⟨_, List.mem_singleton_self _, fun hnil => hfull ?_, fun name operator => by simp⟩
    rw [List.map_eq_nil_iff] at hnil
    exact rangeInequality_eq_nil (hnil ▸ hexcluded)
  · obtain ⟨segment, hsegment⟩ := List.exists_mem_of_ne_nil _ hnonempty
    refine ⟨_, List.mem_map_of_mem hsegment, fun hnil => hfull ?_, fun name operator => by simp⟩
    rw [List.map_eq_nil_iff] at hnil
    rw [← MarkerOperator.fromBounds_eq_nil hnil]
    exact hsegment

end Terms

namespace Interner

variable {s : Interner} {tree : NodeId} {node : Node} {v : Valuation} {child : NodeId}

/-- The extras that the path requires are active. -/
def FollowsExtras (v : Valuation) (path : Clause) : Prop :=
  ∀ name, .extra (.extra name) .equal ∈ path → v.bool (.extra name) = true

theorem NoExtra.follows {path : Clause} (hnone : NoExtra path) : FollowsExtras v path :=
  fun _ hmem => (hnone _ _ hmem).elim

theorem FollowsExtras.append {path terms : Clause} (hpath : FollowsExtras v path)
    (hterms : FollowsExtras v terms) : FollowsExtras v (path ++ terms) :=
  fun name hmem => (List.mem_append.mp hmem).elim (hpath name) (hterms name)

theorem follows_booleanTerm {var : Variable} {high : Bool} {term : MarkerExpression}
    (hterm : booleanTerm var high = some term) (hvalue : high = true → v.bool var = true) :
    FollowsExtras v [term] := by
  intro name hmem
  cases var <;> simp only [booleanTerm, Option.some.injEq, reduceCtorEq] at hterm <;>
    subst hterm <;> simp only [List.mem_singleton, reduceCtorEq] at hmem
  -- Only the high edge of an extra asks for it.
  cases high <;> cases hmem
  exact hvalue rfl

section Run

variable [RangeOps ValidVersion] [RangeOps Text]

/-- The picked child is reached by a term or more, none of which asks for an extra that is
not active. -/
theorem exists_branchTerms {branches : List (NodeId × Clause)} (hwf : s.WellFormed)
    (hnode : s.node tree = some node) (hpick : v.Picks node.var node.children child)
    (hbranches : node.branchTerms tree = some branches) :
    ∃ terms, (child.negate tree, terms) ∈ branches ∧ terms ≠ [] ∧ FollowsExtras v terms := by
  -- A reduced node has another child.
  obtain ⟨other, hother, hne⟩ : ∃ other ∈ node.children.nodes,
      child.negate tree ≠ other.negate tree := by
    obtain ⟨left, hleft, right, hright, hne⟩ := hwf.reduced hnode
    by_cases hsame : child = left
    · exact ⟨right, hright, fun h => hne (hsame ▸ NodeId.negate_injective tree h)⟩
    · exact ⟨left, hleft, fun h => hsame (NodeId.negate_injective tree h)⟩
  have hfits := hwf.fits hnode
  have hchild := hpick.mem
  have hmem : ∀ {T : Type} [OrdKey T] {edges : List (Ranges T × NodeId)} {child : NodeId},
      child ∈ edges.map Prod.snd → child.negate tree ∈
        (edges.map fun edge => (edge.1, edge.2.negate tree)).map Prod.snd := by
    intro T _ edges child hchild
    obtain ⟨edge, hedge, rfl⟩ := List.mem_map.mp hchild
    simpa using ⟨edge.1, edge.2, hedge, rfl⟩
  unfold Node.branchTerms at hbranches
  split at hbranches <;> simp only [Option.bind_eq_bind, Option.bind_eq_some_iff, Option.pure_def,
    Option.some.injEq, reduceCtorEq] at hbranches
  · rename_i key edges hvar hedges
    rw [hvar, hedges] at hfits
    rw [hedges] at hchild hother
    obtain ⟨paths, hpaths, all, hall, rfl⟩ := hbranches
    obtain ⟨union, hunion, hnonempty, hfull⟩ := (Cover.map_negate hfits tree).exists_merged
      hpaths (hmem hchild) (hmem hother) hne
    obtain ⟨reached, hreached, hsome⟩ := exists_of_forall₂ (mapM_eq_some_iff.mp hall) hunion
    obtain ⟨alternatives, halternatives, rfl⟩ := Option.map_eq_some_iff.mp hsome
    obtain ⟨terms, hterms, hne', hnone⟩ := exists_versionTerms halternatives hnonempty hfull
    exact ⟨terms, List.mem_flatten.mpr ⟨_, hreached, List.mem_map_of_mem hterms⟩, hne',
      NoExtra.follows hnone⟩
  · rename_i key edges hvar hedges
    rw [hvar, hedges] at hfits
    rw [hedges] at hchild hother
    obtain ⟨paths, hpaths, rfl⟩ := hbranches
    obtain ⟨union, hunion, hnonempty, hfull⟩ := (Cover.map_negate hfits tree).exists_merged
      hpaths (hmem hchild) (hmem hother) hne
    obtain ⟨terms, hterms, hne', hnone⟩ := exists_stringTerms key.toMarkerValue hnonempty hfull
    exact ⟨terms, List.mem_flatMap.mpr ⟨_, hunion, List.mem_map_of_mem hterms⟩, hne',
      NoExtra.follows hnone⟩
  · rename_i high low hboolean
    obtain ⟨highTerm, hhigh, lowTerm, hlow, rfl⟩ := hbranches
    have hpicked : child = if v.bool node.var then high else low := by
      rw [hboolean] at hpick
      unfold Valuation.Picks at hpick
      cases hdomain : node.var.domain <;> simp only [hdomain] at hpick
      exact hpick
    cases hvalue : v.bool node.var with
    | true =>
        rw [hvalue, if_pos rfl] at hpicked
        exact ⟨[highTerm], by simp [hpicked], by simp,
          follows_booleanTerm hhigh fun _ => hvalue⟩
    | false =>
        rw [hvalue, if_neg Bool.false_ne_true] at hpicked
        exact ⟨[lowTerm], by simp [hpicked], by simp,
          follows_booleanTerm hlow fun hfalse => by cases hfalse⟩

omit [RangeOps Text] [RangeOps ValidVersion] in
private theorem mem_negated {T : Type} {edges : List (Ranges T × NodeId)} {child : NodeId}
    (hchild : child ∈ (edges.map fun edge => (edge.1, edge.2.negate tree)).map Prod.snd) :
    ∃ child' ∈ edges.map Prod.snd, child = child'.negate tree := by
  rw [List.map_map] at hchild
  obtain ⟨edge, hedge, rfl⟩ := List.mem_map.mp hchild
  exact ⟨edge.2, List.mem_map_of_mem hedge, rfl⟩

/-- All branches lead to children of the node. -/
theorem exists_child_of_branchTerms {branches : List (NodeId × Clause)}
    {branch : NodeId × Clause} (hbranches : node.branchTerms tree = some branches)
    (hbranch : branch ∈ branches) :
    ∃ child ∈ node.children.nodes, branch.1 = child.negate tree := by
  unfold Node.branchTerms at hbranches
  split at hbranches <;> simp only [Option.bind_eq_bind, Option.bind_eq_some_iff, Option.pure_def,
    Option.some.injEq, reduceCtorEq] at hbranches
  · rename_i key edges hvar hedges
    obtain ⟨paths, hpaths, all, hall, rfl⟩ := hbranches
    obtain ⟨reached, hreached, hmem⟩ := List.mem_flatten.mp hbranch
    obtain ⟨path, hpath, hsome⟩ := exists_of_forall₂ (mapM_eq_some_iff.mp hall).flip hreached
    obtain ⟨alternatives, -, rfl⟩ := Option.map_eq_some_iff.mp hsome
    obtain ⟨terms, -, rfl⟩ := List.mem_map.mp hmem
    rw [hedges]
    exact mem_negated ((fst_mem_of_collectEdgesLoop hpaths hpath).resolve_left (by simp))
  · rename_i key edges hvar hedges
    obtain ⟨paths, hpaths, rfl⟩ := hbranches
    obtain ⟨path, hpath, hmem⟩ := List.mem_flatMap.mp hbranch
    obtain ⟨terms, -, rfl⟩ := List.mem_map.mp hmem
    rw [hedges]
    exact mem_negated ((fst_mem_of_collectEdgesLoop hpaths hpath).resolve_left (by simp))
  · rename_i high low hboolean
    obtain ⟨highTerm, -, lowTerm, -, rfl⟩ := hbranches
    rw [hboolean]
    simp only [List.mem_cons, List.not_mem_nil, or_false] at hbranch
    rcases hbranch with rfl | rfl
    · exact ⟨high, by simp [Edges.nodes], rfl⟩
    · exact ⟨low, by simp [Edges.nodes], rfl⟩

/-- Some collected path is followed by every valuation of the marker. -/
theorem exists_follows {fuel : ℕ} {path : Clause} {clauses : List Clause}
    (hwf : s.WellFormed) (hholds : Holds s v tree)
    (hclauses : collectDnf s fuel tree path = some clauses) (hpath : FollowsExtras v path)
    (hnonempty : path ≠ [] ∨ tree ≠ .TRUE) : ∃ clause ∈ clauses, FollowsExtras v clause := by
  induction fuel generalizing tree path clauses with
  | zero => cases hclauses
  | succ fuel ih =>
      cases hholds with
      | true =>
          have hne := hnonempty.resolve_right fun hne => hne rfl
          have hone : collectDnf s (fuel + 1) .TRUE path =
              some (if path.isEmpty then [] else [path]) := rfl
          rw [hone, if_neg (by simpa using hne)] at hclauses
          cases hclauses
          exact ⟨path, by simp, hpath⟩
      | @node _ node child hnode hpick hchild =>
          simp only [collectDnf, isTrue_of_node hnode, isFalse_of_node hnode, hnode,
            Bool.false_eq_true, if_false, Option.bind_eq_bind, Option.bind_some,
            Option.bind_eq_some_iff, Option.pure_def, Option.some.injEq] at hclauses
          obtain ⟨branches, hbranches, all, hall, rfl⟩ := hclauses
          obtain ⟨terms, hterms, hne, hfollows⟩ := exists_branchTerms hwf hnode hpick hbranches
          obtain ⟨below, hbelow, hsome⟩ := exists_of_forall₂ (mapM_eq_some_iff.mp hall) hterms
          obtain ⟨clause, hclause, hfollowed⟩ := ih hchild hsome (hpath.append hfollows)
            (.inl fun hnil => hne (List.append_eq_nil_iff.mp hnil).2)
          exact ⟨clause, List.mem_flatten.mpr ⟨below, hbelow, hclause⟩, hfollowed⟩

end Run

end Interner

end Uv.Pep508
