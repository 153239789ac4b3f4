import Uv.Core.Ranges

/-!
# Interval sets, implemented

The set operations are a parameter everywhere else.  This implementation shows
that what is assumed about them can be met: `insertSegment` merges one interval
into a sorted list, `complementFrom` walks over the gaps, and the intersection
is the complement of the union of the complements.
-/

namespace Uv.Core

variable {T : Type} [OrdKey T]

namespace Bound

/-- A lower end as the upper end of what comes before it, and the other way
round. -/
def flip : Bound T → Bound T
  | .included value => .excluded value
  | .excluded value => .included value
  | .unbounded => .unbounded

/-- One lower end is not after another. -/
def leLower : Bound T → Bound T → Bool
  | .unbounded, _ => true
  | _, .unbounded => false
  | .excluded left, .included right => compare left right == .lt
  | .included left, .included right => (compare left right).isLE
  | .included left, .excluded right => (compare left right).isLE
  | .excluded left, .excluded right => (compare left right).isLE

/-- One upper end is not after another. -/
def leUpper : Bound T → Bound T → Bool
  | _, .unbounded => true
  | .unbounded, _ => false
  | .included left, .excluded right => compare left right == .lt
  | .included left, .included right => (compare left right).isLE
  | .excluded left, .included right => (compare left right).isLE
  | .excluded left, .excluded right => (compare left right).isLE

/-- There is a gap between an upper end and a lower end. -/
def gapBefore : Bound T → Bound T → Bool
  | .unbounded, _ => false
  | _, .unbounded => false
  | .excluded left, .excluded right => (compare left right).isLE
  | .included left, .included right => compare left right == .lt
  | .included left, .excluded right => compare left right == .lt
  | .excluded left, .included right => compare left right == .lt

attribute [local simp] lowerCut upperCut compare_isLE compare_eq_lt
  Cut.before_lt_before Cut.before_lt_after Cut.after_lt_before
  Cut.after_lt_after Cut.bot_lt_before Cut.bot_lt_after

theorem leLower_iff {left right : Bound T} :
    left.leLower right = true ↔ left.lowerCut ≤ right.lowerCut := by
  rw [← not_lt]
  cases left <;> cases right <;> simp [leLower]

theorem leUpper_iff {left right : Bound T} :
    left.leUpper right = true ↔ left.upperCut ≤ right.upperCut := by
  rw [← not_lt]
  cases left <;> cases right <;> simp [leUpper]

theorem gapBefore_iff {stop start : Bound T} :
    stop.gapBefore start = true ↔
      stop.upperCut < (start.lowerCut : WithTop (Cut T)) := by
  cases stop <;> cases start <;> simp [gapBefore]

theorem lowerCut_flip {stop : Bound T} (hstop : stop.isUnbounded = false) :
    (stop.flip.lowerCut : WithTop (Cut T)) = stop.upperCut := by
  cases stop with
  | included value => rfl
  | excluded value => rfl
  | unbounded => cases hstop

theorem upperCut_flip {start : Bound T} (hstart : start.isUnbounded = false) :
    start.flip.upperCut = (start.lowerCut : WithTop (Cut T)) := by
  cases start with
  | included value => rfl
  | excluded value => rfl
  | unbounded => cases hstart

end Bound

namespace Ranges

/-- The smallest interval around two intervals. -/
def mergeSegments (segment next : Bound T × Bound T) : Bound T × Bound T :=
  (if segment.1.leLower next.1 then segment.1 else next.1,
    if segment.2.leUpper next.2 then next.2 else segment.2)

/-- Merge an interval into a sorted list. -/
def insertSegment (segment : Bound T × Bound T) :
    List (Bound T × Bound T) → List (Bound T × Bound T)
  | [] => [segment]
  | next :: rest =>
      if segment.2.gapBefore next.1 then segment :: next :: rest
      else if next.2.gapBefore segment.1 then
        next :: insertSegment segment rest
      else
        insertSegment (mergeSegments segment next) rest

/-- The gaps from `start` on. -/
def complementFrom (start : Bound T) :
    List (Bound T × Bound T) → List (Bound T × Bound T)
  | [] => [(start, .unbounded)]
  | (lower, upper) :: rest =>
      let tail :=
        if upper.isUnbounded then [] else complementFrom upper.flip rest
      if !lower.isUnbounded && Bound.validSegment start lower.flip then
        (start, lower.flip) :: tail
      else tail

/-- The positions of a list of intervals. -/
def Holds (segments : List (Bound T × Bound T)) (position : Cut T) : Prop :=
  ∃ cuts ∈ segments.map cutsOf, Between cuts position

theorem holds_nil (position : Cut T) : ¬ Holds [] position := by
  simp [Holds]

theorem holds_cons {segment : Bound T × Bound T}
    {rest : List (Bound T × Bound T)} {position : Cut T} :
    Holds (segment :: rest) position ↔
      Between (cutsOf segment) position ∨ Holds rest position := by
  simp only [Holds, List.map_cons, List.exists_mem_cons_iff]

/-- Two intervals that touch or overlap make one interval. -/
theorem between_merge {segment next : Bound T × Bound T}
    (hbefore : ¬ segment.2.gapBefore next.1)
    (hafter : ¬ next.2.gapBefore segment.1) (position : Cut T) :
    Between (cutsOf (mergeSegments segment next)) position ↔
      Between (cutsOf segment) position ∨ Between (cutsOf next) position := by
  rw [Bound.gapBefore_iff, not_lt] at hbefore hafter
  have hlower : (if segment.1.leLower next.1 then segment.1
      else next.1).lowerCut = min segment.1.lowerCut next.1.lowerCut := by
    split
    · rename_i hle
      exact (min_eq_left (Bound.leLower_iff.mp hle)).symm
    · rename_i hle
      rw [Bound.leLower_iff, not_le] at hle
      exact (min_eq_right hle.le).symm
  have hupper : (if segment.2.leUpper next.2 then next.2
      else segment.2).upperCut = max segment.2.upperCut next.2.upperCut := by
    split
    · rename_i hle
      exact (max_eq_right (Bound.leUpper_iff.mp hle)).symm
    · rename_i hle
      rw [Bound.leUpper_iff, not_le] at hle
      exact (max_eq_left hle.le).symm
  simp only [Between, cutsOf, mergeSegments, hlower, hupper, min_le_iff,
    lt_max_iff]
  constructor
  · rintro ⟨hstart | hstart, hstop | hstop⟩
    · exact .inl ⟨hstart, hstop⟩
    · by_cases hpast : (position : WithTop (Cut T)) < segment.2.upperCut
      · exact .inl ⟨hstart, hpast⟩
      · exact .inr ⟨WithTop.coe_le_coe.mp (hbefore.trans (not_lt.mp hpast)),
          hstop⟩
    · by_cases hpast : (position : WithTop (Cut T)) < next.2.upperCut
      · exact .inr ⟨hstart, hpast⟩
      · exact .inl ⟨WithTop.coe_le_coe.mp (hafter.trans (not_lt.mp hpast)),
          hstop⟩
    · exact .inr ⟨hstart, hstop⟩
  · rintro (⟨hstart, hstop⟩ | ⟨hstart, hstop⟩)
    · exact ⟨.inl hstart, .inl hstop⟩
    · exact ⟨.inr hstart, .inr hstop⟩

theorem nonempty_iff (cuts : Cut T × WithTop (Cut T)) :
    (cuts.1 : WithTop (Cut T)) < cuts.2 ↔ ∃ position, Between cuts position :=
  ⟨fun hlt => ⟨cuts.1, le_rfl, hlt⟩, fun ⟨_, hlower, hupper⟩ =>
    (WithTop.coe_le_coe.mpr hlower).trans_lt hupper⟩

theorem insertSegment_spec {segment : Bound T × Bound T}
    {segments : List (Bound T × Bound T)}
    (hsegment : Bound.validSegment segment.1 segment.2 = true)
    (hsegments : Separated (segments.map cutsOf)) :
    Separated ((insertSegment segment segments).map cutsOf) ∧
      ∀ position, Holds (insertSegment segment segments) position ↔
        Between (cutsOf segment) position ∨ Holds segments position := by
  induction segments generalizing segment with
  | nil =>
      refine ⟨separated_cons.mpr ⟨?_, by simp, separated_nil⟩, fun position => ?_⟩
      · exact Bound.validSegment_iff.mp hsegment
      · exact holds_cons
  | cons next rest ih =>
      obtain ⟨hnext, hgaps, hrest⟩ := separated_cons.mp hsegments
      unfold insertSegment
      split
      · rename_i hgap
        rw [Bound.gapBefore_iff] at hgap
        refine ⟨separated_cons.mpr ⟨Bound.validSegment_iff.mp hsegment, ?_,
          hsegments⟩, fun position => holds_cons⟩
        intro later hlater
        rcases List.mem_cons.mp hlater with rfl | hlater
        · exact hgap
        · exact hgap.trans (hnext.trans (hgaps later hlater))
      · rename_i hbefore
        split
        · rename_i hgap
          rw [Bound.gapBefore_iff] at hgap
          obtain ⟨hseparated, hholds⟩ := ih hsegment hrest
          refine ⟨separated_cons.mpr ⟨hnext, ?_, hseparated⟩, fun position => ?_⟩
          · -- the new list starts with the interval or the old rest
            intro later hlater
            have hmem := hseparated.nonempty later hlater
            rcases (hholds later.1).mp ⟨later, hlater, le_rfl, hmem⟩ with
              hbetween | ⟨old, hold, hbetween⟩
            · exact hgap.trans_le (WithTop.coe_le_coe.mpr hbetween.1)
            · exact (hgaps old hold).trans_le (WithTop.coe_le_coe.mpr hbetween.1)
          · rw [holds_cons, hholds, holds_cons]
            exact or_left_comm
        · rename_i hafter
          have hmerge := between_merge hbefore hafter
          have hvalid : Bound.validSegment (mergeSegments segment next).1
              (mergeSegments segment next).2 = true := by
            rw [Bound.validSegment_iff] at hsegment ⊢
            obtain ⟨position, hposition⟩ :=
              (nonempty_iff (cutsOf segment)).mp hsegment
            exact (nonempty_iff (cutsOf (mergeSegments segment next))).mpr
              ⟨position, (hmerge position).mpr (.inl hposition)⟩
          obtain ⟨hseparated, hholds⟩ := ih hvalid hrest
          refine ⟨hseparated, fun position => ?_⟩
          rw [hholds, hmerge, holds_cons, or_assoc]

theorem complementFrom_spec (start : Bound T)
    {segments : List (Bound T × Bound T)}
    (hsegments : Separated (segments.map cutsOf))
    (hstart : ∀ cuts ∈ segments.map cutsOf, start.lowerCut ≤ cuts.1) :
    Separated ((complementFrom start segments).map cutsOf) ∧
      ∀ position, Holds (complementFrom start segments) position ↔
        start.lowerCut ≤ position ∧ ¬ Holds segments position := by
  induction segments generalizing start with
  | nil =>
      refine ⟨separated_cons.mpr ⟨WithTop.coe_lt_top _, by simp, separated_nil⟩,
        fun position => ?_⟩
      simp [Holds, complementFrom, Between, cutsOf, Bound.upperCut]
  | cons next rest ih =>
      obtain ⟨lower, upper⟩ := next
      obtain ⟨hnext, hgaps, hrest⟩ := separated_cons.mp hsegments
      have hlower : start.lowerCut ≤ lower.lowerCut := hstart (cutsOf (lower, upper)) (by simp)
      -- past the first interval
      have htail : Separated ((if upper.isUnbounded then []
            else complementFrom upper.flip rest).map cutsOf) ∧
          ∀ position, Holds (if upper.isUnbounded then []
              else complementFrom upper.flip rest) position ↔
            upper.upperCut ≤ (position : WithTop (Cut T)) ∧
              ¬ Holds rest position := by
        cases hupper : upper.isUnbounded with
        | true =>
            have htop : upper.upperCut = ⊤ := by
              cases upper <;> simp_all [Bound.isUnbounded, Bound.upperCut]
            refine ⟨separated_nil, fun position => ?_⟩
            simp [htop, holds_nil]
        | false =>
            have hflip := Bound.lowerCut_flip hupper
            obtain ⟨hseparated, hholds⟩ := ih upper.flip hrest fun cuts hcuts =>
              WithTop.coe_le_coe.mp (hflip ▸ (hgaps cuts hcuts).le)
            refine ⟨by simpa using hseparated, fun position => ?_⟩
            rw [if_neg (by simp), hholds, ← hflip, WithTop.coe_le_coe]
      obtain ⟨hseparated, hholds⟩ := htail
      have hafter : ∀ {position : Cut T},
          upper.upperCut ≤ (position : WithTop (Cut T)) →
            lower.lowerCut < position := fun hpast =>
        WithTop.coe_lt_coe.mp (hnext.trans_le hpast)
      unfold complementFrom
      simp only
      split
      · rename_i hgap
        rw [Bool.and_eq_true, Bool.not_eq_true', Bound.validSegment_iff] at hgap
        obtain ⟨hbounded, hgap⟩ := hgap
        have hflip := Bound.upperCut_flip hbounded
        rw [hflip] at hgap
        refine ⟨separated_cons.mpr ⟨?_, ?_, hseparated⟩, fun position => ?_⟩
        · simpa [cutsOf, hflip] using hgap
        · intro later hlater
          have hmem := (hholds later.1).mp
            ⟨later, hlater, le_rfl, hseparated.nonempty later hlater⟩
          simpa [cutsOf, hflip] using hafter hmem.1
        · rw [holds_cons, hholds, holds_cons]
          simp only [Between, cutsOf, hflip, WithTop.coe_lt_coe, not_or]
          constructor
          · rintro (⟨hpast, hlt⟩ | ⟨hpast, hnot⟩)
            · refine ⟨hpast, fun hin => absurd hin.1 (not_le.mpr hlt), ?_⟩
              rintro ⟨cuts, hcuts, hbetween⟩
              have hgapped : (position : WithTop (Cut T)) < cuts.1 :=
                (WithTop.coe_lt_coe.mpr hlt).trans (hnext.trans (hgaps cuts hcuts))
              exact absurd hbetween.1 (not_le.mpr (WithTop.coe_lt_coe.mp hgapped))
            · exact ⟨hlower.trans (hafter hpast).le,
                fun hin => absurd hin.2 (not_lt.mpr hpast), hnot⟩
          · rintro ⟨hpast, hout, hnot⟩
            by_cases hlt : position < lower.lowerCut
            · exact .inl ⟨hpast, hlt⟩
            · exact .inr ⟨not_lt.mp fun hin => hout ⟨not_lt.mp hlt, hin⟩, hnot⟩
      · rename_i hgap
        have hsame : lower.lowerCut ≤ start.lowerCut := by
          cases hbounded : lower.isUnbounded with
          | true =>
              have hbot : lower.lowerCut = ⊥ := by
                cases lower <;> simp_all [Bound.isUnbounded, Bound.lowerCut]
              rw [hbot]
              exact bot_le
          | false =>
              rw [hbounded, Bool.not_false, Bool.true_and,
                Bound.validSegment_iff, Bound.upperCut_flip hbounded] at hgap
              exact WithTop.coe_le_coe.mp (not_lt.mp hgap)
        refine ⟨hseparated, fun position => ?_⟩
        rw [hholds, holds_cons, not_or]
        constructor
        · rintro ⟨hpast, hnot⟩
          exact ⟨hlower.trans (hafter hpast).le,
            fun hin => absurd hin.2 (not_lt.mpr hpast), hnot⟩
        · rintro ⟨hpast, hout, hnot⟩
          exact ⟨not_lt.mp fun hin => hout ⟨hsame.trans hpast, hin⟩, hnot⟩

/-- The union of arbitrary intervals; those with ends the wrong way round are
empty. -/
def collectSegments (segments : List (Bound T × Bound T)) :
    List (Bound T × Bound T) :=
  (segments.filter fun (start, stop) => Bound.validSegment start stop).foldr
    insertSegment []

theorem collectSegments_spec (segments : List (Bound T × Bound T)) :
    Separated ((collectSegments segments).map cutsOf) ∧
      ∀ position, Holds (collectSegments segments) position ↔
        Holds segments position := by
  induction segments with
  | nil => exact ⟨separated_nil, fun _ => Iff.rfl⟩
  | cons segment rest ih =>
      unfold collectSegments at ih ⊢
      by_cases hvalid : Bound.validSegment segment.1 segment.2 = true
      · rw [List.filter_cons_of_pos (by exact hvalid), List.foldr_cons]
        obtain ⟨hseparated, hholds⟩ := insertSegment_spec hvalid ih.1
        refine ⟨hseparated, fun position => ?_⟩
        rw [hholds, ih.2, holds_cons]
      · rw [List.filter_cons_of_neg (by exact hvalid)]
        refine ⟨ih.1, fun position => ?_⟩
        rw [ih.2, holds_cons, or_iff_right]
        intro hbetween
        apply hvalid
        rw [Bound.validSegment_iff]
        exact (nonempty_iff (cutsOf segment)).mpr ⟨position, hbetween⟩

private def complementModel (range : Ranges T) : Ranges T :=
  ⟨complementFrom .unbounded range.segments⟩

private def unionModel (left right : Ranges T) : Ranges T :=
  ⟨collectSegments (left.segments ++ right.segments)⟩

private def intersectionModel (left right : Ranges T) : Ranges T :=
  complementModel (unionModel (complementModel left) (complementModel right))

private theorem complementModel_spec {range : Ranges T} (hvalid : range.Valid) :
    (complementModel range).Valid ∧ ∀ position,
      (complementModel range).Mem position ↔ ¬ range.Mem position := by
  obtain ⟨hseparated, hholds⟩ :=
    complementFrom_spec .unbounded hvalid fun _ _ => bot_le
  refine ⟨hseparated, fun position => (hholds position).trans ?_⟩
  exact and_iff_right bot_le

private theorem unionModel_spec (left right : Ranges T) :
    (unionModel left right).Valid ∧ ∀ position,
      (unionModel left right).Mem position ↔
        left.Mem position ∨ right.Mem position := by
  obtain ⟨hseparated, hholds⟩ :=
    collectSegments_spec (left.segments ++ right.segments)
  refine ⟨hseparated, fun position => (hholds position).trans ?_⟩
  simp only [Holds, Mem, List.map_append, List.mem_append, or_and_right,
    exists_or]

private theorem intersectionModel_spec {left right : Ranges T}
    (hleft : left.Valid) (hright : right.Valid) :
    (intersectionModel left right).Valid ∧ ∀ position,
      (intersectionModel left right).Mem position ↔
        left.Mem position ∧ right.Mem position := by
  obtain ⟨-, hmemLeft⟩ := complementModel_spec hleft
  obtain ⟨-, hmemRight⟩ := complementModel_spec hright
  obtain ⟨hunion, hmemUnion⟩ :=
    unionModel_spec (complementModel left) (complementModel right)
  obtain ⟨hvalid, hmem⟩ := complementModel_spec hunion
  refine ⟨hvalid, fun position => ?_⟩
  unfold intersectionModel
  rw [hmem, hmemUnion, hmemLeft, hmemRight, not_or, not_not, not_not]

instance : RangeOps T where
  complement := complementModel
  intersection := intersectionModel
  union := unionModel
  isDisjoint left right := (intersectionModel left right).isEmpty
  collect segments := ⟨collectSegments segments⟩
  valid_complement hvalid := (complementModel_spec hvalid).1
  mem_complement hvalid := (complementModel_spec hvalid).2
  valid_intersection hleft hright := (intersectionModel_spec hleft hright).1
  mem_intersection hleft hright := (intersectionModel_spec hleft hright).2
  valid_union _ _ := (unionModel_spec _ _).1
  mem_union _ _ := (unionModel_spec _ _).2
  isDisjoint_iff hleft hright := by
    obtain ⟨hvalid, hmem⟩ := intersectionModel_spec hleft hright
    rw [isEmpty_iff hvalid]
    simp only [hmem]
  valid_collect segments := (collectSegments_spec segments).1
  mem_collect segments position := by
    refine ((collectSegments_spec segments).2 position).trans ?_
    simp only [Holds, List.mem_map, exists_exists_and_eq_and]

end Ranges

end Uv.Core
