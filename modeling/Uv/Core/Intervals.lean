import Uv.Core.Tiling

/-!
# Single intervals

The edges of a decision node are sets of values that each consist of one
interval.  What the set operations do on such sets follows from the positions
they hold.
-/

namespace Uv.Core

open OrdKey

variable {T : Type} [OrdKey T]

/-- Equality of ends, by the comparison of their values. -/
def Bound.beq : Bound T → Bound T → Bool
  | .included left, .included right => compare left right == .eq
  | .excluded left, .excluded right => compare left right == .eq
  | .unbounded, .unbounded => true
  | _, _ => false

theorem Bound.beq_iff_lowerCut {left right : Bound T} :
    left.beq right = true ↔ left.lowerCut = right.lowerCut := by
  cases left <;> cases right <;> simp [beq, lowerCut, compare_eq_eq,
    Cut.before_eq_before, Cut.after_eq_after, Cut.before_ne_after,
    Cut.before_ne_after.symm, (Cut.bot_lt_before _).ne, (Cut.bot_lt_after _).ne,
    (Cut.bot_lt_before _).ne', (Cut.bot_lt_after _).ne']

theorem Bound.beq_iff_upperCut {left right : Bound T} :
    left.beq right = true ↔ left.upperCut = right.upperCut := by
  cases left <;> cases right <;> simp [beq, upperCut, compare_eq_eq,
    Cut.before_eq_before, Cut.after_eq_after, Cut.before_ne_after,
    Cut.before_ne_after.symm]

namespace Ranges

/-- Equality of sets, interval by interval. -/
def beq (left right : Ranges T) : Bool :=
  left.segments.length == right.segments.length &&
    (left.segments.zip right.segments).all fun (left, right) =>
      left.1.beq right.1 && left.2.beq right.2

/-- The set holds a point. -/
def Has (range : Ranges T) (point : Point (Cut T)) : Prop :=
  ∃ cuts ∈ range.segments.map cutsOf, point.In cuts

/-- The cuts at the ends of the whole set; nothing lies between those of the
empty set. -/
def hull (range : Ranges T) : Cut T × WithTop (Cut T) :=
  match range.boundingRange with
  | some bounds => cutsOf bounds
  | none => (⊥, ((⊥ : Cut T) : WithTop (Cut T)))

/-- The set is the one interval between two cuts. -/
structure IsInterval (range : Ranges T) (cuts : Cut T × WithTop (Cut T)) :
    Prop where
  cutsOf_eq : range.segments.map cutsOf = [cuts]
  nonempty : (cuts.1 : WithTop (Cut T)) < cuts.2

theorem contains_iff_has {range : Ranges T} {value : T} :
    range.contains value = true ↔
      range.Has (Point.ofPosition (Cut.before value)) := by
  rw [contains_iff]
  simp only [Mem, Has, Point.ofPosition_in]

namespace IsInterval

variable {range other : Ranges T} {cuts cuts' : Cut T × WithTop (Cut T)}

theorem valid (hrange : range.IsInterval cuts) : range.Valid := by
  unfold Valid
  rw [hrange.cutsOf_eq]
  exact separated_cons.mpr ⟨hrange.nonempty, by simp, separated_nil⟩

theorem mem_iff (hrange : range.IsInterval cuts) (position : Cut T) :
    range.Mem position ↔ Between cuts position := by
  simp [Mem, hrange.cutsOf_eq]

theorem has_iff (hrange : range.IsInterval cuts) (point : Point (Cut T)) :
    range.Has point ↔ point.In cuts := by
  simp [Has, hrange.cutsOf_eq]

theorem exists_segment (hrange : range.IsInterval cuts) :
    ∃ segment, range.segments = [segment] ∧ cutsOf segment = cuts := by
  have hcuts := hrange.cutsOf_eq
  match hsegments : range.segments with
  | [] => simp [hsegments] at hcuts
  | [segment] => exact ⟨segment, rfl, by simpa [hsegments] using hcuts⟩
  | _ :: _ :: _ => simp [hsegments] at hcuts

theorem exists_boundingRange (hrange : range.IsInterval cuts) :
    ∃ bounds, range.boundingRange = some bounds ∧ cutsOf bounds = cuts := by
  obtain ⟨segment, hsegments, hcuts⟩ := hrange.exists_segment
  exact ⟨segment, by simp [boundingRange, hsegments], hcuts⟩

theorem hull_eq (hrange : range.IsInterval cuts) : range.hull = cuts := by
  obtain ⟨bounds, hbounds, hcuts⟩ := hrange.exists_boundingRange
  rw [hull, hbounds, ← hcuts]

theorem isEmpty_eq (hrange : range.IsInterval cuts) : range.isEmpty = false := by
  obtain ⟨segment, hsegments, -⟩ := hrange.exists_segment
  simp [isEmpty, hsegments]

theorem of_mem (hvalid : range.Valid)
    (hnonempty : (cuts.1 : WithTop (Cut T)) < cuts.2)
    (hmem : ∀ position, range.Mem position ↔ Between cuts position) :
    range.IsInterval cuts := by
  refine ⟨?_, hnonempty⟩
  apply Separated.ext hvalid
    (separated_cons.mpr ⟨hnonempty, by simp, separated_nil⟩)
  intro position
  simpa [Mem] using hmem position

theorem beq_iff (hrange : range.IsInterval cuts)
    (hother : other.IsInterval cuts') :
    range.beq other = true ↔ cuts = cuts' := by
  obtain ⟨segment, hsegments, rfl⟩ := hrange.exists_segment
  obtain ⟨segment', hsegments', rfl⟩ := hother.exists_segment
  simp only [beq, hsegments, hsegments', List.length_singleton, beq_self_eq_true,
    List.zip_cons_cons, List.zip_nil_left, List.all_cons, List.all_nil,
    Bool.and_true, Bool.true_and, Bool.and_eq_true, cutsOf, Prod.mk.injEq]
  exact and_congr Bound.beq_iff_lowerCut Bound.beq_iff_upperCut

end IsInterval

theorem isInterval_fromRangeBounds {start stop : Bound T}
    (hvalid : Bound.validSegment start stop = true) :
    (fromRangeBounds start stop).IsInterval (cutsOf (start, stop)) := by
  unfold fromRangeBounds
  rw [if_pos hvalid]
  exact ⟨rfl, Bound.validSegment_iff.mp hvalid⟩

theorem valid_fromRangeBounds (start stop : Bound T) :
    (fromRangeBounds start stop).Valid := by
  by_cases hvalid : Bound.validSegment start stop = true
  · exact (isInterval_fromRangeBounds hvalid).valid
  · unfold fromRangeBounds
    rw [if_neg hvalid]
    exact separated_nil

theorem valid_of_validSegment {start stop : Bound T}
    (hvalid : Bound.validSegment start stop = true) :
    (⟨[(start, stop)]⟩ : Ranges T).Valid :=
  separated_cons.mpr ⟨Bound.validSegment_iff.mp hvalid, by simp, separated_nil⟩

theorem valid_singleton (value : T) : (singleton value).Valid := by
  refine valid_of_validSegment (Bound.validSegment_iff.mpr ?_)
  exact WithTop.coe_lt_coe.mpr (Cut.before_lt_after.mpr le_rfl)

theorem valid_higherThan (value : T) : (higherThan value).Valid :=
  valid_of_validSegment rfl

theorem valid_strictlyHigherThan (value : T) : (strictlyHigherThan value).Valid :=
  valid_of_validSegment rfl

theorem valid_lowerThan (value : T) : (lowerThan value).Valid :=
  valid_of_validSegment rfl

theorem valid_strictlyLowerThan (value : T) : (strictlyLowerThan value).Valid :=
  valid_of_validSegment rfl

section Operations

variable [RangeOps T] {left right : Ranges T}
  {cuts cuts' : Cut T × WithTop (Cut T)}

/-- Two intervals that overlap meet in an interval. -/
theorem isInterval_intersection (hleft : left.IsInterval cuts)
    (hright : right.IsInterval cuts')
    (hoverlap : ((max cuts.1 cuts'.1 : Cut T) : WithTop (Cut T)) <
      min cuts.2 cuts'.2) :
    (RangeOps.intersection left right).IsInterval
      (max cuts.1 cuts'.1, min cuts.2 cuts'.2) := by
  refine .of_mem (RangeOps.valid_intersection hleft.valid hright.valid)
    hoverlap fun position => ?_
  rw [RangeOps.mem_intersection hleft.valid hright.valid, hleft.mem_iff,
    hright.mem_iff]
  simp only [Between, max_le_iff, lt_min_iff]
  exact and_and_and_comm

theorem isEmpty_intersection_iff (hleft : left.IsInterval cuts)
    (hright : right.IsInterval cuts') :
    (RangeOps.intersection left right).isEmpty = true ↔
      ¬ ((max cuts.1 cuts'.1 : Cut T) : WithTop (Cut T)) <
        min cuts.2 cuts'.2 := by
  constructor
  · intro hempty hoverlap
    rw [(isInterval_intersection hleft hright hoverlap).isEmpty_eq] at hempty
    cases hempty
  · intro hapart
    rw [isEmpty_iff (RangeOps.valid_intersection hleft.valid hright.valid)]
    intro position hmem
    rw [RangeOps.mem_intersection hleft.valid hright.valid, hleft.mem_iff,
      hright.mem_iff] at hmem
    exact hapart ((WithTop.coe_le_coe.mpr
      (max_le hmem.1.1 hmem.2.1)).trans_lt (lt_min hmem.1.2 hmem.2.2))

/-- Two neighbouring intervals make one interval. -/
theorem isInterval_union {stop : WithTop (Cut T)} {start middle : Cut T}
    (hleft : left.IsInterval (start, (middle : WithTop (Cut T))))
    (hright : right.IsInterval (middle, stop)) :
    (RangeOps.union left right).IsInterval (start, stop) := by
  have hstart := WithTop.coe_lt_coe.mp hleft.nonempty
  refine .of_mem (RangeOps.valid_union hleft.valid hright.valid)
    (hleft.nonempty.trans hright.nonempty) fun position => ?_
  rw [RangeOps.mem_union hleft.valid hright.valid, hleft.mem_iff,
    hright.mem_iff]
  simp only [Between, WithTop.coe_lt_coe]
  constructor
  · rintro (⟨hbegin, hend⟩ | ⟨hbegin, hend⟩)
    · exact ⟨hbegin, (WithTop.coe_lt_coe.mpr hend).trans hright.nonempty⟩
    · exact ⟨hstart.le.trans hbegin, hend⟩
  · rintro ⟨hbegin, hend⟩
    rcases lt_or_ge position middle with hbefore | hafter
    · exact .inl ⟨hbegin, hbefore⟩
    · exact .inr ⟨hafter, hend⟩

end Operations

end Ranges

end Uv.Core
