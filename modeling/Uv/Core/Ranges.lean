import Uv.Core.Order

/-!
# Sets of values as lists of intervals

A `Ranges T` is a sorted list of intervals with a gap between any two of them.
Nothing is known about the order of `T` besides the comparison, so an interval
is determined by its two ends only: `(1, 2)` is an interval even where no value
lies in it.
-/

namespace Uv.Core

open Uv.Core.Order

/-- A type whose comparison is that of a linearly ordered key. -/
class OrdKey (T : Type) extends Ord T where
  Key : Type
  [linearOrder : LinearOrder Key]
  key : T → Key
  compare_eq : ∀ left right : T,
    compare left right = linearCmp (key left) (key right)

attribute [reducible, instance] OrdKey.linearOrder

/-- An end of an interval. -/
inductive Bound (T : Type) where
  | included (value : T)
  | excluded (value : T)
  | unbounded
  deriving DecidableEq

/-- A set of values. -/
structure Ranges (T : Type) where
  segments : List (Bound T × Bound T)
  deriving DecidableEq

def Bound.isUnbounded {T : Type} : Bound T → Bool
  | .unbounded => true
  | _ => false

section Operations

variable {T : Type} [Ord T]

namespace Bound

/-- The values above a lower end. -/
def isBelow (start : Bound T) (value : T) : Bool :=
  match start with
  | .included start => (compare start value).isLE
  | .excluded start => compare start value == .lt
  | .unbounded => true

/-- The values below an upper end. -/
def isAbove (stop : Bound T) (value : T) : Bool :=
  match stop with
  | .included stop => (compare value stop).isLE
  | .excluded stop => compare value stop == .lt
  | .unbounded => true

/-- An interval from `start` to `stop` is not empty. -/
def validSegment (start stop : Bound T) : Bool :=
  match start, stop with
  | .included start, .included stop => (compare start stop).isLE
  | .included start, .excluded stop => compare start stop == .lt
  | .excluded start, .included stop => compare start stop == .lt
  | .excluded start, .excluded stop => compare start stop == .lt
  | .unbounded, _ => true
  | _, .unbounded => true

end Bound

namespace Ranges

def empty : Ranges T := ⟨[]⟩

def full : Ranges T := ⟨[(.unbounded, .unbounded)]⟩

/-- All values at or above `value`. -/
def higherThan (value : T) : Ranges T := ⟨[(.included value, .unbounded)]⟩

def strictlyHigherThan (value : T) : Ranges T :=
  ⟨[(.excluded value, .unbounded)]⟩

/-- All values at or below `value`. -/
def lowerThan (value : T) : Ranges T := ⟨[(.unbounded, .included value)]⟩

def strictlyLowerThan (value : T) : Ranges T :=
  ⟨[(.unbounded, .excluded value)]⟩

/-- All values at or above `low` and strictly below `high`. -/
def between (low high : T) : Ranges T := ⟨[(.included low, .excluded high)]⟩

def singleton (value : T) : Ranges T := ⟨[(.included value, .included value)]⟩

/-- One interval, or the empty set when the ends are the wrong way round. -/
def fromRangeBounds (start stop : Bound T) : Ranges T :=
  if Bound.validSegment start stop then ⟨[(start, stop)]⟩ else empty

def isEmpty (range : Ranges T) : Bool := range.segments.isEmpty

def contains (range : Ranges T) (value : T) : Bool :=
  range.segments.any fun (start, stop) =>
    start.isBelow value && stop.isAbove value

/-- The ends of the smallest interval around the set. -/
def boundingRange (range : Ranges T) : Option (Bound T × Bound T) :=
  match range.segments.head?, range.segments.getLast? with
  | some (start, _), some (_, stop) => some (start, stop)
  | _, _ => none

end Ranges

end Operations

/-! ## Intervals of positions -/

section Separated

variable {C : Type} [LinearOrder C]

/-- A position lies between two cuts. -/
def Between (cuts : C × WithTop C) (position : C) : Prop :=
  cuts.1 ≤ position ∧ (position : WithTop C) < cuts.2

/-- A list of intervals that are not empty, in order and with gaps. -/
structure Separated (cuts : List (C × WithTop C)) : Prop where
  nonempty : ∀ cut ∈ cuts, (cut.1 : WithTop C) < cut.2
  gaps : cuts.Pairwise fun left right => left.2 < (right.1 : WithTop C)

theorem separated_nil : Separated ([] : List (C × WithTop C)) :=
  ⟨by simp, by simp⟩

theorem separated_cons {cut : C × WithTop C}
    {rest : List (C × WithTop C)} :
    Separated (cut :: rest) ↔ (cut.1 : WithTop C) < cut.2 ∧
      (∀ next ∈ rest, cut.2 < (next.1 : WithTop C)) ∧
      Separated rest := by
  constructor
  · rintro ⟨hnonempty, hgaps⟩
    rw [List.pairwise_cons] at hgaps
    exact ⟨hnonempty cut (by simp), hgaps.1,
      fun next hnext => hnonempty next (by simp [hnext]), hgaps.2⟩
  · rintro ⟨hcut, hrest, hseparated⟩
    refine ⟨?_, List.pairwise_cons.mpr ⟨hrest, hseparated.gaps⟩⟩
    intro next hnext
    rcases List.mem_cons.mp hnext with rfl | hnext
    · exact hcut
    · exact hseparated.nonempty next hnext

/-- Separated intervals do not touch. -/
theorem Separated.not_adjacent {cuts : List (C × WithTop C)}
    (hseparated : Separated cuts) {left right : C × WithTop C}
    (hleft : left ∈ cuts) (hright : right ∈ cuts) :
    left.2 ≠ (right.1 : WithTop C) := by
  induction cuts with
  | nil => cases hleft
  | cons first rest ih =>
      obtain ⟨hfirst, hgap, hrest⟩ := separated_cons.mp hseparated
      intro hmeet
      rcases List.mem_cons.mp hleft with rfl | hleftRest
      · rcases List.mem_cons.mp hright with rfl | hrightRest
        · exact hfirst.ne' hmeet
        · exact (hgap right hrightRest).ne hmeet
      · rcases List.mem_cons.mp hright with rfl | hrightRest
        · refine (hrest.nonempty left hleftRest).not_gt ?_
          rw [hmeet]
          exact hfirst.trans (hgap left hleftRest)
        · exact ih hrest hleftRest hrightRest hmeet

theorem Separated.pairwise_disjoint {cuts : List (C × WithTop C)}
    (hseparated : Separated cuts) : cuts.Pairwise fun left right =>
      ∀ position, Between left position → ¬ Between right position :=
  hseparated.gaps.imp fun hgap _ hleft hright =>
    (hleft.2.trans hgap).not_ge (WithTop.coe_le_coe.mpr hright.1)

/-- Separated intervals are determined by the positions they hold. -/
theorem Separated.ext {left right : List (C × WithTop C)}
    (hleft : Separated left) (hright : Separated right)
    (hsame : ∀ position, (∃ cut ∈ left, Between cut position) ↔
      ∃ cut ∈ right, Between cut position) :
    left = right := by
  induction left generalizing right with
  | nil =>
      cases right with
      | nil => rfl
      | cons cut rest =>
          have hcut := (separated_cons.mp hright).1
          simpa using (hsame cut.1).mpr ⟨cut, by simp, le_rfl, hcut⟩
  | cons cut rest ih =>
      cases right with
      | nil =>
          have hcut := (separated_cons.mp hleft).1
          simpa using (hsame cut.1).mp ⟨cut, by simp, le_rfl, hcut⟩
      | cons cut' rest' =>
          have hfirst : ∀ {head next : C × WithTop C}
              {tail : List (C × WithTop C)},
              Separated (head :: tail) → next ∈ head :: tail →
                head.1 ≤ next.1 := by
            intro head next tail hseparated hnext
            obtain ⟨hhead, hgaps, -⟩ := separated_cons.mp hseparated
            rcases List.mem_cons.mp hnext with rfl | hnext
            · exact le_rfl
            · exact WithTop.coe_le_coe.mp (hhead.trans (hgaps next hnext)).le
          obtain ⟨hcut, hgaps, hrest⟩ := separated_cons.mp hleft
          obtain ⟨hcut', hgaps', hrest'⟩ := separated_cons.mp hright
          have hlower : cut.1 = cut'.1 := by
            apply le_antisymm
            · obtain ⟨next, hnext, hbetween⟩ :=
                (hsame cut'.1).mpr ⟨cut', by simp, le_rfl, hcut'⟩
              exact (hfirst hleft hnext).trans hbetween.1
            · obtain ⟨next, hnext, hbetween⟩ :=
                (hsame cut.1).mp ⟨cut, by simp, le_rfl, hcut⟩
              exact (hfirst hright hnext).trans hbetween.1
          -- A position past the end of the first interval lies in no other.
          have hpast : ∀ {head : C × WithTop C}
              {tail : List (C × WithTop C)} {position : C},
              Separated (head :: tail) → head.2 = (position : WithTop C) →
                ¬ ∃ next ∈ head :: tail, Between next position := by
            rintro head tail position hseparated hend ⟨next, hnext, hbetween⟩
            rcases List.mem_cons.mp hnext with rfl | hnext
            · exact absurd hbetween.2 (by rw [hend]; exact lt_irrefl _)
            · have hgap := (separated_cons.mp hseparated).2.1 next hnext
              rw [hend] at hgap
              exact absurd hbetween.1 (not_le.mpr (WithTop.coe_lt_coe.mp hgap))
          have hupper : cut.2 = cut'.2 := by
            rcases lt_trichotomy cut.2 cut'.2 with hlt | heq | hgt
            · obtain ⟨position, hposition⟩ := WithTop.ne_top_iff_exists.mp hlt.ne_top
              refine absurd ((hsame position).mpr ⟨cut', by simp, ?_, ?_⟩)
                (hpast hleft hposition.symm)
              · rw [← hlower]
                exact WithTop.coe_le_coe.mp (hposition ▸ hcut.le)
              · exact hposition ▸ hlt
            · exact heq
            · obtain ⟨position, hposition⟩ := WithTop.ne_top_iff_exists.mp hgt.ne_top
              refine absurd ((hsame position).mp ⟨cut, by simp, ?_, ?_⟩)
                (hpast hright hposition.symm)
              · rw [hlower]
                exact WithTop.coe_le_coe.mp (hposition ▸ hcut'.le)
              · exact hposition ▸ hgt
          have heq : cut = cut' := Prod.ext hlower hupper
          subst heq
          rw [ih hrest hrest' fun position => ?_]
          -- Positions of the tail are those of the whole past the first end.
          have htail : ∀ {tail : List (C × WithTop C)},
              (∀ next ∈ tail, cut.2 < (next.1 : WithTop C)) →
                ((∃ next ∈ tail, Between next position) ↔
                  (∃ next ∈ cut :: tail, Between next position) ∧
                    cut.2 ≤ (position : WithTop C)) := by
            intro tail hgap
            constructor
            · rintro ⟨next, hnext, hbetween⟩
              exact ⟨⟨next, by simp [hnext], hbetween⟩,
                ((hgap next hnext).trans_le
                  (WithTop.coe_le_coe.mpr hbetween.1)).le⟩
            · rintro ⟨⟨next, hnext, hbetween⟩, hpast⟩
              rcases List.mem_cons.mp hnext with rfl | hnext
              · exact absurd hbetween.2 (not_lt.mpr hpast)
              · exact ⟨next, hnext, hbetween⟩
          rw [htail hgaps, htail hgaps', hsame position]

end Separated

/-! ## Positions -/

section Positions

variable {T : Type} [OrdKey T]

open OrdKey

/-- A place where an interval may begin: before everything, right before a
value (`false`) or right after it (`true`). -/
abbrev Cut (T : Type) [OrdKey T] := WithBot (Key T ×ₗ Bool)

/-- The cut right before a value. -/
def Cut.before (value : T) : Cut T :=
  ((toLex (key value, false) : Key T ×ₗ Bool) : Cut T)

/-- The cut right after a value. -/
def Cut.after (value : T) : Cut T :=
  ((toLex (key value, true) : Key T ×ₗ Bool) : Cut T)

namespace Cut

theorem before_lt_before {left right : T} :
    before left < before right ↔ key left < key right := by
  simp [before, Prod.Lex.toLex_lt_toLex]

theorem after_lt_after {left right : T} :
    after left < after right ↔ key left < key right := by
  simp [after, Prod.Lex.toLex_lt_toLex]

theorem before_lt_after {left right : T} :
    before left < after right ↔ key left ≤ key right := by
  simp [before, after, Prod.Lex.toLex_lt_toLex, le_iff_lt_or_eq]

theorem after_lt_before {left right : T} :
    after left < before right ↔ key left < key right := by
  simp [before, after, Prod.Lex.toLex_lt_toLex]

theorem before_eq_before {left right : T} :
    before left = before right ↔ key left = key right := by
  simp [before]

theorem after_eq_after {left right : T} :
    after left = after right ↔ key left = key right := by
  simp [after]

theorem before_ne_after {left right : T} : before left ≠ after right := by
  simp [before, after]

theorem bot_lt_before (value : T) : (⊥ : Cut T) < before value :=
  WithBot.bot_lt_coe _

theorem bot_lt_after (value : T) : (⊥ : Cut T) < after value :=
  WithBot.bot_lt_coe _

end Cut

namespace Bound

/-- Where an interval with this lower end begins. -/
def lowerCut : Bound T → Cut T
  | .included value => Cut.before value
  | .excluded value => Cut.after value
  | .unbounded => ⊥

/-- Where an interval with this upper end stops. -/
def upperCut : Bound T → WithTop (Cut T)
  | .included value => (Cut.after value : Cut T)
  | .excluded value => (Cut.before value : Cut T)
  | .unbounded => ⊤

theorem compare_isLE {left right : T} :
    (compare left right).isLE = true ↔ key left ≤ key right := by
  rw [compare_eq, ← not_lt, ← linearCmp_eq_gt]
  cases linearCmp (key left) (key right) <;> simp

theorem compare_eq_lt {left right : T} :
    compare left right = .lt ↔ key left < key right := by
  rw [compare_eq, linearCmp_eq_lt]

theorem compare_eq_eq {left right : T} :
    compare left right = .eq ↔ key left = key right := by
  rw [compare_eq, linearCmp_eq_eq]

theorem validSegment_iff {start stop : Bound T} :
    validSegment start stop = true ↔
      (start.lowerCut : WithTop (Cut T)) < stop.upperCut := by
  cases start with
  | included value =>
      cases stop <;> simp [validSegment, lowerCut, upperCut, compare_isLE,
        compare_eq_lt, Cut.before_lt_before, Cut.before_lt_after]
  | excluded value =>
      cases stop <;> simp [validSegment, lowerCut, upperCut, compare_eq_lt,
        Cut.after_lt_before, Cut.after_lt_after]
  | unbounded =>
      cases stop with
      | included value =>
          exact iff_of_true rfl (WithTop.coe_lt_coe.mpr (Cut.bot_lt_after value))
      | excluded value =>
          exact iff_of_true rfl
            (WithTop.coe_lt_coe.mpr (Cut.bot_lt_before value))
      | unbounded => simp [validSegment, lowerCut, upperCut]

theorem isBelow_iff {start : Bound T} {value : T} :
    start.isBelow value = true ↔ start.lowerCut ≤ Cut.before value := by
  cases start <;> simp [isBelow, lowerCut, compare_isLE, compare_eq_lt,
    ← not_lt, Cut.before_lt_before, Cut.before_lt_after]

theorem isAbove_iff {stop : Bound T} {value : T} :
    stop.isAbove value = true ↔
      (Cut.before value : WithTop (Cut T)) < stop.upperCut := by
  cases stop <;> simp [isAbove, upperCut, compare_isLE, compare_eq_lt,
    Cut.before_lt_before, Cut.before_lt_after]

end Bound

/-- The cuts at the two ends of an interval. -/
def cutsOf (segment : Bound T × Bound T) : Cut T × WithTop (Cut T) :=
  (segment.1.lowerCut, segment.2.upperCut)

namespace Ranges

/-- A position lies in one of the intervals. -/
def Mem (range : Ranges T) (position : Cut T) : Prop :=
  ∃ cuts ∈ range.segments.map cutsOf, Between cuts position

def Valid (range : Ranges T) : Prop := Separated (range.segments.map cutsOf)

theorem contains_iff {range : Ranges T} {value : T} :
    range.contains value = true ↔ range.Mem (Cut.before value) := by
  simp only [contains, Mem, Between, cutsOf, List.any_eq_true,
    Bool.and_eq_true, Bound.isBelow_iff, Bound.isAbove_iff, List.mem_map,
    exists_exists_and_eq_and]

theorem contains_higherThan {start value : T} :
    (higherThan start).contains value = true ↔ key start ≤ key value := by
  simp [higherThan, contains, Bound.isBelow, Bound.isAbove, Bound.compare_isLE]

theorem contains_strictlyHigherThan {start value : T} :
    (strictlyHigherThan start).contains value = true ↔
      key start < key value := by
  simp [strictlyHigherThan, contains, Bound.isBelow, Bound.isAbove,
    Bound.compare_eq_lt]

theorem contains_strictlyLowerThan {stop value : T} :
    (strictlyLowerThan stop).contains value = true ↔ key value < key stop := by
  simp [strictlyLowerThan, contains, Bound.isBelow, Bound.isAbove,
    Bound.compare_eq_lt]

theorem contains_lowerThan {stop value : T} :
    (lowerThan stop).contains value = true ↔ key value ≤ key stop := by
  simp [lowerThan, contains, Bound.isBelow, Bound.isAbove, Bound.compare_isLE]

theorem contains_between {start stop value : T} :
    (between start stop).contains value = true ↔
      key start ≤ key value ∧ key value < key stop := by
  simp [between, contains, Bound.isBelow, Bound.isAbove, Bound.compare_isLE,
    Bound.compare_eq_lt]

theorem contains_singleton {element value : T} :
    (singleton element).contains value = true ↔ key value = key element := by
  rw [le_antisymm_iff (a := key value), and_comm]
  simp [singleton, contains, Bound.isBelow, Bound.isAbove, Bound.compare_isLE]

/-- An interval whose ends are the wrong way round holds nothing. -/
theorem contains_fromRangeBounds {start stop value : T} :
    (fromRangeBounds (.included start) (.excluded stop)).contains value = true ↔
      key start ≤ key value ∧ key value < key stop := by
  unfold fromRangeBounds
  split
  · exact contains_between
  · rename_i hvalid
    simp only [Bound.validSegment, beq_iff_eq, Bound.compare_eq_lt, not_lt]
      at hvalid
    simp only [contains, empty, List.any_nil, Bool.false_eq_true, false_iff,
      not_and, not_lt]
    exact hvalid.trans

theorem isEmpty_iff {range : Ranges T} (hvalid : range.Valid) :
    range.isEmpty = true ↔ ∀ position, ¬ range.Mem position := by
  unfold isEmpty Mem
  rw [List.isEmpty_iff]
  constructor
  · intro hempty
    simp [hempty]
  · intro hnone
    rw [← List.map_eq_nil_iff (f := cutsOf), List.eq_nil_iff_forall_not_mem]
    intro cuts hcuts
    exact hnone cuts.1 ⟨cuts, hcuts, le_rfl, hvalid.nonempty cuts hcuts⟩

end Ranges

/-- The set operations of the interval library.  Their results are determined
by the positions they hold, so nothing else is assumed about them. -/
class RangeOps (T : Type) [OrdKey T] where
  complement : Ranges T → Ranges T
  intersection : Ranges T → Ranges T → Ranges T
  union : Ranges T → Ranges T → Ranges T
  isDisjoint : Ranges T → Ranges T → Bool
  /-- The union of arbitrary, unsorted and possibly overlapping intervals. -/
  collect : List (Bound T × Bound T) → Ranges T
  valid_complement : ∀ {range : Ranges T}, range.Valid →
    (complement range).Valid
  mem_complement : ∀ {range : Ranges T}, range.Valid → ∀ position,
    (complement range).Mem position ↔ ¬ range.Mem position
  valid_intersection : ∀ {left right : Ranges T}, left.Valid → right.Valid →
    (intersection left right).Valid
  mem_intersection : ∀ {left right : Ranges T}, left.Valid → right.Valid →
    ∀ position, (intersection left right).Mem position ↔
      left.Mem position ∧ right.Mem position
  valid_union : ∀ {left right : Ranges T}, left.Valid → right.Valid →
    (union left right).Valid
  mem_union : ∀ {left right : Ranges T}, left.Valid → right.Valid →
    ∀ position, (union left right).Mem position ↔
      left.Mem position ∨ right.Mem position
  isDisjoint_iff : ∀ {left right : Ranges T}, left.Valid → right.Valid →
    (isDisjoint left right = true ↔
      ∀ position, ¬ (left.Mem position ∧ right.Mem position))
  valid_collect : ∀ segments, (collect segments).Valid
  mem_collect : ∀ segments position, (collect segments).Mem position ↔
    ∃ segment ∈ segments, Between (cutsOf segment) position

end Positions

end Uv.Core
