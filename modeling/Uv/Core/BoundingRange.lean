import Uv.Core.Intervals

/-!
# The ends of a set of intervals

The bounding range of a set starts where its first interval starts and stops
where its last one stops.  The ends of a union of intervals are ends of some of
these intervals.
-/

namespace Uv.Core

variable {T : Type} [OrdKey T]

namespace Ranges

variable {range : Ranges T} {lower upper : Bound T}

/-- The set lies inside its bounding range, and reaches to both ends. -/
structure Bounded (range : Ranges T) (lower upper : Bound T) : Prop where
  inside : ∀ position, range.Mem position → Between (cutsOf (lower, upper)) position
  start : range.Mem lower.lowerCut
  stop : ∃ last : Cut T, (last : WithTop (Cut T)) < upper.upperCut ∧
    ∀ position, last ≤ position → (position : WithTop (Cut T)) < upper.upperCut →
      range.Mem position

theorem bounded_of_boundingRange (hvalid : range.Valid)
    (hbounds : range.boundingRange = some (lower, upper)) : range.Bounded lower upper := by
  unfold boundingRange at hbounds
  split at hbounds
  · rename_i first firstStop lastStart last hhead hlast
    obtain ⟨hfirst, hlastEq⟩ := Prod.mk.inj (Option.some.inj hbounds)
    rw [hfirst] at hhead
    rw [hlastEq] at hlast
    obtain ⟨rest, hfirst⟩ : ∃ rest, range.segments = (lower, firstStop) :: rest := by
      cases hsegments : range.segments with
      | nil => rw [hsegments] at hhead; cases hhead
      | cons segment rest =>
          rw [hsegments] at hhead
          exact ⟨rest, by rw [Option.some.inj hhead]⟩
    obtain ⟨front, hfront⟩ : ∃ front, range.segments = front ++ [(lastStart, upper)] := by
      obtain ⟨front, hfront⟩ := List.getLast?_eq_some_iff.mp hlast
      exact ⟨front, hfront⟩
    have hsorted : ∀ cuts ∈ range.segments.map cutsOf,
        lower.lowerCut ≤ cuts.1 ∧ cuts.2 ≤ upper.upperCut := by
      intro cuts hcuts
      constructor
      · have hseparated := hvalid
        rw [Valid, hfirst, List.map_cons, separated_cons] at hseparated
        rw [hfirst, List.map_cons, List.mem_cons] at hcuts
        rcases hcuts with rfl | hcuts
        · exact le_rfl
        · exact WithTop.coe_le_coe.mp
            (hseparated.1.trans (hseparated.2.1 cuts hcuts)).le
      · have hgaps := hvalid.gaps
        rw [hfront, List.map_append, List.map_singleton, List.pairwise_append] at hgaps
        have hnonempty := hvalid.nonempty (cutsOf (lastStart, upper)) (by simp [hfront])
        rw [hfront, List.map_append, List.map_singleton, List.mem_append,
          List.mem_singleton] at hcuts
        rcases hcuts with hcuts | rfl
        · exact ((hgaps.2.2 cuts hcuts _ (by simp)).trans hnonempty).le
        · exact le_rfl
    refine ⟨fun position hmem => ?_, ⟨cutsOf (lower, firstStop), by simp [hfirst], le_rfl,
      hvalid.nonempty _ (by simp [hfirst])⟩, lastStart.lowerCut,
      hvalid.nonempty (cutsOf (lastStart, upper)) (by simp [hfront]),
      fun position hstart hstop =>
        ⟨cutsOf (lastStart, upper), by simp [hfront], hstart, hstop⟩⟩
    obtain ⟨cuts, hcuts, hin⟩ := hmem
    obtain ⟨hlower, hupper⟩ := hsorted cuts hcuts
    exact ⟨hlower.trans hin.1, hin.2.trans_le hupper⟩
  · cases hbounds

/-- The ends of a union of intervals are ends of some of them. -/
theorem Bounded.exists_ends (hbounded : range.Bounded lower upper)
    {parts : List (Ranges T)} (hparts : ∀ part ∈ parts, part.IsInterval part.hull)
    (hmem : ∀ position, range.Mem position ↔ ∃ part ∈ parts, part.Mem position) :
    (∃ part ∈ parts, part.hull.1 = lower.lowerCut) ∧
      ∃ part ∈ parts, part.hull.2 = upper.upperCut := by
  have hin : ∀ part ∈ parts, ∀ position, Between part.hull position →
      Between (cutsOf (lower, upper)) position := fun part hpart position hbetween =>
    hbounded.inside position ((hmem position).mpr
      ⟨part, hpart, ((hparts part hpart).mem_iff position).mpr hbetween⟩)
  constructor
  · obtain ⟨part, hpart, hstart⟩ := (hmem _).mp hbounded.start
    rw [(hparts part hpart).mem_iff] at hstart
    refine ⟨part, hpart, le_antisymm hstart.1 ?_⟩
    exact (hin part hpart part.hull.1 ⟨le_rfl, (hparts part hpart).nonempty⟩).1
  · by_contra hnone
    simp only [not_exists, not_and] at hnone
    -- No part goes past the end, so the last of them stops before it.
    have hlt : ∀ part ∈ parts, part.hull.2 < upper.upperCut := by
      intro part hpart
      refine lt_of_le_of_ne (not_lt.mp fun hpast => ?_) (hnone part hpart)
      obtain ⟨stop, hstop⟩ := WithTop.ne_top_iff_exists.mp hpast.ne_top
      have hnonempty := (hparts part hpart).nonempty
      have hbetween : Between part.hull (max part.hull.1 stop) := by
        refine ⟨le_max_left _ _, ?_⟩
        rw [WithTop.coe_max, max_lt_iff, hstop]
        exact ⟨hnonempty, hpast⟩
      have hbelow := (hin part hpart _ hbetween).2
      rw [WithTop.coe_max, max_lt_iff, hstop] at hbelow
      exact lt_irrefl _ hbelow.2
    obtain ⟨last, hlast, hreach⟩ := hbounded.stop
    have hbound : ∃ position : Cut T, last ≤ position ∧
        (position : WithTop (Cut T)) < upper.upperCut ∧
          ∀ part ∈ parts, part.hull.2 ≤ position := by
      clear hmem hin hnone hreach hbounded
      induction parts with
      | nil => exact ⟨last, le_rfl, hlast, by simp⟩
      | cons part parts ih =>
          rw [List.forall_mem_cons] at hparts hlt
          obtain ⟨position, hle, hposition, hrest⟩ := ih hparts.2 hlt.2
          obtain ⟨stop, hstop⟩ := WithTop.ne_top_iff_exists.mp hlt.1.ne_top
          refine ⟨max position stop, hle.trans (le_max_left _ _), ?_, ?_⟩
          · rw [WithTop.coe_max, max_lt_iff, hstop]
            exact ⟨hposition, hlt.1⟩
          · rw [List.forall_mem_cons, ← hstop]
            exact ⟨WithTop.coe_le_coe.mpr (le_max_right _ _), fun other hother =>
              (hrest other hother).trans (WithTop.coe_le_coe.mpr (le_max_left _ _))⟩
    obtain ⟨position, hle, hposition, hrest⟩ := hbound
    obtain ⟨part, hpart, hpartMem⟩ := (hmem position).mp (hreach position hle hposition)
    rw [(hparts part hpart).mem_iff] at hpartMem
    exact (hpartMem.2.trans_le (hrest part hpart)).false

end Ranges

end Uv.Core
