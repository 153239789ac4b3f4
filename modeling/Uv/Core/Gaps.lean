import Uv.Core.Ranges

/-!
# Intervals and the gaps between them

A sorted list of disjoint intervals, from its first start to its last end, is the
intervals and the gaps between consecutive ones.  Intervals may be empty and may
touch.
-/

namespace Uv.Core

variable {C : Type} [LinearOrder C]

/-- A list of disjoint intervals in order. -/
structure SortedCuts (cuts : List (C × WithTop C)) : Prop where
  forward : ∀ cut ∈ cuts, (cut.1 : WithTop C) ≤ cut.2
  disjoint : cuts.Pairwise fun left right => left.2 ≤ (right.1 : WithTop C)

theorem sortedCuts_cons {cut : C × WithTop C} {rest : List (C × WithTop C)} :
    SortedCuts (cut :: rest) ↔ (cut.1 : WithTop C) ≤ cut.2 ∧
      (∀ next ∈ rest, cut.2 ≤ (next.1 : WithTop C)) ∧ SortedCuts rest := by
  constructor
  · rintro ⟨hforward, hdisjoint⟩
    obtain ⟨hcut, hforward⟩ := List.forall_mem_cons.mp hforward
    obtain ⟨hfirst, hdisjoint⟩ := List.pairwise_cons.mp hdisjoint
    exact ⟨hcut, hfirst, hforward, hdisjoint⟩
  · rintro ⟨hcut, hfirst, hforward, hdisjoint⟩
    exact ⟨List.forall_mem_cons.mpr ⟨hcut, hforward⟩,
      List.pairwise_cons.mpr ⟨hfirst, hdisjoint⟩⟩

/-- A gap, from the end of an interval to the start of the next one. -/
def InGap (gap : WithTop C × C) (position : C) : Prop :=
  gap.1 ≤ position ∧ position < gap.2

/-- The gaps after an interval that ends at `stop`. -/
def gapsAfter (stop : WithTop C) : List (C × WithTop C) → List (WithTop C × C)
  | [] => []
  | cut :: rest => (stop, cut.1) :: gapsAfter cut.2 rest

/-- The gaps between consecutive intervals. -/
def gapsBetween : List (C × WithTop C) → List (WithTop C × C)
  | [] => []
  | cut :: rest => gapsAfter cut.2 rest

/-- The end of the last interval. -/
def lastStop (stop : WithTop C) : List (C × WithTop C) → WithTop C
  | [] => stop
  | cut :: rest => lastStop cut.2 rest

theorem le_lastStop {stop : WithTop C} {rest : List (C × WithTop C)}
    (hrest : SortedCuts rest) (hstop : ∀ next ∈ rest, stop ≤ (next.1 : WithTop C)) :
    stop ≤ lastStop stop rest := by
  induction rest generalizing stop with
  | nil => exact le_rfl
  | cons cut rest ih =>
      obtain ⟨hcut, hnext, hrest⟩ := sortedCuts_cons.mp hrest
      exact ((hstop cut (by simp)).trans hcut).trans (ih hrest hnext)

/-- From the first start to the last end, a position lies in an interval or in a
gap. -/
theorem SortedCuts.between_iff {first : C × WithTop C} {rest : List (C × WithTop C)}
    (hsorted : SortedCuts (first :: rest)) (position : C) :
    Between (first.1, lastStop first.2 rest) position ↔
      (∃ cut ∈ first :: rest, Between cut position) ∨
        ∃ gap ∈ gapsAfter first.2 rest, InGap gap position := by
  induction rest generalizing first with
  | nil => simp [lastStop, gapsAfter]
  | cons next rest ih =>
      obtain ⟨hfirst, hnext, hrest⟩ := sortedCuts_cons.mp hsorted
      have hgap := hnext next (by simp)
      obtain ⟨hforward, hafter, htail⟩ := sortedCuts_cons.mp hrest
      have hlast := le_lastStop htail hafter
      -- The hull is the first interval, the gap after it and the hull of the rest.
      have hsplit : Between (first.1, lastStop next.2 rest) position ↔
          Between first position ∨ InGap (first.2, next.1) position ∨
            Between (next.1, lastStop next.2 rest) position := by
        unfold Between InGap
        constructor
        · rintro ⟨hstart, hstop⟩
          rcases lt_or_ge (position : WithTop C) first.2 with hinside | hoff
          · exact .inl ⟨hstart, hinside⟩
          · rcases lt_or_ge position next.1 with hbelow | habove
            · exact .inr (.inl ⟨hoff, hbelow⟩)
            · exact .inr (.inr ⟨habove, hstop⟩)
        · rintro (⟨hstart, hstop⟩ | ⟨hoff, hbelow⟩ | ⟨habove, hstop⟩)
          · exact ⟨hstart, hstop.trans_le (hgap.trans (hforward.trans hlast))⟩
          · exact ⟨WithTop.coe_le_coe.mp (hfirst.trans hoff),
              (WithTop.coe_lt_coe.mpr hbelow).trans_le (hforward.trans hlast)⟩
          · exact ⟨(WithTop.coe_le_coe.mp (hfirst.trans hgap)).trans habove, hstop⟩
      change Between (first.1, lastStop next.2 rest) position ↔ _
      rw [hsplit, ih hrest]
      have hswap : ∀ {a b c d : Prop}, (a ∨ b ∨ c ∨ d) ↔ ((a ∨ c) ∨ (b ∨ d)) := by tauto
      simp only [gapsAfter, List.exists_mem_cons_iff]
      exact hswap

theorem le_of_mem_gapsAfter {stop : WithTop C} {rest : List (C × WithTop C)}
    (hrest : SortedCuts rest) (hstop : ∀ next ∈ rest, stop ≤ (next.1 : WithTop C)) :
    ∀ gap ∈ gapsAfter stop rest, stop ≤ gap.1 := by
  induction rest generalizing stop with
  | nil => simp [gapsAfter]
  | cons cut rest ih =>
      obtain ⟨hcut, hnext, hrest⟩ := sortedCuts_cons.mp hrest
      refine List.forall_mem_cons.mpr ⟨le_rfl, fun gap hgap => ?_⟩
      exact ((hstop cut (by simp)).trans hcut).trans (ih hrest hnext gap hgap)

/-- No position is both in an interval and in a gap. -/
theorem SortedCuts.not_inGap {first : C × WithTop C} {rest : List (C × WithTop C)}
    (hsorted : SortedCuts (first :: rest)) {position : C}
    (hinside : ∃ cut ∈ first :: rest, Between cut position) :
    ∀ gap ∈ gapsAfter first.2 rest, ¬ InGap gap position := by
  induction rest generalizing first with
  | nil => simp [gapsAfter]
  | cons next rest ih =>
      obtain ⟨hfirst, hnext, hrest⟩ := sortedCuts_cons.mp hsorted
      obtain ⟨hforward, hafter, -⟩ := sortedCuts_cons.mp hrest
      obtain ⟨cut, hcut, hbetween⟩ := hinside
      rcases List.mem_cons.mp hcut with rfl | hcut
      · intro gap hgap hin
        have hle := le_of_mem_gapsAfter hrest hnext gap hgap
        exact (hle.trans hin.1).not_gt hbetween.2
      · refine List.forall_mem_cons.mpr ⟨fun hin => ?_, ih hrest ⟨cut, hcut, hbetween⟩⟩
        have hstart : next.1 ≤ cut.1 := by
          rcases List.mem_cons.mp hcut with rfl | hcut
          · exact le_rfl
          · exact WithTop.coe_le_coe.mp (hforward.trans (hafter cut hcut))
        exact (hstart.trans hbetween.1).not_gt hin.2

end Uv.Core
