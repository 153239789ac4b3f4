import Uv.Core.RunningBest
import Uv.DistributionTypes.FirstFile

/-!
# The best wheel

The wheels are compared by a linear order, but for two ties: of two wheels without an upload
time, and of two wheels that were yanked with a reason, each is more compatible than the
other.  The best wheel is a greatest one of that order, and it is beaten, if only by itself,
where it is such a tie.
-/

namespace Uv.DistributionTypes

open Uv.Core

/-! ## Ranks -/

/-- A payload as it is compared within its kind. -/
abbrev IncompatibleRank := ℕ ×ₗ WithTop ℤ

def IncompatibleWheel.rank : IncompatibleWheel → IncompatibleRank
  | .excludeNewer none => toLex (5, ⊤)
  | .excludeNewer (some timestamp) => toLex (5, timestamp)
  | .tag incompatibility => toLex (4, (incompatibility.rank : ℤ))
  | .requiresPython => toLex (3, 0)
  | .yanked yank => toLex (2, if yank.isReason then 0 else 1)
  | .noBinary => toLex (1, 0)
  | .missingPlatform => toLex (0, 0)

/-- Whether the reason is taken as more compatible than itself. -/
def IncompatibleWheel.beatsItself : IncompatibleWheel → Bool
  | .excludeNewer none => true
  | .yanked yank => yank.isReason
  | _ => false

theorem IncompatibleWheel.isMoreCompatible_iff (reason other : IncompatibleWheel) :
    reason.isMoreCompatible other = true ↔
      other.rank < reason.rank ∨ reason.rank = other.rank ∧ reason.beatsItself = true := by
  cases reason with
  | excludeNewer timestamp =>
      cases timestamp <;> cases other with
      | excludeNewer timestamp' =>
          cases timestamp' <;>
            simp [isMoreCompatible, rank, beatsItself, Prod.Lex.toLex_lt_toLex]
      | _ => simp [isMoreCompatible, rank, beatsItself, Prod.Lex.toLex_lt_toLex]
  | yanked yanked =>
      cases other with
      | yanked yanked' =>
          cases yanked <;> cases yanked' <;>
            simp [isMoreCompatible, rank, beatsItself, Yanked.isReason, Prod.Lex.toLex_lt_toLex]
      | excludeNewer timestamp =>
          cases timestamp <;>
            simp [isMoreCompatible, rank, beatsItself, Prod.Lex.toLex_lt_toLex]
      | _ => simp [isMoreCompatible, rank, beatsItself, Prod.Lex.toLex_lt_toLex]
  | _ =>
      cases other with
      | excludeNewer timestamp =>
          cases timestamp <;>
            simp [isMoreCompatible, rank, beatsItself, Prod.Lex.toLex_lt_toLex]
      | _ => simp [isMoreCompatible, rank, beatsItself, Prod.Lex.toLex_lt_toLex]

namespace WheelCompatibility

abbrev Rank := IncompatibleRank ⊕ₗ (ℕ ×ₗ (WithBot ℕ ×ₗ WithBot BuildTag))

def rank : WheelCompatibility → Rank
  | .incompatible reason => Sum.inlₗ reason.rank
  | .compatible hash tagPriority buildTag =>
      Sum.inrₗ (toLex (hash.rank, toLex (tagPriority, buildTag)))

/-- Whether the compatibility is taken as more compatible than itself. -/
def beatsItself : WheelCompatibility → Bool
  | .incompatible reason => reason.beatsItself
  | .compatible _ _ _ => false

theorem isMoreCompatible_iff (compatibility other : WheelCompatibility) :
    compatibility.isMoreCompatible other = true ↔ other.rank < compatibility.rank ∨
      compatibility.rank = other.rank ∧ compatibility.beatsItself = true := by
  cases compatibility with
  | incompatible reason =>
      cases other with
      | incompatible reason' =>
          simp [isMoreCompatible, rank, beatsItself, reason.isMoreCompatible_iff]
      | compatible => simp [isMoreCompatible, rank]
  | compatible =>
      cases other with
      | incompatible => simp [isMoreCompatible, rank]
      | compatible => simp [isMoreCompatible, rank, beatsItself]

theorem ranks : Ranks isMoreCompatible rank where
  le_of_better := by
    intro compatibility other hmore
    rcases (isMoreCompatible_iff _ _).mp hmore with hlt | ⟨heq, -⟩
    · exact hlt.le
    · exact heq.ge
  better_of_lt := fun hlt => (isMoreCompatible_iff _ _).mpr (Or.inl hlt)

/-- Whether a yank with a reason is less compatible. -/
def outranksReason : WheelCompatibility → Bool
  | .compatible _ _ _ => true
  | .incompatible (.excludeNewer _) => true
  | .incompatible (.tag _) => true
  | .incompatible .requiresPython => true
  | .incompatible (.yanked yank) => !yank.isReason
  | .incompatible .noBinary => false
  | .incompatible .missingPlatform => false

theorem rank_lt_iff_isCompatible {other : WheelCompatibility} :
    (incompatible (.excludeNewer none)).rank < other.rank ↔ other.isCompatible = true := by
  cases other with
  | compatible => simp [rank, isCompatible]
  | incompatible reason =>
      cases reason with
      | excludeNewer timestamp =>
          cases timestamp <;>
            simp [rank, IncompatibleWheel.rank, isCompatible, Prod.Lex.toLex_lt_toLex]
      | _ => simp [rank, IncompatibleWheel.rank, isCompatible, Prod.Lex.toLex_lt_toLex]

theorem rank_lt_iff_outranksReason {text : String} {other : WheelCompatibility} :
    (incompatible (.yanked (.reason text))).rank < other.rank ↔ other.outranksReason = true := by
  cases other with
  | compatible => simp [rank, outranksReason]
  | incompatible reason =>
      cases reason with
      | excludeNewer timestamp =>
          cases timestamp <;>
            simp [rank, IncompatibleWheel.rank, outranksReason, Prod.Lex.toLex_lt_toLex]
      | yanked yank =>
          cases yank <;>
            simp [rank, IncompatibleWheel.rank, outranksReason, Yanked.isReason,
              Prod.Lex.toLex_lt_toLex]
      | _ => simp [rank, IncompatibleWheel.rank, outranksReason, Prod.Lex.toLex_lt_toLex]

/-- No wheel is best only together with itself: next to a wheel without an upload time there
is a compatible one, and next to one that was yanked with a reason a more compatible one. -/
structure Untied (wheels : List WheelCompatibility) : Prop where
  uploaded : incompatible (.excludeNewer none) ∈ wheels → ∃ other ∈ wheels,
    other.isCompatible = true
  reasons : ∀ text, incompatible (.yanked (.reason text)) ∈ wheels → ∃ other ∈ wheels,
    other.outranksReason = true

theorem untied_iff {wheels : List WheelCompatibility} : Untied wheels ↔
    ∀ wheel ∈ wheels, wheel.beatsItself = true → ∃ other ∈ wheels, wheel.rank < other.rank := by
  constructor
  · intro huntied wheel hwheel htie
    cases wheel with
    | compatible => cases htie
    | incompatible reason =>
        cases reason with
        | excludeNewer timestamp =>
            cases timestamp with
            | none =>
                obtain ⟨other, hother, hcompatible⟩ := huntied.uploaded hwheel
                exact ⟨other, hother, rank_lt_iff_isCompatible.mpr hcompatible⟩
            | some timestamp => cases htie
        | yanked yank =>
            cases yank with
            | bool yanked => cases htie
            | reason text =>
                obtain ⟨other, hother, hmore⟩ := huntied.reasons text hwheel
                exact ⟨other, hother, rank_lt_iff_outranksReason.mpr hmore⟩
        | _ => cases htie
  · intro hall
    constructor
    case uploaded =>
      intro hwheel
      obtain ⟨other, hother, hlt⟩ := hall _ hwheel rfl
      exact ⟨other, hother, rank_lt_iff_isCompatible.mp hlt⟩
    case reasons =>
      intro text hwheel
      obtain ⟨other, hother, hlt⟩ := hall _ hwheel rfl
      exact ⟨other, hother, rank_lt_iff_outranksReason.mp hlt⟩

end WheelCompatibility

/-! ## The best wheel of many files -/

namespace PrioritizedDist

open WheelCompatibility

variable {F HashDigest Marker : Type}

/-- No wheel is more compatible than the best one. -/
def NeverBeaten (self : PrioritizedDist F HashDigest Marker) : Prop :=
  self.wheels = [] ∨ ∃ best, self.bestWheel = some best ∧ best ∈ self.wheels ∧
    ∀ wheel ∈ self.wheels, wheel.2.isMoreCompatible best.2 = false

/-- The best wheel is the one that is kept of all wheels in their order. -/
def KeepsBest (self : PrioritizedDist F HashDigest Marker) : Prop :=
  self.bestWheel = runningBest (fun wheel other => wheel.2.isMoreCompatible other.2) self.wheels

/-- The compatibilities of the wheels among the files. -/
def wheelCompatibilities (files : List (DistFile F HashDigest)) : List WheelCompatibility :=
  files.filterMap fun
    | .built _ _ compatibility => some compatibility
    | .source _ _ _ => none

theorem neverBeaten_iff {self : PrioritizedDist F HashDigest Marker} (hbest : self.KeepsBest) :
    self.NeverBeaten ↔ Untied (self.wheels.map Prod.snd) := by
  rw [untied_iff]
  by_cases hne : self.wheels = []
  · simp [NeverBeaten, hne]
  have hranks : Ranks (fun wheel other : RegistryBuiltWheel F × WheelCompatibility =>
      wheel.2.isMoreCompatible other.2) fun wheel => wheel.2.rank :=
    ⟨fun hmore => ranks.le_of_better hmore, fun hlt => ranks.better_of_lt hlt⟩
  obtain ⟨best, hrunning, hmem, hgreatest⟩ := exists_runningBest hranks hne
  have hwheel : self.bestWheel = some best := hbest.trans hrunning
  constructor
  · rintro (hnil | ⟨other, hother, -, hbeaten⟩) wheel hin htie
    · exact absurd hnil hne
    · cases hwheel.symm.trans hother
      obtain ⟨dist, hdist, rfl⟩ := List.mem_map.mp hin
      refine ⟨best.2, List.mem_map_of_mem hmem, lt_of_le_of_ne (hgreatest dist hdist) ?_⟩
      intro heq
      have hmore := (isMoreCompatible_iff dist.2 best.2).mpr (Or.inr ⟨heq, htie⟩)
      rw [hbeaten dist hdist] at hmore
      cases hmore
  · intro hall
    refine Or.inr ⟨best, hwheel, hmem, ?_⟩
    intro wheel hin
    rw [Bool.eq_false_iff, ne_eq, isMoreCompatible_iff, not_or, not_and]
    refine ⟨not_lt.mpr (hgreatest wheel hin), fun heq htie => ?_⟩
    obtain ⟨other, hother, hlt⟩ := hall wheel.2 (List.mem_map_of_mem hin) htie
    obtain ⟨dist, hdist, rfl⟩ := List.mem_map.mp hother
    rw [heq] at hlt
    exact absurd hlt (not_lt.mpr (hgreatest dist hdist))

variable [MarkerAlgebra Marker] [DecidableEq Marker]

theorem keepsBest_insert {self : PrioritizedDist F HashDigest Marker}
    {file : DistFile F HashDigest} (hbest : self.KeepsBest) : (self.insert file).KeepsBest := by
  cases file with
  | source dist hashes compatibility => exact hbest
  | built dist hashes compatibility =>
      have hwheels : (self.insertBuilt dist hashes compatibility).wheels =
          self.wheels ++ [(dist, compatibility)] := rfl
      rw [KeepsBest] at hbest
      rw [insert, KeepsBest, hwheels, runningBest_append_singleton, ← hbest]
      have hnew (hindex : (self.insertBuilt dist hashes compatibility).bestWheelIndex =
          some self.wheels.length) : (self.insertBuilt dist hashes compatibility).bestWheel =
            some (dist, compatibility) := by
        rw [bestWheel, hindex, Option.bind_some, hwheels]
        simp
      cases hwheel : self.bestWheel with
      | none =>
          rw [hnew (by simp [insertBuilt, hwheel])]
          rfl
      | some best =>
          cases hmore : compatibility.isMoreCompatible best.2 with
          | true =>
              rw [hnew (by simp [insertBuilt, hwheel, hmore])]
              simp [keepBetter, hmore]
          | false =>
              obtain ⟨i, hi, hget⟩ := Option.bind_eq_some_iff.mp hwheel
              have hlt : i < self.wheels.length := (List.getElem?_eq_some_iff.mp hget).1
              have hsame :
                  (self.insertBuilt dist hashes compatibility).bestWheelIndex = some i := by
                rw [← hi]
                simp [insertBuilt, hwheel, hmore]
              rw [bestWheel, hsame, Option.bind_some, hwheels, List.getElem?_append_left hlt, hget]
              simp [keepBetter, hmore]

theorem keepsBest_insertAll {self : PrioritizedDist F HashDigest Marker}
    {files : List (DistFile F HashDigest)} (hbest : self.KeepsBest) :
    (self.insertAll files).KeepsBest := by
  induction files generalizing self with
  | nil => exact hbest
  | cons file files ih => exact ih (keepsBest_insert hbest)

theorem insertAll_wheels {self : PrioritizedDist F HashDigest Marker}
    {files : List (DistFile F HashDigest)} :
    (self.insertAll files).wheels.map Prod.snd =
      self.wheels.map Prod.snd ++ wheelCompatibilities files := by
  induction files generalizing self with
  | nil => simp [insertAll, wheelCompatibilities]
  | cons file files ih =>
      have hcons : self.insertAll (file :: files) = (self.insert file).insertAll files := rfl
      rw [hcons, ih]
      cases file <;> simp [insert, insertBuilt, insertSource, wheelCompatibilities]

omit [MarkerAlgebra Marker] [DecidableEq Marker] in
theorem neverBeaten_congr {self other : PrioritizedDist F HashDigest Marker}
    (hchoice : self.choice = other.choice) : self.NeverBeaten ↔ other.NeverBeaten := by
  simp only [choice, Prod.mk.injEq] at hchoice
  simp only [NeverBeaten, bestWheel, hchoice]

theorem neverBeaten_inserted_iff (files : List (DistFile F HashDigest)) :
    (default.insertAll files : PrioritizedDist F HashDigest Marker).NeverBeaten ↔
      Untied (wheelCompatibilities files) := by
  have hdefault : (default : PrioritizedDist F HashDigest Marker).KeepsBest := rfl
  rw [neverBeaten_iff (keepsBest_insertAll hdefault), insertAll_wheels]
  rfl

/-- Whatever files are inserted, and however the distribution is started, no wheel is more
compatible than the best one iff no wheel is best only together with itself. -/
theorem neverBeaten_insertAll_iff (first : DistFile F HashDigest)
    (files : List (DistFile F HashDigest)) :
    ((default.insertAll files : PrioritizedDist F HashDigest Marker).NeverBeaten ↔
        Untied (wheelCompatibilities files)) ∧
      (((ofFile first).insertAll files : PrioritizedDist F HashDigest Marker).NeverBeaten ↔
        Untied (wheelCompatibilities (first :: files))) := by
  refine ⟨neverBeaten_inserted_iff files, ?_⟩
  have hchoice : ((ofFile first).insertAll files : PrioritizedDist F HashDigest Marker).choice =
      (default.insertAll (first :: files)).choice := insertAll_choice ofFile_choice
  rw [neverBeaten_congr hchoice, neverBeaten_inserted_iff]

/-- A wheel that was yanked with a reason. -/
def yankedWheel : DistFile String String :=
  .built ⟨⟨[], []⟩, "foo-1.0-py3-none-any.whl"⟩ [] (.incompatible (.yanked (.reason "broken")))

/-- Of two wheels that were yanked with a reason, the second one is the best, and the first one
is more compatible than it. -/
theorem not_neverBeaten :
    ¬ (default.insertAll [yankedWheel, yankedWheel] :
      PrioritizedDist String String (Set Pep508.Valuation)).NeverBeaten := by
  rintro (hnil | ⟨best, hbest, -, hbeaten⟩)
  · cases hnil
  · cases hbest
    have hfirst := hbeaten _ List.mem_cons_self
    cases hfirst

end PrioritizedDist

end Uv.DistributionTypes
